import Mathlib.Data.List.Sort

/-! A hash ring: every node has keys on it, the keys are kept in order, and each is known with its node. What the ring holds
is determined by the set of its nodes. -/
namespace TFCommon.HashRing

variable {K N : Type} {keysOf : N → List K} {nodes others : List N} {keys : List K} {owner : K → Option N}

def Apart (keysOf : N → List K) (nodes : List N) : Prop := (nodes.flatMap keysOf).Nodup

instance [DecidableEq K] (keysOf : N → List K) (nodes : List N) : Decidable (Apart keysOf nodes) :=
  inferInstanceAs (Decidable (nodes.flatMap keysOf).Nodup)

structure Holds (keysOf : N → List K) (nodes : List N) (keys : List K) (owner : K → Option N) : Prop where
  placed : keys.Perm (nodes.flatMap keysOf)
  owns : ∀ k n, owner k = some n ↔ n ∈ nodes ∧ k ∈ keysOf n

theorem Apart.perm (apart : Apart keysOf nodes) (same : nodes.Perm others) : Apart keysOf others :=
  (same.flatMap_right keysOf).nodup apart

theorem Apart.of_append (apart : Apart keysOf (nodes ++ others)) :
    Apart keysOf nodes ∧ ∀ n ∈ nodes, ∀ m ∈ others, ∀ k ∈ keysOf n, k ∉ keysOf m := by
  unfold Apart at apart
  rw [List.flatMap_append] at apart
  obtain ⟨left, _, disjoint⟩ := List.nodup_append.mp apart
  refine ⟨left, fun n hn m hm k first second => ?_⟩
  exact disjoint k (List.mem_flatMap.mpr ⟨n, hn, first⟩) k (List.mem_flatMap.mpr ⟨m, hm, second⟩) rfl

theorem Holds.empty (keysOf : N → List K) : Holds keysOf [] [] (fun _ => none) :=
  ⟨.refl _, fun k n => ⟨fun h => (by cases h), fun h => (by cases h.1)⟩⟩

section
variable (holds : Holds keysOf nodes keys owner)
include holds

theorem Holds.add [DecidableEq K] {n : N} (apart : Apart keysOf (nodes ++ [n]))
    {next : K → Option N} (owners : ∀ k, next k = if k ∈ keysOf n then some n else owner k) :
    Holds keysOf (nodes ++ [n]) (keys ++ keysOf n) next where
  placed := by
    rw [List.flatMap_append]
    refine holds.placed.append ?_
    rw [List.flatMap_cons, List.flatMap_nil, List.append_nil]
  owns k m := by
    obtain ⟨_, disjoint⟩ := apart.of_append
    rw [owners k, List.mem_append, List.mem_singleton]
    split
    · rename_i here
      constructor
      · intro h
        cases h
        exact ⟨.inr rfl, here⟩
      · rintro ⟨old | rfl, inside⟩
        · exact absurd here (disjoint m old n (List.mem_singleton.mpr rfl) k inside)
        · rfl
    · rename_i notHere
      rw [holds.owns k m]
      constructor
      · exact fun h => ⟨.inl h.1, h.2⟩
      · rintro ⟨old | rfl, inside⟩
        · exact ⟨old, inside⟩
        · exact absurd inside notHere

theorem Holds.remove [DecidableEq K] [BEq N] [LawfulBEq N] (once : nodes.Nodup) {n : N}
    (inside : n ∈ nodes) (apart : Apart keysOf nodes) {rest : List K} (left : keys.Perm (keysOf n ++ rest)) {next : K → Option N}
    (owners : ∀ k, next k = if k ∈ keysOf n then none else owner k) : Holds keysOf (nodes.erase n) rest next where
  placed := by
    have whole : keys.Perm (keysOf n ++ (nodes.erase n).flatMap keysOf) :=
      holds.placed.trans ((List.perm_cons_erase inside).flatMap_right keysOf)
    exact List.perm_append_left_iff _ |>.mp (left.symm.trans whole)
  owns k m := by
    have front : Apart keysOf ([n] ++ nodes.erase n) := apart.perm (List.perm_cons_erase inside)
    have disjoint := front.of_append.2 n (List.mem_singleton.mpr rfl)
    rw [owners k, once.mem_erase_iff]
    split
    · rename_i here
      constructor
      · exact fun h => (by cases h)
      · rintro ⟨⟨other, old⟩, there⟩
        exact absurd there (disjoint m (once.mem_erase_iff.mpr ⟨other, old⟩) k here)
    · rename_i notHere
      rw [holds.owns k m]
      constructor
      · rintro ⟨old, there⟩
        refine ⟨⟨?_, old⟩, there⟩
        rintro rfl
        exact notHere there
      · exact fun h => ⟨h.1.2, h.2⟩

theorem Holds.perm {sorted : List K} (same : sorted.Perm keys) :
    Holds keysOf nodes sorted owner := ⟨same.trans holds.placed, holds.owns⟩

theorem Holds.unique [LinearOrder K] {keys' : List K} {owner' : K → Option N}
    (holds' : Holds keysOf others keys' owner') (same : nodes.Perm others) (sorted : keys.Pairwise (· ≤ ·))
    (sorted' : keys'.Pairwise (· ≤ ·)) : keys = keys' ∧ owner = owner' := by
  constructor
  · exact (holds.placed.trans ((same.flatMap_right keysOf).trans holds'.placed.symm)).eq_of_pairwise' sorted sorted'
  · funext k
    refine Option.ext fun n => ?_
    rw [holds.owns, holds'.owns, same.mem_iff]

theorem Holds.owned {k : K} (inside : k ∈ keys) : ∃ n ∈ nodes, owner k = some n := by
  obtain ⟨n, hn, here⟩ := List.mem_flatMap.mp (holds.placed.mem_iff.mp inside)
  exact ⟨n, hn, (holds.owns k n).mpr ⟨hn, here⟩⟩

end

end TFCommon.HashRing
