import TFCommon.Patricia.Previous
import TFCommon.Patricia.Refine
import TFCommon.Patricia.Successor

/-! The queries on every tree that inserts and removes lead to. -/
namespace TFCommon.Patricia
open BitString BinTree

variable {D : Type} {K : KeyTraits D} {t : Tree D} {S : Finset D}

theorem Holds.trie (holds : Holds K t S) : ∃ T, Shape K t T ∧ held T = ↑S := by
  obtain ⟨T, shape, members⟩ := holds
  exact ⟨T, shape, Set.ext members⟩

theorem Holds.visits (holds : Holds K t S) : ∃ xs, t.visits (S.card + 1) none = some xs ∧
    xs.Pairwise (fun d e => key K d < key K e) ∧ (∀ d, d ∈ xs ↔ d ∈ S) ∧ t.getLast = some xs.getLast? := by
  have size := holds.size
  obtain ⟨T, shape, members⟩ := holds
  have count : (stored T).length = S.card := by
    rw [Tree.size, shape.nodes] at size
    exact_mod_cast size
  refine ⟨stored T, ?_, stored_sorted shape.wf, members, shape.getLast⟩
  rw [← count]
  exact shape.visits

theorem Holds.lpmFind (holds : Holds K t S) (node : D) :
    ∃ out, t.lpmFind K node = some out ∧ IsLongestPrefix K ↑S (key K node) out := by
  obtain ⟨T, shape, same⟩ := holds.trie
  rw [← same]
  exact shape.lpmFind node

theorem Holds.findNext (holds : Holds K t S) (node : D) : ∃ out, t.findNext K node = some out ∧
    (IsSuccessor K ↑S (key K node) out ↔ FindNextHolds K ↑S (key K node)) := by
  obtain ⟨T, shape, same⟩ := holds.trie
  rw [← same]
  exact shape.findNext node

theorem Holds.getPrev (holds : Holds K t S) {d node : D} (hd : d ∈ S) (same : key K node = key K d) :
    ∃ out, t.getPrev K node = some out ∧ (IsPredecessor K ↑S (key K d) out ↔ GetPrevHolds K ↑S (key K d)) := by
  obtain ⟨T, shape, members⟩ := holds.trie
  rw [← members]
  obtain ⟨past, rest, order⟩ := List.append_of_mem (show d ∈ held T from members ▸ hd)
  obtain ⟨out, run, right⟩ := shape.getPrev order same
  have predecessor := predecessor_last shape.wf order
  refine ⟨out, run, ?_⟩
  rw [← right]
  constructor
  · exact fun h => predecessor_unique (held_distinct shape.wf) h predecessor
  · exact fun h => h ▸ predecessor

/-- `GetPrev` goes back from the next node unless that one is below the right side of the first. -/
theorem Holds.getPrev_getNext (holds : Holds K t S) {x y : D} (hx : x ∈ S) (next : t.getNext (some x) = some (some y)) :
    t.getPrev K y = some (some x) ↔ ¬ key K x ++ [true] <+: key K y := by
  obtain ⟨T, shape, members⟩ := holds.trie
  obtain ⟨past, rest, order⟩ := List.append_of_mem (show x ∈ held T from members ▸ hx)
  rw [shape.getNext_stored order, Option.some.injEq, List.head?_eq_some_iff] at next
  obtain ⟨rest, rfl⟩ := next
  have order' : stored T = (past ++ [x]) ++ y :: rest := by simpa using order
  obtain ⟨out, run, right⟩ := shape.getPrev order' rfl
  rw [getPrevHolds_iff shape.wf order'] at right
  simp only [List.getLast?_concat, Option.some.injEq, forall_eq'] at right
  rw [run, Option.some.injEq]
  exact right

variable [DecidableEq D]

/-- Iteration from `begin()` ends after every stored node once, in key order, and `GetLast` is its last node. -/
theorem iteration_sorted_complete (K : KeyTraits D) (ops : List (Op D)) : ∃ t S, Reaches K ops t S ∧
    ∃ xs, t.visits (S.card + 1) none = some xs ∧ xs.Pairwise (fun d e => key K d < key K e) ∧
      (∀ d, d ∈ xs ↔ d ∈ S) ∧ t.getLast = some xs.getLast? := by
  obtain ⟨t, reaches⟩ := reaches_exists K ops
  exact ⟨t, _, reaches, reaches.holds.visits⟩

theorem lpmFind_longest_match (K : KeyTraits D) (ops : List (Op D)) : ∃ t S, Reaches K ops t S ∧
    ∀ node, ∃ out, t.lpmFind K node = some out ∧ IsLongestPrefix K ↑S (key K node) out := by
  obtain ⟨t, reaches⟩ := reaches_exists K ops
  exact ⟨t, _, reaches, reaches.holds.lpmFind⟩

/-- `FindNext` and `LowerBound` always return, and return the strict successor of exactly the keys of `FindNextHolds`. -/
theorem findNext_successor_iff (K : KeyTraits D) (ops : List (Op D)) : ∃ t S, Reaches K ops t S ∧
    ∀ node, ∃ out, t.findNext K node = some out ∧ t.lowerBound K node = some out ∧
      (IsSuccessor K ↑S (key K node) out ↔ FindNextHolds K ↑S (key K node)) := by
  obtain ⟨t, reaches⟩ := reaches_exists K ops
  refine ⟨t, _, reaches, fun node => ?_⟩
  obtain ⟨out, run, right⟩ := reaches.holds.findNext node
  exact ⟨out, run, run, right⟩

/-- `GetPrev` of a stored key is its predecessor under `GetPrevHolds` only, and inverts `GetNext` only where the
next node is not below the right side of the node. -/
theorem getPrev_predecessor_iff (K : KeyTraits D) (ops : List (Op D)) : ∃ t S, Reaches K ops t S ∧
    (∀ d ∈ S, ∀ node, key K node = key K d → ∃ out, t.getPrev K node = some out ∧
      (IsPredecessor K ↑S (key K d) out ↔ GetPrevHolds K ↑S (key K d))) ∧
    ∀ x ∈ S, ∀ y, t.getNext (some x) = some (some y) →
      (t.getPrev K y = some (some x) ↔ ¬ key K x ++ [true] <+: key K y) := by
  obtain ⟨t, reaches⟩ := reaches_exists K ops
  exact ⟨t, _, reaches, fun d hd node same => reaches.holds.getPrev hd same,
    fun x hx y next => reaches.holds.getPrev_getNext hx next⟩

def bitKeys : KeyTraits (List Bool) where
  bitLength := List.length
  byteValue d n := BitVec.ofNat 8 ((List.range 8).foldl (fun v j => 2 * v + (bit d (8 * n + j)).toNat) 0)

theorem answer_of_run {A : Type} {p : List (Op (List Bool))} {f : Tree (List Bool) → Option A} {o : A}
    (computed : (runs (Tree.exec bitKeys) Tree.new p).bind (fun r => f r.2) = some o) :
    ∃ t, Reaches bitKeys p t (specRuns (setExec bitKeys) ∅ p).2 ∧ f t = some o := by
  obtain ⟨t, run, same⟩ := reaches_exists bitKeys p
  rw [run] at computed
  exact ⟨t, ⟨run, same⟩, computed⟩

/-- With `ε` and `0` stored nothing is above `01`, but `FindNext` wraps to the first node; with `00` and `11`
stored it returns nothing for `010`; with `100`, `101` and `11` it skips `100` for the query `01`. -/
theorem findNext_not_successor :
    (∃ t S, Reaches bitKeys [.insert [], .insert [false]] t S ∧ t.findNext bitKeys [false, true] = some (some []) ∧
      ¬ IsSuccessor bitKeys ↑S (key bitKeys [false, true]) (some [])) ∧
    (∃ t S, Reaches bitKeys [.insert [false, false], .insert [true, true]] t S ∧
      t.findNext bitKeys [false, true, false] = some none ∧
      ¬ IsSuccessor bitKeys ↑S (key bitKeys [false, true, false]) none) ∧
    ∃ t S, Reaches bitKeys [.insert [true, false, false], .insert [true, false, true], .insert [true, true]] t S ∧
      t.findNext bitKeys [false, true] = some (some [true, true]) ∧
      ¬ IsSuccessor bitKeys ↑S (key bitKeys [false, true]) (some [true, true]) := by
  refine ⟨?_, ?_, ?_⟩
  · obtain ⟨t, reaches, run⟩ := answer_of_run (f := fun t => t.findNext bitKeys [false, true])
      (p := [.insert [], .insert [false]]) (o := some []) (by decide +kernel)
    exact ⟨t, _, reaches, run, fun least => absurd least.2.1 (by decide +kernel)⟩
  · obtain ⟨t, reaches, run⟩ := answer_of_run (f := fun t => t.findNext bitKeys [false, true, false])
      (p := [.insert [false, false], .insert [true, true]]) (o := none) (by decide +kernel)
    exact ⟨t, _, reaches, run, fun least => least [true, true] (by decide +kernel) (by decide +kernel)⟩
  · obtain ⟨t, reaches, run⟩ := answer_of_run (f := fun t => t.findNext bitKeys [false, true])
      (p := [.insert [true, false, false], .insert [true, false, true], .insert [true, true]])
      (o := some [true, true]) (by decide +kernel)
    exact ⟨t, _, reaches, run, fun least =>
      absurd (least.2.2 [true, false, false] (by decide +kernel) (by decide +kernel)) (by decide +kernel)⟩

/-- With `ε` and `1` stored, `1` comes after `ε`, but `GetPrev` of `1` returns nothing. -/
theorem getPrev_not_predecessor : ∃ t S, Reaches bitKeys [.insert [], .insert [true]] t S ∧
    t.getNext (some []) = some (some [true]) ∧ t.getPrev bitKeys [true] = some none ∧
    ¬ IsPredecessor bitKeys ↑S (key bitKeys [true]) none := by
  obtain ⟨t, reaches, run⟩ := answer_of_run (p := [.insert [], .insert [true]])
    (f := fun t => do return (← t.getNext (some []), ← t.getPrev bitKeys [true]))
    (o := (some [true], none)) (by decide +kernel)
  simp only [Option.bind_eq_bind, Option.bind_eq_some_iff] at run
  obtain ⟨next, hnext, prev, hprev, rfl, rfl⟩ := run
  exact ⟨t, _, reaches, hnext, hprev, fun least => least [] (by decide +kernel) (by decide +kernel)⟩

end TFCommon.Patricia
