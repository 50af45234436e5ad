import TFCommon.Lib.Run
import TFCommon.Patricia.Insert
import TFCommon.Patricia.Remove
import Mathlib.Data.Finset.Card
import Mathlib.Data.Finset.Filter

/-! Runs of inserts and removes refine a finite set of nodes with different keys, and keep the
threaded trie. -/
namespace TFCommon.Patricia
open BitString BinTree

inductive Op (D : Type) where
  | insert (data : D)
  | remove (data : D)

section model
variable {D : Type} [DecidableEq D] (K : KeyTraits D)

def Tree.exec (t : Tree D) : Op D → Option (Bool × Tree D)
  | .insert data => t.insert K data
  | .remove data => t.remove K data

def HasKey {D : Type} (K : KeyTraits D) (S : Finset D) (k : List Bool) : Prop := ∃ d ∈ S, key K d = k

instance (S : Finset D) (k : List Bool) : Decidable (HasKey K S k) := inferInstanceAs (Decidable (∃ d ∈ S, key K d = k))

def setExec (S : Finset D) : Op D → Bool × Finset D
  | .insert data => if HasKey K S (key K data) then (false, S) else (true, Insert.insert data S)
  | .remove data => if HasKey K S (key K data) then (true, S.filter fun d => key K d ≠ key K data) else (false, S)

def Reaches (ops : List (Op D)) (t : Tree D) (S : Finset D) : Prop :=
  runs (Tree.exec K) Tree.new ops = some ((specRuns (setExec K) ∅ ops).1, t) ∧ (specRuns (setExec K) ∅ ops).2 = S

end model

variable {D : Type} {K : KeyTraits D} {t : Tree D} {T : Trie D}

/-- The threaded trie: where each node stands in `T`, what its fields hold, and which keys are below it.
The thread of a node is the nearest ancestor that has it in its left subtree. -/
structure Threaded (K : KeyTraits D) (t : Tree D) (T : Trie D) : Prop where
  root : t.root = link T none
  fields : ∀ c a l r, plug c (.node a l r) = T → t.mem a.ref = some (nodeAt a (link l none) (link r (threadRef c)))
  increasing : ∀ c a l r, plug c (.node a l r) = T → ∀ b ∈ l.toList ++ r.toList, a.word.length < b.word.length
  data : ∀ c a l r d, plug c (.node a l r) = T → a.ref = .data d →
    a.word.length = K.bitLength d ∧ ∀ e ∈ stored (.node a l r), key K d <+: key K e
  internal : ∀ c a l r n, plug c (.node a l r) = T → a.ref = .int n → l ≠ .empty ∧ r ≠ .empty ∧
    ∀ d ∈ stored l, ∀ e ∈ stored r, (∀ i < a.word.length, bit (key K d) i = bit (key K e) i) ∧
      bit (key K d) a.word.length ≠ bit (key K e) a.word.length

theorem Shape.threaded (shape : Shape K t T) : Threaded K t T where
  root := shape.root
  fields := by
    rintro c a l r rfl
    exact shape.read
  increasing := by
    rintro c a l r rfl b hb
    have inner := (wf_focus shape.wf).1
    rcases List.mem_append.mp hb with left | right
    · exact turn_length ((inner.child false).2 b left)
    · exact turn_length ((inner.child true).2 b right)
  data := by
    rintro c a l r d rfl data
    have inner := (wf_focus shape.wf).1
    have word := cell_of_mem inner (by simp) data
    refine ⟨by rw [word, key_length], fun e he => ?_⟩
    rw [← word]
    exact stored_extends inner inner.under he
  internal := by
    rintro c a l r n rfl internal
    have inner := (wf_focus shape.wf).1
    obtain ⟨fullL, fullR⟩ := (cellOK_iff.mp inner.1).2 (by rw [internal]; rfl)
    refine ⟨fullL, fullR, fun d hd e he => ?_⟩
    have left := stored_extends (inner.child false).1 (inner.child false).2 hd
    have right := stored_extends (inner.child true).1 (inner.child true).2 he
    refine ⟨fun i hi => ?_, by simp [turn_bit left, turn_bit right]⟩
    rw [← bit_prefix_eq (prefix_of_turn left) hi, ← bit_prefix_eq (prefix_of_turn right) hi]

def Holds (K : KeyTraits D) (t : Tree D) (S : Finset D) : Prop := ∃ T, Shape K t T ∧ ∀ d, d ∈ stored T ↔ d ∈ S

theorem holds_new : Holds K (Tree.new : Tree D) ∅ := by
  refine ⟨.empty, ⟨rfl, trivial, trivial, by simp, rfl, rfl, by simp, fun d => ⟨{}, rfl, rfl⟩⟩, by simp⟩

variable {S : Finset D}

theorem Holds.distinct (holds : Holds K t S) : ∀ d ∈ S, ∀ e ∈ S, key K d = key K e → d = e := by
  obtain ⟨T, shape, members⟩ := holds
  intro d hd e he
  exact stored_unique shape.wf ((members d).mpr hd) ((members e).mpr he)

theorem Holds.size (holds : Holds K t S) : t.size = S.card := by
  classical
  obtain ⟨T, shape, members⟩ := holds
  have same : S = (stored T).toFinset := Finset.ext fun d => by rw [List.mem_toFinset, members]
  rw [Tree.size, shape.nodes, same, List.toFinset_card_of_nodup (stored_nodup shape.wf)]

theorem Holds.find (holds : Holds K t S) (data : D) : ∃ found, t.find K data = some found ∧
    match found with
    | some d => d ∈ S ∧ key K d = key K data
    | none => ¬ HasKey K S (key K data) := by
  obtain ⟨T, shape, members⟩ := holds
  obtain ⟨found, run, outcome⟩ := shape.find data
  refine ⟨found, run, ?_⟩
  cases found with
  | some d => exact ⟨(members d).mp outcome.1, outcome.2⟩
  | none =>
    rintro ⟨d, hd, same⟩
    exact outcome d ((members d).mpr hd) same

variable [DecidableEq D]

theorem Holds.insert (holds : Holds K t S) (data : D) :
    (HasKey K S (key K data) → t.insert K data = some (false, t)) ∧
    (¬ HasKey K S (key K data) → ∃ next, t.insert K data = some (true, next) ∧ Holds K next (Insert.insert data S)) := by
  obtain ⟨T, shape, members⟩ := holds
  rcases shape.insertNode data with ⟨⟨d, hd, same⟩, run⟩ | ⟨absent, next, T', run, shape', members'⟩
  · exact ⟨fun _ => run, fun h => absurd ⟨d, (members d).mp hd, same⟩ h⟩
  · constructor
    · rintro ⟨d, hd, same⟩
      exact absurd same (absent d ((members d).mpr hd))
    · intro _
      exact ⟨next, run, T', shape', fun d => by rw [members', members, Finset.mem_insert]⟩

theorem Holds.remove (holds : Holds K t S) (data : D) :
    (¬ HasKey K S (key K data) → t.remove K data = some (false, t)) ∧
    (HasKey K S (key K data) → ∃ next, t.remove K data = some (true, next) ∧
      Holds K next (S.filter fun d => key K d ≠ key K data)) := by
  obtain ⟨T, shape, members⟩ := holds
  rcases shape.removeNode data with ⟨absent, run⟩ | ⟨⟨d, hd, same⟩, next, T', run, shape', members'⟩
  · constructor
    · exact fun _ => run
    · rintro ⟨d, hd, same⟩
      exact absurd same (absent d ((members d).mpr hd))
  · constructor
    · intro h
      exact absurd ⟨d, (members d).mp hd, same⟩ h
    · intro _
      exact ⟨next, run, T', shape', fun d => by rw [members', members, Finset.mem_filter]⟩

theorem exec_refines (t : Tree D) (S : Finset D) (op : Op D) (holds : Holds K t S) :
    ∃ next, t.exec K op = some ((setExec K S op).1, next) ∧ Holds K next (setExec K S op).2 := by
  cases op with
  | insert data =>
    by_cases present : HasKey K S (key K data)
    · exact ⟨t, by simpa [Tree.exec, setExec, present] using (holds.insert data).1 present,
        by simpa [setExec, present] using holds⟩
    · simpa [Tree.exec, setExec, present] using (holds.insert data).2 present
  | remove data =>
    by_cases present : HasKey K S (key K data)
    · simpa [Tree.exec, setExec, present] using (holds.remove data).2 present
    · exact ⟨t, by simpa [Tree.exec, setExec, present] using (holds.remove data).1 present,
        by simpa [setExec, present] using holds⟩

theorem reaches_exists (K : KeyTraits D) (ops : List (Op D)) : ∃ t, Reaches K ops t (specRuns (setExec K) ∅ ops).2 := by
  obtain ⟨t, run, _⟩ := runs_refine (Holds K) exec_refines ops Tree.new ∅ holds_new
  exact ⟨t, run, rfl⟩

theorem Reaches.holds {ops : List (Op D)} (reaches : Reaches K ops t S) : Holds K t S := by
  obtain ⟨final, run, holds⟩ := runs_refine (Holds K) exec_refines ops Tree.new ∅ holds_new
  obtain ⟨run', rfl⟩ := reaches
  rw [run'] at run
  cases run
  exact holds

/-- Every sequence of inserts and removes, from an empty tree, returns what the set returns, and the
tree it leaves answers as the set does and is a threaded trie. Keys are arbitrary bit strings. -/
theorem tree_refines_set (K : KeyTraits D) (ops : List (Op D)) : ∃ t S, Reaches K ops t S ∧
    (∀ d ∈ S, ∀ e ∈ S, key K d = key K e → d = e) ∧
    (∀ data, (HasKey K S (key K data) → t.insert K data = some (false, t)) ∧
      (¬ HasKey K S (key K data) → ∃ next, t.insert K data = some (true, next) ∧ Holds K next (Insert.insert data S))) ∧
    (∀ data, (¬ HasKey K S (key K data) → t.remove K data = some (false, t)) ∧
      (HasKey K S (key K data) → ∃ next, t.remove K data = some (true, next) ∧
        Holds K next (S.filter fun d => key K d ≠ key K data))) ∧
    (∀ data, ∃ found, t.find K data = some found ∧
      match found with
      | some d => d ∈ S ∧ key K d = key K data
      | none => ¬ HasKey K S (key K data)) ∧
    t.size = S.card ∧ ∃ T, Threaded K t T ∧ ∀ d, d ∈ stored T ↔ d ∈ S := by
  obtain ⟨t, reaches⟩ := reaches_exists K ops
  have holds := reaches.holds
  refine ⟨t, _, reaches, holds.distinct, holds.insert, holds.remove, holds.find, holds.size, ?_⟩
  obtain ⟨T, shape, members⟩ := holds
  exact ⟨T, shape.threaded, members⟩

/-- Inserts and removes leave fewer internal nodes than data nodes, and none in an empty tree. -/
theorem internal_nodes_bounded (K : KeyTraits D) (ops : List (Op D)) : ∃ t S, Reaches K ops t S ∧
    0 ≤ t.intNodes ∧ t.intNodes ≤ max 0 (t.size - 1) := by
  obtain ⟨t, reaches⟩ := reaches_exists K ops
  obtain ⟨T, shape, _⟩ := reaches.holds
  have total := shape.total
  rw [shape.nodes] at total
  have least : (stored T).length ≤ T.size := List.length_filterMap_le _ _
  refine ⟨t, _, reaches, by omega, ?_⟩
  rw [Tree.size, shape.nodes]
  rcases size_lt_stored shape.wf with rfl | fewer
  · simp at total
    omega
  · omega

end TFCommon.Patricia
