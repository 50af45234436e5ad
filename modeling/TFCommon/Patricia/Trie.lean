import TFCommon.Lib.BinTree
import TFCommon.Patricia.Tree
import Mathlib.Data.List.Nodup
import Mathlib.Data.Set.Basic

/-! The trie the node memory stands for: every node has the bit string it is reached by, data
nodes their own key, and internal nodes branch to two subtrees that differ in the next bit. -/
namespace TFCommon.Patricia
open BitString BinTree

structure Cell (D : Type) where
  ref : Ref D
  word : List Bool

abbrev Trie (D : Type) := BinTree (Cell D)
abbrev Path (D : Type) := List (Frame (Cell D))

variable {D : Type}

def dataOf (cells : List (Cell D)) : List D := cells.filterMap (·.ref.toData)

@[simp] theorem dataOf_nil : dataOf ([] : List (Cell D)) = [] := rfl

theorem dataOf_append (xs ys : List (Cell D)) : dataOf (xs ++ ys) = dataOf xs ++ dataOf ys := List.filterMap_append

def stored (T : Trie D) : List D := dataOf T.toList

def held (T : Trie D) : Set D := { d | d ∈ stored T }

variable {T l r : Trie D} {d : D} {a : Cell D}

@[simp] theorem mem_held : d ∈ held T ↔ d ∈ stored T := Iff.rfl

def Under (w : List Bool) (T : Trie D) : Prop := ∀ a ∈ T.toList, w <+: a.word

def CellOK (K : KeyTraits D) (a : Cell D) (l r : Trie D) : Prop :=
  match a.ref with
  | .data d => key K d = a.word
  | .int _ => l ≠ .empty ∧ r ≠ .empty

def WF (K : KeyTraits D) : Trie D → Prop
  | .empty => True
  | .node a l r => CellOK K a l r ∧ Under (a.word ++ [false]) l ∧ Under (a.word ++ [true]) r ∧ WF K l ∧ WF K r

theorem wf_node {K : KeyTraits D} : WF K (.node a l r) ↔
    CellOK K a l r ∧ Under (a.word ++ [false]) l ∧ Under (a.word ++ [true]) r ∧ WF K l ∧ WF K r := Iff.rfl

theorem toData_eq {x : Ref D} : x.toData = some d ↔ x = .data d := by
  cases x <;> simp [Ref.toData]

theorem mem_stored : d ∈ stored T ↔ ∃ a ∈ T.toList, a.ref = .data d := by
  simp [stored, dataOf, toData_eq]

@[simp] theorem stored_empty : stored (.empty : Trie D) = [] := rfl

theorem stored_node (a : Cell D) (l r : Trie D) :
    stored (.node a l r) = a.ref.toData.toList ++ (stored l ++ stored r) := by
  cases h : a.ref <;> simp [stored, dataOf, h, Ref.toData]

theorem stored_perm_plug (c : Path D) (T : Trie D) : (stored (plug c T)).Perm (stored T ++ dataOf (outside c)) := by
  rw [stored, stored, ← dataOf_append]
  exact (perm_plug c T).filterMap _

theorem stored_fill (g : Frame (Cell D)) (X : Trie D) :
    (stored (g.fill X)).Perm (g.label.ref.toData.toList ++ stored g.other ++ stored X) := by
  have h := (perm_fill g X).filterMap (·.ref.toData)
  cases data : g.label.ref.toData <;> simpa [stored, dataOf, data] using h

@[simp] theorem under_empty (w : List Bool) : Under w (.empty : Trie D) := by simp [Under]

theorem under_node {w : List Bool} :
    Under w (.node a l r) ↔ w <+: a.word ∧ Under w l ∧ Under w r := by
  simp [Under, or_imp, forall_and]

theorem Under.trans {v w : List Bool} (h : Under w T) (le : v <+: w) : Under v T :=
  fun a ha => le.trans (h a ha)

section
variable {K : KeyTraits D}

theorem cell_of_mem (wf : WF K T) (ha : a ∈ T.toList) (data : a.ref = .data d) :
    a.word = key K d := by
  induction T with
  | empty => simp at ha
  | node b l r ihl ihr =>
    obtain ⟨ok, _, _, wfl, wfr⟩ := wf
    rcases List.mem_cons.mp ha with rfl | ha
    · simp only [CellOK, data] at ok
      exact ok.symm
    · rcases List.mem_append.mp ha with ha | ha
      · exact ihl wfl ha
      · exact ihr wfr ha

theorem WF.child (wf : WF K (.node a l r)) (b : Bool) :
    WF K (child b l r) ∧ Under (a.word ++ [b]) (child b l r) := by
  obtain ⟨_, ul, ur, wfl, wfr⟩ := wf
  cases b
  · exact ⟨wfl, ul⟩
  · exact ⟨wfr, ur⟩

theorem WF.under (wf : WF K (.node a l r)) : Under a.word (.node a l r) := by
  obtain ⟨_, ul, ur, _, _⟩ := wf
  exact under_node.mpr ⟨List.prefix_refl _, ul.trans (List.prefix_append _ _), ur.trans (List.prefix_append _ _)⟩

theorem stored_focus {c : Path D} (data : a.ref = .data d) : d ∈ stored (plug c (.node a l r)) :=
  mem_stored.mpr ⟨a, (mem_plug ..).mpr (.inl (by simp)), data⟩

theorem words_sorted (wf : WF K T) : T.toList.Pairwise fun a b => a.word < b.word := by
  induction T with
  | empty => simp
  | node a l r ihl ihr =>
    obtain ⟨_, ul, ur, wfl, wfr⟩ := wf
    simp only [toList_node, List.pairwise_cons, List.pairwise_append]
    refine ⟨fun b hb => ?_, ihl wfl, ihr wfr, fun b hb c hc => lt_of_branch (ul b hb) (ur c hc)⟩
    rcases List.mem_append.mp hb with hb | hb
    · exact lt_of_turn (ul b hb)
    · exact lt_of_turn (ur b hb)

theorem stored_sorted (wf : WF K T) : (stored T).Pairwise fun d e => key K d < key K e := by
  have sorted := words_sorted wf
  rw [stored, dataOf, List.pairwise_filterMap]
  refine sorted.imp_of_mem fun {a b} ha hb lt d hd e he => ?_
  rw [← cell_of_mem wf ha (toData_eq.mp hd), ← cell_of_mem wf hb (toData_eq.mp he)]
  exact lt

theorem stored_nodup (wf : WF K T) : (stored T).Nodup :=
  (stored_sorted wf).imp fun {d e} (lt : key K d < key K e) (same : d = e) => lt_irrefl _ (same ▸ lt)

theorem stored_unique (wf : WF K T) {d e : D} (hd : d ∈ stored T) (he : e ∈ stored T)
    (same : key K d = key K e) : d = e :=
  List.inj_on_of_nodup_map (List.pairwise_map.mpr ((stored_sorted wf).imp ne_of_lt)) hd he same

theorem held_distinct (wf : WF K T) : ∀ d ∈ held T, ∀ e ∈ held T, key K d = key K e → d = e :=
  fun _ hd _ he => stored_unique wf hd he

theorem stored_nonempty (wf : WF K T) (ne : T ≠ .empty) : ∃ d, d ∈ stored T := by
  induction T with
  | empty => exact absurd rfl ne
  | node a l r ihl _ =>
    obtain ⟨ok, _, _, wfl, _⟩ := wf
    cases h : a.ref with
    | data d => exact ⟨d, mem_stored.mpr ⟨a, by simp, h⟩⟩
    | int n =>
      simp only [CellOK, h] at ok
      obtain ⟨d, hd⟩ := ihl wfl ok.1
      exact ⟨d, by simp [stored_node, hd]⟩

theorem cellOK_iff : CellOK K a l r ↔
    (∀ d, a.ref = .data d → key K d = a.word) ∧ (a.ref.toData = none → l ≠ .empty ∧ r ≠ .empty) := by
  cases h : a.ref <;> simp [CellOK, h, Ref.toData]

theorem size_lt_stored (wf : WF K T) : T = .empty ∨ T.size < 2 * (stored T).length := by
  induction T with
  | empty => exact .inl rfl
  | node a l r left right =>
    obtain ⟨ok, _, _, wfl, wfr⟩ := wf
    have left := left wfl
    have right := right wfr
    have full := (cellOK_iff.mp ok).2
    rw [stored_node, size_node]
    cases h : a.ref.toData <;> grind [size_empty]

variable {f : Frame (Cell D)} {c : Path D}

theorem under_fill {w : List Bool} {X : Trie D} :
    Under w (f.fill X) ↔ w <+: f.label.word ∧ Under w f.other ∧ Under w X := by
  cases h : f.dir <;> simp only [Frame.fill, h, Bool.false_eq_true, if_true, if_false, under_node]
  tauto

theorem wf_fill {X : Trie D} : WF K (f.fill X) ↔
    ((∀ d, f.label.ref = .data d → key K d = f.label.word) ∧
      (f.label.ref.toData = none → f.other ≠ .empty ∧ X ≠ .empty)) ∧
    Under (f.label.word ++ [f.dir]) X ∧ Under (f.label.word ++ [!f.dir]) f.other ∧ WF K X ∧ WF K f.other := by
  cases h : f.dir <;> simp only [Frame.fill, h, Bool.false_eq_true, if_true, if_false, wf_node, cellOK_iff] <;> tauto

theorem wf_focus (wf : WF K (plug c T)) :
    WF K T ∧ ∀ f ∈ c, Under (f.label.word ++ [f.dir]) T ∧ Under (f.label.word ++ [!f.dir]) f.other ∧ WF K f.other := by
  induction c generalizing T with
  | nil => simpa using wf
  | cons f c ih =>
    obtain ⟨here, above⟩ := ih wf
    obtain ⟨_, under, other, wfT, wfO⟩ := wf_fill.mp here
    refine ⟨wfT, List.forall_mem_cons.mpr ⟨⟨under, other, wfO⟩, fun g hg => ?_⟩⟩
    exact ⟨(under_fill.mp (above g hg).1).2.2, (above g hg).2⟩

theorem frame_data (wf : WF K (plug c T)) (hf : f ∈ c)
    (data : f.label.ref = .data d) : f.label.word = key K d :=
  cell_of_mem wf ((mem_plug c T _).mpr (.inr (label_outside hf))) data

theorem frame_int (wf : WF K (plug c T)) (hf : f ∈ c)
    (internal : f.label.ref.toData = none) : f.other ≠ .empty := by
  induction c generalizing T with
  | nil => simp at hf
  | cons g c ih =>
    rcases List.mem_cons.mp hf with rfl | hf
    · exact ((wf_fill.mp (wf_focus (c := c) wf).1).1.2 internal).1
    · exact ih wf hf

theorem wf_refill {T X : Trie D} (wf : WF K (plug c T)) (inner : WF K X)
    (under : ∀ f ∈ c, Under (f.label.word ++ [f.dir]) X)
    (full : ∀ f, c.head? = some f → f.label.ref.toData = none → X ≠ .empty) : WF K (plug c X) := by
  induction c generalizing T X with
  | nil => exact inner
  | cons f c ih =>
    obtain ⟨here, above⟩ := wf_focus (c := c) wf
    obtain ⟨⟨data, internal⟩, _, other, _, wfO⟩ := wf_fill.mp here
    apply ih wf
    · exact wf_fill.mpr ⟨⟨data, fun h => ⟨(internal h).1, full f rfl h⟩⟩, under f (by simp), other, inner, wfO⟩
    · intro g hg
      obtain ⟨label, rest, _⟩ := under_fill.mp (above g hg).1
      exact under_fill.mpr ⟨label, rest, under g (by simp [hg])⟩
    · intro g _ _ empty
      cases hd : f.dir <;> simp [Frame.fill, hd] at empty

end

end TFCommon.Patricia
