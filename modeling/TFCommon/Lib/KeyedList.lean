import Mathlib.Data.List.Nodup
import Mathlib.Data.List.TakeWhile
import Mathlib.Order.Lattice
import Mathlib.Tactic.Common

/-! A list kept in the strict order of a key, as an ordered set: insertion without duplicates, and the
element an iterator moves to. -/
namespace TFCommon.KeyedList

variable {α κ : Type} [LinearOrder κ] {key : α → κ}

/-- Insertion as of an ordered set: an element with an equal key keeps the new one out. -/
def insert (key : α → κ) (x : α) : List α → List α
  | [] => [x]
  | y :: l => if key x < key y then x :: y :: l else if key y < key x then y :: insert key x l else y :: l

def Sorted (key : α → κ) (l : List α) : Prop := l.Pairwise fun a b => key a < key b

variable {l : List α} {x : α}

theorem Sorted.nodup (sorted : Sorted key l) : l.Nodup :=
  sorted.imp fun {a b} (lt : key a < key b) (same : a = b) => lt_irrefl _ (same ▸ lt)

theorem Sorted.congr {key' : α → κ} (sorted : Sorted key l) (same : ∀ a ∈ l, key' a = key a) :
    Sorted key' l :=
  List.Pairwise.imp_of_mem (fun {a b} ha hb lt => by rw [same a ha, same b hb]; exact lt) sorted

theorem mem_insert (apart : ∀ y ∈ l, key y ≠ key x) {z : α} :
    z ∈ insert key x l ↔ z = x ∨ z ∈ l := by
  induction l with
  | nil => simp [insert]
  | cons y l ih =>
    have tail := ih fun z hz => apart z (List.mem_cons_of_mem y hz)
    rw [insert]
    split
    · simp
    · rename_i notLess
      have greater : key y < key x := lt_of_le_of_ne (not_lt.mp notLess) (apart y (by simp))
      rw [if_pos greater, List.mem_cons, tail, List.mem_cons]
      exact or_left_comm

theorem insert_sorted (sorted : Sorted key l) (apart : ∀ y ∈ l, key y ≠ key x) :
    Sorted key (insert key x l) := by
  induction l with
  | nil => simp [insert, Sorted]
  | cons y l ih =>
    obtain ⟨first, rest⟩ := List.pairwise_cons.mp sorted
    have later : ∀ z ∈ l, key z ≠ key x := fun z hz => apart z (List.mem_cons_of_mem y hz)
    rw [insert]
    split
    · rename_i less
      exact List.pairwise_cons.mpr
        ⟨List.forall_mem_cons.mpr ⟨less, fun z hz => lt_trans less (first z hz)⟩, sorted⟩
    · rename_i notLess
      have greater : key y < key x := lt_of_le_of_ne (not_lt.mp notLess) (apart y (by simp))
      rw [if_pos greater]
      refine List.pairwise_cons.mpr ⟨fun z hz => ?_, ih rest later⟩
      rcases (mem_insert later).mp hz with rfl | hz
      · exact greater
      · exact first z hz

theorem head_least (sorted : Sorted key l) {x y : α} (head : l.head? = some x) (hy : y ∈ l) :
    key x ≤ key y := by
  cases l with
  | nil => simp at hy
  | cons z l =>
    cases head
    rcases List.mem_cons.mp hy with rfl | hy
    · exact le_refl _
    · exact le_of_lt ((List.pairwise_cons.mp sorted).1 y hy)

/-! ### Keys are unique -/

theorem Sorted.eq_of_key (sorted : Sorted key l) {x y : α} (hx : x ∈ l) (hy : y ∈ l)
    (same : key x = key y) : x = y :=
  List.inj_on_of_nodup_map (List.pairwise_map.mpr (sorted.imp ne_of_lt)) hx hy same

def update (key : α → κ) (k : κ) (u : α → α) (l : List α) : List α := l.map fun a => if key a = k then u a else a

theorem Sorted.update (sorted : Sorted key l) (k : κ) {u : α → α} (keeps : ∀ a, key (u a) = key a) :
    Sorted key (update key k u l) := by
  refine List.pairwise_map.mpr (sorted.imp fun {a b} lt => ?_)
  have same : ∀ a, key (if key a = k then u a else a) = key a := fun a => by
    split
    · exact keeps a
    · rfl
  rw [same, same]
  exact lt

theorem Sorted.mem_update (sorted : Sorted key l) (hx : x ∈ l) {u : α → α} {y : α} :
    y ∈ KeyedList.update key (key x) u l ↔ y = u x ∨ y ∈ l ∧ key y ≠ key x := by
  constructor
  · intro mem
    obtain ⟨a, ha, rfl⟩ := List.mem_map.mp mem
    split
    · rename_i here
      exact .inl (congrArg u (sorted.eq_of_key ha hx here))
    · rename_i other
      exact .inr ⟨ha, other⟩
  · rintro (rfl | ⟨hy, other⟩)
    · exact List.mem_map.mpr ⟨x, hx, if_pos rfl⟩
    · exact List.mem_map.mpr ⟨y, hy, if_neg other⟩

theorem mem_insert_id {x z : κ} {l : List κ} : z ∈ insert id x l ↔ z = x ∨ z ∈ l := by
  induction l with
  | nil => simp [insert]
  | cons y l ih =>
    rw [insert]
    split
    · simp
    · split
      · rw [List.mem_cons, ih, List.mem_cons]
        exact or_left_comm
      · rename_i notLess notGreater
        obtain rfl : x = y := le_antisymm (not_lt.mp notGreater) (not_lt.mp notLess)
        rw [List.mem_cons]
        exact ⟨.inr, Or.rec .inl id⟩

/-! ### The lower bound of a key -/

def lowerBound (key : α → κ) (k : κ) (l : List α) : List α := l.dropWhile fun a => decide (key a < k)

theorem Sorted.lowerBound (sorted : Sorted key l) (k : κ) : Sorted key (lowerBound key k l) :=
  sorted.sublist (List.dropWhile_sublist _)

theorem mem_lowerBound {k : κ} (hx : x ∈ l) (high : k ≤ key x) : x ∈ lowerBound key k l := by
  rw [← List.takeWhile_append_dropWhile (p := fun a => decide (key a < k)) (l := l), List.mem_append] at hx
  refine hx.resolve_left fun early => ?_
  have low := List.mem_takeWhile_imp early
  exact absurd high (not_le.mpr (of_decide_eq_true low))

theorem Sorted.le_of_mem_lowerBound (sorted : Sorted key l) {k : κ}
    (hx : x ∈ KeyedList.lowerBound key k l) : k ≤ key x := by
  induction l with
  | nil => cases hx
  | cons y l ih =>
    obtain ⟨first, rest⟩ := List.pairwise_cons.mp sorted
    rw [KeyedList.lowerBound, List.dropWhile_cons] at hx
    split at hx
    · exact ih rest hx
    · rename_i high
      have least : k ≤ key y := not_lt.mp fun low => high (decide_eq_true low)
      rcases List.mem_cons.mp hx with rfl | hx
      · exact least
      · exact le_trans least (le_of_lt (first x hx))

variable [DecidableEq α]

/-- `++it` at the element `x`; `none` is `end()`. -/
def next (x : α) : List α → Option α
  | [] => none
  | y :: l => if y = x then l.head? else next x l

theorem next_spec (sorted : Sorted key l) (hx : x ∈ l) :
    (∀ n, next x l = some n → n ∈ l ∧ key x < key n) ∧
    ∀ y ∈ l, key x < key y → ∃ n, next x l = some n ∧ key n ≤ key y := by
  induction l with
  | nil => simp at hx
  | cons z l ih =>
    obtain ⟨first, rest⟩ := List.pairwise_cons.mp sorted
    rw [next]
    split
    · rename_i here
      subst here
      refine ⟨fun n hn => ?_, fun y hy above => ?_⟩
      · have member := List.mem_of_head? hn
        exact ⟨List.mem_cons_of_mem _ member, first n member⟩
      · rcases List.mem_cons.mp hy with rfl | hy
        · exact absurd above (lt_irrefl _)
        · cases l with
          | nil => simp at hy
          | cons n l => exact ⟨n, rfl, head_least rest rfl hy⟩
    · rename_i other
      have inside : x ∈ l := (List.mem_cons.mp hx).resolve_left fun h => other h.symm
      obtain ⟨sound, least⟩ := ih rest inside
      refine ⟨fun n hn => ⟨List.mem_cons_of_mem _ (sound n hn).1, (sound n hn).2⟩, fun y hy above => ?_⟩
      rcases List.mem_cons.mp hy with rfl | hy
      · exact absurd above (not_lt_of_gt (first x inside))
      · exact least y hy above

end TFCommon.KeyedList
