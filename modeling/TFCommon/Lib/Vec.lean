import Mathlib.Data.List.GetD

/-! A growable array as a list: resizing and index loops that overwrite a range of cells.
Cells past the end read as the default, so the length is the only other observation. -/
namespace TFCommon.Vec

variable {α : Type}

def resize (zero : α) (n : Nat) (xs : List α) : List α :=
  xs.take n ++ List.replicate (n - xs.length) zero

/-- `for (i = lo; i < lo + n; ++i) xs[i] = f(i, xs[i])`. -/
def updateRange (f : Nat → α → α) (lo : Nat) : Nat → List α → List α
  | 0, xs => xs
  | n + 1, xs => updateRange f (lo + 1) n (xs.modify lo (f lo))

theorem length_resize (zero : α) (n : Nat) (xs : List α) : (resize zero n xs).length = n := by
  simp only [resize, List.length_append, List.length_take, List.length_replicate]
  omega

theorem getD_resize (zero : α) (n : Nat) (xs : List α) (i : Nat) :
    (resize zero n xs).getD i zero = if i < n then xs.getD i zero else zero := by
  simp only [resize, List.getD_eq_getElem?_getD, List.getElem?_append, List.length_take,
    List.getElem?_take, List.getElem?_replicate]
  by_cases inside : i < n
  · by_cases stored : i < xs.length
    · have h : i < min n xs.length := by omega
      simp [inside, h]
    · have h : ¬ i < min n xs.length := by omega
      have past : xs[i]? = none := List.getElem?_eq_none (by omega)
      simp only [h, if_false, past, Option.getD_none]
      split <;> rfl
  · have past : ¬ i - min n xs.length < n - xs.length := by omega
    simp [inside, past]

theorem length_updateRange (f : Nat → α → α) (lo n : Nat) (xs : List α) :
    (updateRange f lo n xs).length = xs.length := by
  induction n generalizing lo xs with
  | zero => rfl
  | succ n ih => simp only [updateRange, ih, List.length_modify]

theorem getElem?_updateRange (f : Nat → α → α) (lo n : Nat) (xs : List α) (i : Nat) :
    (updateRange f lo n xs)[i]? = if lo ≤ i ∧ i < lo + n then xs[i]?.map (f i) else xs[i]? := by
  induction n generalizing lo xs with
  | zero =>
    have h : ¬ (lo ≤ i ∧ i < lo + 0) := by omega
    rw [updateRange, if_neg h]
  | succ n ih =>
    rw [updateRange, ih, List.getElem?_modify]
    by_cases here : lo = i
    · subst here
      rw [if_neg (by omega)]
      simp
    · have h : (lo + 1 ≤ i ∧ i < lo + 1 + n) ↔ (lo ≤ i ∧ i < lo + (n + 1)) := by omega
      simp only [h, here, if_false, Option.map_eq_map, Option.map_id']

theorem getD_updateRange (f : Nat → α → α) (lo n : Nat) (xs : List α) (i : Nat) (zero : α)
    (fits : lo + n ≤ xs.length) :
    (updateRange f lo n xs).getD i zero =
      if lo ≤ i ∧ i < lo + n then f i (xs.getD i zero) else xs.getD i zero := by
  rw [List.getD_eq_getElem?_getD, getElem?_updateRange]
  split
  · have stored : i < xs.length := by omega
    simp [List.getElem?_eq_getElem stored]
  · rfl

theorem getD_fill (f g : Nat → α → α) (m n : Nat) (xs : List α) (i : Nat) (zero : α)
    (order : m ≤ n) (fits : n ≤ xs.length) :
    (updateRange g m (n - m) (updateRange f 0 m xs)).getD i zero =
      if i < m then f i (xs.getD i zero) else if i < n then g i (xs.getD i zero) else xs.getD i zero := by
  rw [getD_updateRange g m (n - m) _ i zero (by rw [length_updateRange]; omega),
    getD_updateRange f 0 m xs i zero (by omega)]
  by_cases first : i < m
  · have h1 : ¬ (m ≤ i ∧ i < m + (n - m)) := by omega
    have h2 : 0 ≤ i ∧ i < 0 + m := by omega
    rw [if_neg h1, if_pos h2, if_pos first]
  · have h2 : ¬ (0 ≤ i ∧ i < 0 + m) := by omega
    have h3 : (m ≤ i ∧ i < m + (n - m)) ↔ i < n := by omega
    simp [h3, first]

theorem getD_set (xs : List α) (i : Nat) (v : α) (j : Nat) (zero : α) (fits : i < xs.length) :
    (xs.set i v).getD j zero = if i = j then v else xs.getD j zero := by
  by_cases here : i = j
  · simp [here ▸ fits, here]
  · simp [here]

end TFCommon.Vec
