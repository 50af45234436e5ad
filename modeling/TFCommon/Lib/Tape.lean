import Mathlib.Data.List.Infix

/-! A word that is read without looking at its end: behind the end, the symbol that was read last comes again. -/
namespace TFCommon.Tape

variable {α : Type}

/-- The symbol in the hand after `n` symbols are read; before the first, `g`. -/
def last (w : List α) (g : α) : Nat → α
  | 0 => g
  | n + 1 => w[n]?.getD (last w g n)

def tape (w : List α) (g : α) (n : Nat) : α := last w g (n + 1)

def spelled (t : Nat → α) : Nat → Nat → List α
  | _, 0 => []
  | k, n + 1 => t k :: spelled t (k + 1) n

variable {w : List α} {g : α} {k n : Nat}

theorem tape_inside (inside : n < w.length) : tape w g n = w[n] := by
  rw [tape, last, List.getElem?_eq_getElem inside]
  rfl

theorem tape_past (past : w.length ≤ n) : tape w g n = last w g n := by
  rw [tape, last, List.getElem?_eq_none past]
  rfl

theorem tape_again (past : w.length ≤ n + 1) : tape w g (n + 1) = tape w g n := tape_past past

theorem tape_nil : tape [] g n = g := by
  induction n with
  | zero => rfl
  | succ n ih => exact (tape_again (Nat.zero_le _)).trans ih

theorem tape_mem (some_ : w ≠ []) : tape w g n ∈ w := by
  induction n with
  | zero =>
    have inside := List.length_pos_iff.mpr some_
    rw [tape_inside inside]
    exact List.getElem_mem inside
  | succ n ih =>
    by_cases inside : n + 1 < w.length
    · rw [tape_inside inside]
      exact List.getElem_mem inside
    · rw [tape_again (Nat.le_of_not_lt inside)]
      exact ih

theorem spelled_succ (t : Nat → α) : spelled t k (n + 1) = spelled t k n ++ [t (k + n)] := by
  induction n generalizing k with
  | zero => rfl
  | succ n ih =>
    have next := ih (k := k + 1)
    rw [spelled, next, Nat.add_assoc, Nat.add_comm 1 n]
    rfl

theorem spelled_tape (fits : k + n ≤ w.length) : spelled (tape w g) k n = (w.drop k).take n := by
  induction n generalizing k with
  | zero => rfl
  | succ n ih =>
    have inside : k < w.length := by omega
    rw [spelled, ih (by omega), tape_inside inside, List.drop_eq_getElem_cons inside, List.take_succ_cons]

theorem getElem?_spelled (t : Nat → α) {i : Nat} (inside : i < n) : (spelled t k n)[i]? = some (t (k + i)) := by
  induction n generalizing k i with
  | zero => exact absurd inside (Nat.not_lt_zero i)
  | succ n ih =>
    cases i with
    | zero => rfl
    | succ i =>
      rw [spelled, List.getElem?_cons_succ, ih (by omega), Nat.add_assoc, Nat.add_comm 1 i]

variable {o : List α}

theorem spelled_front (front : o <+: w) : spelled (tape w g) 0 o.length = o := by
  have size := front.length_le
  rw [spelled_tape (by omega)]
  exact (List.prefix_iff_eq_take.mp front).symm

theorem spelled_iff (long : 2 ≤ o.length) (differ : o.IsChain (· ≠ ·)) :
    spelled (tape w g) 0 o.length = o ↔ o <+: w := by
  constructor
  · intro same
    by_cases fits : o.length ≤ w.length
    · rw [spelled_tape (by omega)] at same
      rw [← same]
      exact List.take_prefix _ _
    · have second : w.length - 1 + 1 < o.length := by omega
      have apart := List.isChain_iff_getElem.mp differ (w.length - 1) second
      have left := getElem?_spelled (tape w g) (k := 0) (n := o.length) (i := w.length - 1) (by omega)
      have right := getElem?_spelled (tape w g) (k := 0) second
      rw [same, List.getElem?_eq_getElem (by omega), Nat.zero_add] at left right
      rw [tape_again (by omega)] at right
      exact absurd ((Option.some.inj left).trans (Option.some.inj right).symm) apart
  · exact spelled_front

theorem spelled_inside {a b : α} (differ : a ≠ b) (same : spelled (tape w g) k (o.length + 2) = o ++ [a, b]) :
    k + (o.length + 2) ≤ w.length := by
  by_cases fits : k + (o.length + 2) ≤ w.length
  · exact fits
  · have left := getElem?_spelled (tape w g) (k := k) (n := o.length + 2) (i := o.length) (by omega)
    have right := getElem?_spelled (tape w g) (k := k) (n := o.length + 2) (i := o.length + 1) (by omega)
    rw [same, List.getElem?_append_right (by omega)] at left right
    rw [← Nat.add_assoc, tape_again (by omega)] at right
    simp only [Nat.sub_self, Nat.add_sub_cancel_left, List.getElem?_cons_zero, List.getElem?_cons_succ,
      Option.some.injEq] at left right
    exact absurd (left.trans right.symm) differ

theorem infix_of_spelled {a b : α} (differ : a ≠ b)
    (same : spelled (tape w g) (k + n) (o.length + 2) = o ++ [a, b]) : o ++ [a, b] <:+: w.drop k := by
  have fits := spelled_inside differ same
  rw [spelled_tape fits] at same
  rw [← same, ← List.drop_drop]
  exact (List.take_prefix _ _).isInfix.trans (List.drop_suffix _ _).isInfix

theorem spelled_of_infix (inside : o <:+: w.drop k) (some_ : o ≠ []) :
    ∃ n, spelled (tape w g) (k + n) o.length = o := by
  obtain ⟨front, rest, same⟩ := inside
  have total := congrArg List.length same
  have positive := List.length_pos_iff.mpr some_
  rw [List.length_append, List.length_append, List.length_drop] at total
  refine ⟨front.length, ?_⟩
  rw [spelled_tape (by omega), ← List.drop_drop, ← same, List.append_assoc, List.drop_left, List.take_left]

theorem search_iff (p : α → Bool) (some_ : w ≠ []) (before : ∀ b ∈ w.take k, p b = false) :
    (∃ n, p (tape w g (k + n)) = true) ↔ ∃ b ∈ w.drop k, p b = true := by
  constructor
  · rintro ⟨n, found⟩
    have member : tape w g (k + n) ∈ w.take k ++ w.drop k := by
      rw [List.take_append_drop]
      exact tape_mem some_
    rcases List.mem_append.mp member with early | late
    · rw [before _ early] at found
      exact absurd found Bool.false_ne_true
    · exact ⟨_, late, found⟩
  · rintro ⟨b, member, found⟩
    obtain ⟨n, inside, rfl⟩ := List.mem_iff_getElem.mp member
    rw [List.length_drop] at inside
    refine ⟨n, ?_⟩
    rw [tape_inside (by omega)]
    rw [List.getElem_drop] at found
    exact found

theorem search_first (p : α → Bool) (inside : ∃ b ∈ w.drop k, p b = true) :
    ∃ n, k + n < w.length ∧ p (tape w g (k + n)) = true ∧ (∀ m < n, ¬ p (tape w g (k + m)) = true) ∧
      spelled (tape w g) k n = (w.drop k).takeWhile fun b => !p b := by
  have bound := List.findIdx_lt_length_of_exists inside
  rw [List.length_drop] at bound
  refine ⟨(w.drop k).findIdx p, by omega, ?_, ?_, ?_⟩
  · have found := List.findIdx_getElem (w := List.findIdx_lt_length_of_exists inside)
    rw [List.getElem_drop] at found
    rw [tape_inside (by omega)]
    exact found
  · intro m before found
    have missing := List.not_of_lt_findIdx before
    rw [tape_inside (by omega)] at found
    rw [List.getElem_drop, found] at missing
    exact absurd missing (by decide)
  · rw [spelled_tape (by omega), List.takeWhile_eq_take_findIdx_not]
    simp

end TFCommon.Tape
