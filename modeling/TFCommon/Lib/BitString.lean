import Mathlib.Data.List.Lex
import Mathlib.Order.BooleanAlgebra.Basic

/-! Bit strings with the order of a binary trie: bitwise lexicographic, `false` before `true`,
and a proper prefix before its extensions. This is `<` on `List Bool`. -/
namespace TFCommon.BitString

def bit (k : List Bool) (i : Nat) : Bool := k.getD i false

def lcp : List Bool → List Bool → Nat
  | a :: as, b :: bs => if a = b then lcp as bs + 1 else 0
  | _, _ => 0

@[simp] theorem bit_nil (i : Nat) : bit [] i = false := rfl
@[simp] theorem bit_cons_zero (b : Bool) (bs : List Bool) : bit (b :: bs) 0 = b := rfl
@[simp] theorem bit_cons_succ (b : Bool) (bs : List Bool) (i : Nat) : bit (b :: bs) (i + 1) = bit bs i := rfl

theorem bit_past {k : List Bool} {i : Nat} (past : k.length ≤ i) : bit k i = false := by
  simp [bit, List.getElem?_eq_none past]

theorem bit_append_length (w : List Bool) (b : Bool) (rest : List Bool) : bit (w ++ b :: rest) w.length = b := by
  induction w with
  | nil => rfl
  | cons a w ih => simpa using ih

variable {w k a b : List Bool}

theorem bit_prefix_eq (h : w <+: k) {i : Nat} (inside : i < w.length) : bit w i = bit k i := by
  obtain ⟨rest, rfl⟩ := h
  simp [bit, List.getElem?_append_left inside]

theorem turn_bit {b : Bool} (h : w ++ [b] <+: k) : bit k w.length = b := by
  obtain ⟨rest, rfl⟩ := h
  simpa using bit_append_length w b rest

theorem prefix_of_turn {b : Bool} (h : w ++ [b] <+: k) : w <+: k :=
  (List.prefix_append w [b]).trans h

theorem turn_length {b : Bool} (h : w ++ [b] <+: k) : w.length < k.length := by
  have longer := h.length_le
  rw [List.length_append] at longer
  exact longer

theorem turn_unique {b c : Bool} (hb : w ++ [b] <+: k) (hc : w ++ [c] <+: k) : b = c :=
  (turn_bit hb).symm.trans (turn_bit hc)

theorem turn_of_bit (h : w <+: k) (longer : w.length < k.length) :
    w ++ [bit k w.length] <+: k := by
  obtain ⟨rest, rfl⟩ := h
  cases rest with
  | nil => simp at longer
  | cons b rest =>
    rw [bit_append_length]
    exact ⟨rest, by simp⟩

theorem prefix_lt (h : a <+: b) (ne : a ≠ b) : a < b := by
  obtain ⟨rest, rfl⟩ := h
  cases rest with
  | nil => simp at ne
  | cons c rest =>
    induction a with
    | nil => exact List.nil_lt_cons c rest
    | cons x a ih => exact List.cons_lt_cons_self.mpr (ih (by simp))

theorem lt_of_turn {b : Bool} (h : w ++ [b] <+: k) : w < k :=
  prefix_lt (prefix_of_turn h) fun same => absurd (turn_length h) (by simp [same])

theorem lt_of_branch (ha : w ++ [false] <+: a) (hb : w ++ [true] <+: b) : a < b := by
  obtain ⟨ra, rfl⟩ := ha
  obtain ⟨rb, rfl⟩ := hb
  induction w with
  | nil => exact List.cons_lt_cons_iff.mpr (.inl Bool.false_lt_true)
  | cons x w ih => exact List.cons_lt_cons_self.mpr ih

theorem le_lcp_iff {n : Nat} : n ≤ lcp a b ↔ n ≤ a.length ∧ n ≤ b.length ∧ a.take n = b.take n := by
  induction a generalizing b n with
  | nil => simp +contextual [lcp]
  | cons x a ih =>
    cases b with
    | nil => simp +contextual [lcp]
    | cons y b =>
      cases n with
      | zero => simp
      | succ n =>
        by_cases same : x = y
        · simp [lcp, same, ih]
        · simp [lcp, same]

theorem lcp_le_left (a b : List Bool) : lcp a b ≤ a.length := (le_lcp_iff.mp (Nat.le_refl _)).1

theorem lcp_comm (a b : List Bool) : lcp a b = lcp b a := by
  induction a generalizing b with
  | nil => cases b <;> rfl
  | cons x a ih =>
    cases b with
    | nil => rfl
    | cons y b => simp only [lcp, ih b, eq_comm]

theorem lcp_le_right (a b : List Bool) : lcp a b ≤ b.length := lcp_comm a b ▸ lcp_le_left b a

theorem le_lcp (ha : w <+: a) (hb : w <+: b) : w.length ≤ lcp a b :=
  le_lcp_iff.mpr ⟨ha.length_le, hb.length_le, (List.prefix_iff_eq_take.mp ha).symm.trans (List.prefix_iff_eq_take.mp hb)⟩

theorem prefix_of_le_lcp (h : w <+: a) (shared : w.length ≤ lcp k a) : w <+: k := by
  rw [List.prefix_iff_eq_take, (le_lcp_iff.mp shared).2.2]
  exact List.prefix_iff_eq_take.mp h

theorem lcp_prefix_left (h : a <+: b) : lcp a b = a.length :=
  Nat.le_antisymm (lcp_le_left a b) (le_lcp (List.prefix_refl a) h)

theorem prefix_iff_lcp : a <+: b ↔ lcp a b = a.length :=
  ⟨lcp_prefix_left, fun whole => prefix_of_le_lcp (List.prefix_refl a) (by rw [lcp_comm, whole])⟩

theorem bit_eq_of_lt_lcp {i : Nat} (h : i < lcp a b) : bit a i = bit b i := by
  obtain ⟨left, right, same⟩ := le_lcp_iff.mp h
  rw [← bit_prefix_eq (List.take_prefix (i + 1) a) (by rw [List.length_take]; omega), same]
  exact bit_prefix_eq (List.take_prefix (i + 1) b) (by rw [List.length_take]; omega)

theorem lcp_of_branch {c : Bool} (ha : w ++ [c] <+: a) (hb : w ++ [!c] <+: b) :
    lcp a b = w.length := by
  refine Nat.le_antisymm (Nat.le_of_not_lt fun more => ?_) (le_lcp (prefix_of_turn ha) (prefix_of_turn hb))
  have same := bit_eq_of_lt_lcp more
  rw [turn_bit ha, turn_bit hb] at same
  simp at same

theorem lcp_unique {n : Nat} (left : n ≤ a.length) (right : n ≤ b.length)
    (agree : ∀ i < n, bit a i = bit b i) (stop : n = a.length ∨ n = b.length ∨ bit a n ≠ bit b n) :
    lcp a b = n := by
  induction a generalizing b n with
  | nil => exact (Nat.le_zero.mp left).symm
  | cons x a ih =>
    cases b with
    | nil => exact (Nat.le_zero.mp right).symm
    | cons y b =>
      cases n with
      | zero =>
        have differs : x ≠ y := by simpa using stop
        simp [lcp, differs]
      | succ n =>
        have same : x = y := agree 0 (Nat.succ_pos n)
        have rest := ih (by simpa using left) (by simpa using right)
          (fun i hi => agree (i + 1) (Nat.succ_lt_succ hi)) (by simpa using stop)
        simp [lcp, same, rest]

theorem lcp_mono (h : w <+: a) : lcp k w ≤ lcp k a := by
  obtain ⟨left, right, same⟩ := le_lcp_iff.mp (Nat.le_refl (lcp k w))
  obtain ⟨rest, rfl⟩ := h
  refine le_lcp_iff.mpr ⟨left, Nat.le_trans right (by simp), ?_⟩
  rw [List.take_append_of_le_length right, same]

theorem eq_iff_lcp : a = b ↔ lcp a b = a.length ∧ a.length = b.length := by
  constructor
  · rintro rfl
    exact ⟨lcp_prefix_left (List.prefix_refl a), rfl⟩
  · rintro ⟨full, length⟩
    exact (prefix_iff_lcp.mpr full).eq_of_length length

theorem turn_le_lcp {b : Bool} (hk : w ++ [b] <+: k) (ha : w ++ [b] <+: a) : w.length < lcp k a := by
  have both := le_lcp hk ha
  rw [List.length_append] at both
  exact both

theorem lcp_parts {k a : List Bool} (inK : lcp k a < k.length) (inA : lcp k a < a.length) :
    k.take (lcp k a) ++ [bit k (lcp k a)] <+: k ∧ k.take (lcp k a) ++ [!bit k (lcp k a)] <+: a := by
  have same := (le_lcp_iff.mp (Nat.le_refl (lcp k a))).2.2
  have length : (k.take (lcp k a)).length = lcp k a := List.length_take_of_le (Nat.le_of_lt inK)
  have left := turn_of_bit (List.take_prefix (lcp k a) k) (by omega)
  have right := turn_of_bit (List.take_prefix (lcp k a) a) (by rw [← same]; omega)
  rw [← same] at right
  rw [length] at left right
  refine ⟨left, ?_⟩
  by_cases agree : bit a (lcp k a) = bit k (lcp k a)
  · rw [agree] at right
    exact absurd (turn_le_lcp left right) (by omega)
  · rwa [Bool.eq_not_of_ne agree] at right

theorem lcp_extend (h : w <+: a) (short : lcp k w < w.length) : lcp k a = lcp k w := by
  rcases Nat.lt_or_ge (lcp k w) k.length with inside | spent
  · obtain ⟨inK, inW⟩ := lcp_parts inside short
    rw [lcp_of_branch inK (inW.trans h), List.length_take_of_le (Nat.le_of_lt inside)]
  · exact Nat.le_antisymm (Nat.le_trans (lcp_le_left k a) spent) (lcp_mono h)

theorem lcp_shorten (h : w <+: a) (short : lcp k a < w.length) : lcp k w = lcp k a :=
  (lcp_extend h (Nat.lt_of_le_of_lt (lcp_mono h) short)).symm

theorem lcp_sibling {c : Bool} (h : w ++ [c] <+: a) (side : bit k w.length ≠ c) : lcp k a ≤ lcp k w := by
  by_contra more
  rcases Nat.lt_or_ge (lcp k w) w.length with short | whole
  · exact more (Nat.le_of_eq (lcp_extend (prefix_of_turn h) short))
  · have agree : bit k w.length = bit a w.length := bit_eq_of_lt_lcp (by omega)
    exact side (agree.trans (turn_bit h))

theorem lcp_short (h : w <+: a) (short : k.length ≤ w.length) : lcp k a ≤ lcp k w := by
  rcases Nat.lt_or_ge (lcp k w) w.length with less | whole
  · exact Nat.le_of_eq (lcp_extend h less)
  · exact Nat.le_trans (lcp_le_left k a) (Nat.le_trans short whole)

end TFCommon.BitString
