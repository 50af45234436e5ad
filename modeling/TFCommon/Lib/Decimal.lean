import Mathlib.Data.List.TakeWhile
import Mathlib.Data.Nat.Digits.Lemmas

/-! Decimal numbers as text: a number printed with leading zeros, and `strtoul` with base 10 on 64-bit words. -/
namespace TFCommon.Decimal

def isSpace (b : UInt8) : Bool := decide (b.toNat = 32 ∨ (9 ≤ b.toNat ∧ b.toNat ≤ 13))

def isDigit (b : UInt8) : Bool := decide (48 ≤ b.toNat ∧ b.toNat ≤ 57)

def digitsValue (digits : List UInt8) : Nat := digits.foldl (fun value b => value * 10 + (b.toNat - 48)) 0

def sign : List UInt8 → Bool × List UInt8
  | [] => (false, [])
  | b :: rest => if b = 45 then (true, rest) else if b = 43 then (false, rest) else (false, b :: rest)

def strtoul (s : List UInt8) : Nat :=
  let (negative, s) := sign (s.dropWhile isSpace)
  let value := digitsValue (s.takeWhile isDigit)
  if 2 ^ 64 ≤ value then 2 ^ 64 - 1
  else if negative then (2 ^ 64 - value) % 2 ^ 64
  else value

def padded (width n : Nat) : List UInt8 :=
  let digits := (Nat.digits 10 n).reverse.map fun d => UInt8.ofNat (48 + d)
  List.replicate (width - digits.length) 48 ++ digits

variable {width n : Nat}

theorem length_padded (fits : n < 10 ^ width) : (padded width n).length = width := by
  have short : (Nat.digits 10 n).length ≤ width := (Nat.digits_length_le_iff (by decide) n).mpr fits
  simp [padded]
  omega

theorem digit_byte {d : Nat} (small : d < 10) : (UInt8.ofNat (48 + d)).toNat = 48 + d := by
  rw [UInt8.toNat_ofNat']
  omega

theorem isDigit_padded : ∀ b ∈ padded width n, isDigit b = true := by
  intro b member
  rcases List.mem_append.mp member with zero | digit
  · rw [List.eq_of_mem_replicate zero]
    decide
  · obtain ⟨d, inside, rfl⟩ := List.mem_map.mp digit
    have small : d < 10 := Nat.digits_lt_base (by decide) (List.mem_reverse.mp inside)
    interval_cases d <;> decide

theorem digitsValue_append (zeros : Nat) (digits : List UInt8) :
    digitsValue (List.replicate zeros 48 ++ digits) = digitsValue digits := by
  induction zeros with
  | zero => rfl
  | succ zeros ih => exact ih

theorem digitsValue_padded : digitsValue (padded width n) = n := by
  have folded : ∀ digits : List Nat, (∀ d ∈ digits, d < 10) →
      digitsValue (digits.reverse.map fun d => UInt8.ofNat (48 + d)) = Nat.ofDigits 10 digits := by
    intro digits small
    induction digits with
    | nil => rfl
    | cons d rest ih =>
      have value := ih fun e inside => small e (List.mem_cons_of_mem d inside)
      unfold digitsValue at value ⊢
      rw [List.reverse_cons, List.map_append, List.foldl_append, value, List.map_singleton, List.foldl_cons, List.foldl_nil,
        digit_byte (small d List.mem_cons_self), Nat.ofDigits_cons]
      omega
  rw [padded, digitsValue_append, folded _ fun d inside => Nat.digits_lt_base (by decide) inside, Nat.ofDigits_digits]

theorem sign_digits {digits : List UInt8} (all : ∀ b ∈ digits, isDigit b = true) :
    sign (digits.dropWhile isSpace) = (false, digits) := by
  cases digits with
  | nil => rfl
  | cons b rest =>
    have range : 48 ≤ b.toNat ∧ b.toNat ≤ 57 := of_decide_eq_true (all b List.mem_cons_self)
    have visible : isSpace b = false := decide_eq_false (by omega)
    have minus : b ≠ 45 := by
      rintro rfl
      exact absurd range (by decide)
    have plus : b ≠ 43 := by
      rintro rfl
      exact absurd range (by decide)
    rw [List.dropWhile_cons_of_neg (by simp [visible]), sign, if_neg minus, if_neg plus]

theorem strtoul_padded (small : n < 2 ^ 64) : strtoul (padded width n) = n := by
  have all : ∀ b ∈ padded width n, isDigit b = true := isDigit_padded
  have digits : (padded width n).takeWhile isDigit = padded width n := List.takeWhile_eq_self_iff.mpr all
  simp only [strtoul, sign_digits all, digits, digitsValue_padded]
  rw [if_neg (Nat.not_le.mpr small)]
  rfl

end TFCommon.Decimal
