import Mathlib.Data.List.Basic

/-! Numbers and bytes as text: digits of a base up to 16, bytes as pairs of hexadecimal digits, and the readers that take
them back. -/
namespace TFCommon.Radix

def digitValue (c : Char) : Option Nat :=
  if '0' ≤ c ∧ c ≤ '9' then some (c.toNat - 48)
  else if 'a' ≤ c ∧ c ≤ 'f' then some (c.toNat - 87)
  else if 'A' ≤ c ∧ c ≤ 'F' then some (c.toNat - 55)
  else none

def push (b value : Nat) (c : Char) : Option Nat := do
  let d ← digitValue c
  if d < b then some (b * value + d) else none

def read (b : Nat) (text : List Char) : Option Nat := if text = [] then none else text.foldlM (push b) 0

def isHex (c : Char) : Bool := (digitValue c).isSome

theorem digitValue_digitChar {d : Nat} (small : d < 16) : digitValue (Nat.digitChar d) = some d := by
  have all : ∀ d < 16, digitValue (Nat.digitChar d) = some d := by decide
  exact all d small

theorem push_digitChar {b d value : Nat} (narrow : b ≤ 16) (small : d < b) :
    push b value (Nat.digitChar d) = some (b * value + d) := by
  rw [push, digitValue_digitChar (Nat.lt_of_lt_of_le small narrow)]
  exact if_pos small

theorem foldlM_toDigits {b : Nat} (wide : 1 < b) (narrow : b ≤ 16) (n : Nat) :
    (Nat.toDigits b n).foldlM (push b) 0 = some n := by
  induction n using Nat.base_induction b wide with
  | single d small =>
    rw [Nat.toDigits_of_lt_base small, List.foldlM_cons, push_digitChar narrow small, Nat.mul_zero, Nat.zero_add]
    rfl
  | digit n d small positive ih =>
    rw [← Nat.toDigits_append_toDigits wide positive small, List.foldlM_append, ih, Nat.toDigits_of_lt_base small]
    change (push b n (Nat.digitChar d)).bind some = _
    rw [push_digitChar narrow small]
    rfl

theorem read_toDigits {b : Nat} (wide : 1 < b) (narrow : b ≤ 16) (n : Nat) : read b (Nat.toDigits b n) = some n := by
  rw [read, if_neg Nat.toDigits_ne_nil, foldlM_toDigits wide narrow]

theorem exists_digit {b : Nat} {c : Char} (wide : 1 < b) (n : Nat) (inside : c ∈ Nat.toDigits b n) :
    ∃ d < b, c = Nat.digitChar d := by
  induction n using Nat.base_induction b wide with
  | single d small =>
    rw [Nat.toDigits_of_lt_base small] at inside
    exact ⟨d, small, List.mem_singleton.mp inside⟩
  | digit n d small positive ih =>
    rw [← Nat.toDigits_append_toDigits wide positive small, Nat.toDigits_of_lt_base small] at inside
    rcases List.mem_append.mp inside with first | last
    · exact ih first
    · exact ⟨d, small, List.mem_singleton.mp last⟩

theorem isHex_digitChar {d : Nat} (small : d < 16) : isHex (Nat.digitChar d) = true := by
  rw [isHex, digitValue_digitChar small]
  rfl

theorem isHex_toDigits {n : Nat} {c : Char} (inside : c ∈ Nat.toDigits 16 n) : isHex c = true := by
  obtain ⟨d, small, rfl⟩ := exists_digit (by decide) n inside
  exact isHex_digitChar small

/-! ### Bytes -/

abbrev Byte := BitVec 8

def byte (b : Byte) : List Char := [Nat.digitChar (b.toNat / 16), Nat.digitChar (b.toNat % 16)]

def bytes (bs : List Byte) : List Char := bs.flatMap byte

def readBytes : List Char → Option (List Byte)
  | [] => some []
  | [_] => none
  | h :: l :: rest => do
    let high ← digitValue h
    let low ← digitValue l
    let bs ← readBytes rest
    return BitVec.ofNat 8 (16 * high + low) :: bs

theorem readBytes_bytes (bs : List Byte) : readBytes (bytes bs) = some bs := by
  induction bs with
  | nil => rfl
  | cons b bs ih =>
    have high : b.toNat / 16 < 16 := by omega
    have low : b.toNat % 16 < 16 := Nat.mod_lt _ (by decide)
    change readBytes (_ :: _ :: bytes bs) = _
    rw [readBytes, digitValue_digitChar high, digitValue_digitChar low, ih]
    simp [Nat.div_add_mod]

theorem bytes_append (as bs : List Byte) : bytes (as ++ bs) = bytes as ++ bytes bs := List.flatMap_append

theorem length_bytes (bs : List Byte) : (bytes bs).length = 2 * bs.length := by
  induction bs with
  | nil => rfl
  | cons b bs ih =>
    change (bytes bs).length + 1 + 1 = _
    rw [List.length_cons]
    omega

theorem isHex_bytes (bs : List Byte) : ∀ c ∈ bytes bs, isHex c = true := by
  intro c inside
  obtain ⟨b, _, digit⟩ := List.mem_flatMap.mp inside
  rcases List.mem_cons.mp digit with rfl | last
  · exact isHex_digitChar (by omega)
  · rw [List.mem_singleton.mp last]
    exact isHex_digitChar (Nat.mod_lt _ (by decide))

end TFCommon.Radix
