import Mathlib.Data.BitVec

/-! Words of `n` bytes and their representation in memory, the least significant byte first. -/
namespace TFCommon.Words

variable {n i m : Nat}

def ofBytes (n : Nat) (bytes : Vector (BitVec 8) n) : BitVec (8 * n) :=
  (BitVec.ofBoolListLE (List.ofFn fun k : Fin (8 * n) => (bytes.get ⟨k / 8, by omega⟩).getLsbD (k % 8))).cast (by simp)

def toBytes (n : Nat) (w : BitVec (8 * n)) : Vector (BitVec 8) n := Vector.ofFn fun i => w.extractLsb' (8 * i) 8

def byteSwap (n : Nat) (w : BitVec (8 * n)) : BitVec (8 * n) := ofBytes n (toBytes n w).reverse

theorem getLsbD_ofBytes (bytes : Vector (BitVec 8) n) (inside : i < n) (bit : m < 8) :
    (ofBytes n bytes).getLsbD (8 * i + m) = bytes[i].getLsbD m := by
  have within : 8 * i + m < 8 * n := by omega
  have quot : (8 * i + m) / 8 = i := by omega
  have rest : (8 * i + m) % 8 = m := by omega
  rw [ofBytes, BitVec.getLsbD_cast, BitVec.getLsbD_ofBoolListLE, List.getD_eq_getElem?_getD, List.getElem?_ofFn,
    dif_pos within]
  simp [quot, rest, Vector.get]

theorem getLsbD_toBytes (w : BitVec (8 * n)) (inside : i < n) (bit : m < 8) :
    (toBytes n w)[i].getLsbD m = w.getLsbD (8 * i + m) := by
  simp [toBytes, bit]

theorem eq_of_bits {v w : BitVec (8 * n)}
    (same : ∀ i m, i < n → m < 8 → v.getLsbD (8 * i + m) = w.getLsbD (8 * i + m)) : v = w := by
  apply BitVec.eq_of_getLsbD_eq
  intro k inside
  have split : k = 8 * (k / 8) + k % 8 := (Nat.div_add_mod k 8).symm
  rw [split]
  exact same (k / 8) (k % 8) (by omega) (Nat.mod_lt k (by decide))

@[simp]
theorem toBytes_ofBytes (bytes : Vector (BitVec 8) n) : toBytes n (ofBytes n bytes) = bytes := by
  apply Vector.ext
  intro i inside
  apply BitVec.eq_of_getLsbD_eq
  intro m bit
  rw [getLsbD_toBytes _ inside bit, getLsbD_ofBytes _ inside bit]

@[simp]
theorem ofBytes_toBytes (w : BitVec (8 * n)) : ofBytes n (toBytes n w) = w := by
  apply eq_of_bits
  intro i m inside bit
  rw [getLsbD_ofBytes _ inside bit, getLsbD_toBytes _ inside bit]

theorem toBytes_byteSwap (w : BitVec (8 * n)) : toBytes n (byteSwap n w) = (toBytes n w).reverse :=
  toBytes_ofBytes _

theorem getLsbD_byteSwap (w : BitVec (8 * n)) (inside : i < n) (bit : m < 8) :
    (byteSwap n w).getLsbD (8 * i + m) = w.getLsbD (8 * (n - 1 - i) + m) := by
  rw [byteSwap, getLsbD_ofBytes _ inside bit, Vector.getElem_reverse, getLsbD_toBytes _ (by omega) bit]

@[simp]
theorem byteSwap_byteSwap (w : BitVec (8 * n)) : byteSwap n (byteSwap n w) = w := by
  rw [byteSwap, toBytes_byteSwap, Vector.reverse_reverse, ofBytes_toBytes]

section field
variable {c w j : Nat}

theorem getLsbD_field (x : BitVec c) (inside : c * i + m < w) (bit : m < c) :
    (x.setWidth w <<< (c * j)).getLsbD (c * i + m) = (decide (i = j) && x.getLsbD m) := by
  rcases Nat.lt_trichotomy i j with below | rfl | above
  · have low : c * i + c ≤ c * j := Nat.mul_le_mul_left c (Nat.succ_le_of_lt below)
    have before_ : c * i + m < c * j := by omega
    simp [before_, Nat.ne_of_lt below]
  · simp [inside]
  · have high : c * j + c ≤ c * i := Nat.mul_le_mul_left c (Nat.succ_le_of_lt above)
    have past : x.getLsbD (c * i + m - c * j) = false := BitVec.getLsbD_of_ge x _ (by omega)
    simp [past, Nat.ne_of_gt above]

theorem and_field (x : BitVec c) : (x.setWidth w <<< j) &&& ((BitVec.allOnes c).setWidth w <<< j) = x.setWidth w <<< j := by
  apply BitVec.eq_of_getLsbD_eq
  intro k inside
  rw [BitVec.getLsbD_and, BitVec.getLsbD_shiftLeft, BitVec.getLsbD_shiftLeft, BitVec.getLsbD_setWidth, BitVec.getLsbD_setWidth,
    BitVec.getLsbD_allOnes]
  by_cases field : k - j < c
  · cases decide (k < w) && !decide (k < j)
    · rfl
    · simp [field, Bool.and_comm]
  · have past : x.getLsbD (k - j) = false := BitVec.getLsbD_of_ge x _ (Nat.le_of_not_lt field)
    simp [past]

end field

end TFCommon.Words
