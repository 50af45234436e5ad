import Mathlib.Data.Nat.Bitwise
import Mathlib.Data.Finset.Card
import Mathlib.Data.Finset.Range
import Mathlib.Tactic.Ring

/-! Searches inside one 64-bit block, as in the helpers at the head of `bitset.cc`.
Positions returned by the helpers count from 1, and 0 reports that there is none. -/
namespace TFCommon.BitSet

abbrev Block := BitVec 64

def IsFirst (p : Nat → Bool) (n : Nat) : Prop :=
  (n = 0 ∧ ∀ i, p i = false) ∨ ∃ i, n = i + 1 ∧ p i = true ∧ ∀ j < i, p j = false

def IsLast (p : Nat → Bool) (n : Nat) : Prop :=
  (n = 0 ∧ ∀ i, p i = false) ∨ ∃ i, n = i + 1 ∧ p i = true ∧ ∀ j, i < j → p j = false

def ffs (value : BitVec 32) : Nat := if value = 0#32 then 0 else value.ctz.toNat + 1

def findFirstSet64 (value : Block) : Nat :=
  let lower := value.setWidth 32
  if 0 < ffs lower then ffs lower
  else
    let upper := (value >>> 32).setWidth 32
    if 0 < ffs upper then 32 + ffs upper else 0

def findFirstClear64 (value : Block) : Nat := findFirstSet64 (~~~value)

def flsStep (mask : BitVec 32) (k : Nat) (s : BitVec 32 × Nat) : BitVec 32 × Nat :=
  if s.1 &&& mask = 0 then (s.1 <<< k, s.2 - k) else s

def findLastSet32 (value : BitVec 32) : Nat :=
  if value = 0 then 0
  else
    let s := flsStep 0xFFFF0000 16 (value, 32)
    let s := flsStep 0xFF000000 8 s
    let s := flsStep 0xF0000000 4 s
    let s := flsStep 0xC0000000 2 s
    (flsStep 0x80000000 1 s).2

def findLastSet64 (value : Block) : Nat :=
  let upper := (value >>> 32).setWidth 32
  if 0 < findLastSet32 upper then 32 + findLastSet32 upper
  else
    let lower := value.setWidth 32
    if 0 < findLastSet32 lower then findLastSet32 lower else 0

def numBitsSetLoop : Nat → Block → Nat → Nat
  | 0, _, count => count
  | turns + 1, value, count =>
    if value ≠ 0 then numBitsSetLoop turns (value &&& (value - 1)) (count + 1) else count

def numBitsSet (value : Block) : Nat := numBitsSetLoop 64 value 0

theorem ffs_spec (value : BitVec 32) : IsFirst value.getLsbD (ffs value) := by
  by_cases zero : value = 0#32
  · left
    subst zero
    exact ⟨rfl, fun i => BitVec.getLsbD_zero⟩
  · right
    refine ⟨value.ctz.toNat, by simp [ffs, zero], BitVec.getLsbD_true_ctz_of_ne_zero zero, ?_⟩
    intro j below
    exact BitVec.getLsbD_false_of_lt_ctz below

theorem lower_bit (value : Block) (i : Nat) :
    (value.setWidth 32).getLsbD i = (decide (i < 32) && value.getLsbD i) := by
  simp

theorem upper_bit (value : Block) (i : Nat) :
    ((value >>> 32).setWidth 32).getLsbD i = (decide (i < 32) && value.getLsbD (32 + i)) := by
  simp

theorem half_bit (value : Block) (j : Nat) : value.getLsbD j =
    if j < 32 then (value.setWidth 32).getLsbD j else ((value >>> 32).setWidth 32).getLsbD (j - 32) := by
  split
  · rename_i low
    simp [low]
  · have shift : 32 + (j - 32) = j := by omega
    rw [upper_bit, shift]
    by_cases top : j < 64
    · have range : j - 32 < 32 := by omega
      simp [range]
    · rw [BitVec.getLsbD_of_ge value j (by omega), Bool.and_false]

theorem findFirstSet64_spec (value : Block) : IsFirst value.getLsbD (findFirstSet64 value) := by
  have low := ffs_spec (value.setWidth 32)
  have high := ffs_spec ((value >>> 32).setWidth 32)
  unfold findFirstSet64
  rcases low with ⟨lowZero, lowNone⟩ | ⟨i, lowEq, lowHit, lowMin⟩
  · rcases high with ⟨highZero, highNone⟩ | ⟨i, highEq, highHit, highMin⟩
    · refine .inl ⟨by simp [lowZero, highZero], fun j => ?_⟩
      rw [half_bit]
      split
      · exact lowNone j
      · exact highNone (j - 32)
    · simp only [upper_bit, Bool.and_eq_true] at highHit
      refine .inr ⟨32 + i, by simp [lowZero, highEq]; omega, highHit.2, fun j below => ?_⟩
      rw [half_bit]
      split
      · exact lowNone j
      · exact highMin (j - 32) (by omega)
  · simp only [lower_bit, Bool.and_eq_true, decide_eq_true_eq] at lowHit
    refine .inr ⟨i, by simp [lowEq], lowHit.2, fun j below => ?_⟩
    rw [half_bit, if_pos (by omega)]
    exact lowMin j below

theorem findFirstClear64_spec (value : Block) :
    IsFirst (fun i => decide (i < 64) && !value.getLsbD i) (findFirstClear64 value) := by
  have h := findFirstSet64_spec (~~~value)
  have bits : (~~~value).getLsbD = fun i => decide (i < 64) && !value.getLsbD i := by
    funext i
    exact BitVec.getLsbD_not
  rwa [bits] at h

/-- The halving search keeps the scaled value's top `k` bits non-zero. -/
structure FlsInv (value : BitVec 32) (k : Nat) (s : BitVec 32 × Nat) : Prop where
  scaled : s.1.toNat = value.toNat * 2 ^ (32 - s.2)
  bound : value.toNat < 2 ^ s.2
  room : k ≤ s.2
  limit : s.2 ≤ 32
  top : 2 ^ (32 - k) ≤ s.1.toNat

theorem mask_clear_iff (mask : BitVec 32) (k : Nat) (x : BitVec 32)
    (bits : ∀ i < 32, mask.getLsbD i = decide (32 - k ≤ i)) :
    x &&& mask = 0 ↔ x.toNat < 2 ^ (32 - k) := by
  constructor
  · intro clear
    apply Nat.lt_pow_two_of_testBit
    intro i hi
    by_cases range : i < 32
    · have h := congrArg (fun y => y.getLsbD i) clear
      rw [BitVec.testBit_toNat]
      simpa [bits i range, hi] using h
    · exact Nat.testBit_lt_two_pow (Nat.lt_of_lt_of_le x.isLt (Nat.pow_le_pow_right (by decide) (by omega)))
  · intro small
    apply BitVec.eq_of_getLsbD_eq
    intro i range
    simp only [BitVec.getLsbD_and, bits i range]
    by_cases high : 32 - k ≤ i
    · have zero : x.getLsbD i = false :=
        Nat.testBit_lt_two_pow (Nat.lt_of_lt_of_le small (Nat.pow_le_pow_right (by decide) high))
      simp [zero]
    · simp [high]

theorem flsStep_inv (value mask : BitVec 32) (k : Nat) (s : BitVec 32 × Nat)
    (bits : ∀ i < 32, mask.getLsbD i = decide (32 - k ≤ i)) (width : 2 * k ≤ 32)
    (inv : FlsInv value (2 * k) s) : FlsInv value k (flsStep mask k s) := by
  obtain ⟨x, bit⟩ := s
  have scaled : x.toNat = value.toNat * 2 ^ (32 - bit) := inv.scaled
  have room : 2 * k ≤ bit := inv.room
  have limit : bit ≤ 32 := inv.limit
  have top : 2 ^ (32 - 2 * k) ≤ x.toNat := inv.top
  unfold flsStep
  split
  · rename_i clear
    have small : x.toNat < 2 ^ (32 - k) := (mask_clear_iff mask k x bits).mp clear
    have fits : x.toNat * 2 ^ k < 2 ^ 32 := by
      calc x.toNat * 2 ^ k < 2 ^ (32 - k) * 2 ^ k := Nat.mul_lt_mul_of_pos_right small (Nat.two_pow_pos k)
        _ = 2 ^ 32 := by rw [← Nat.pow_add]; congr 1; omega
    have shifted : (x <<< k).toNat = x.toNat * 2 ^ k := by
      rw [BitVec.toNat_shiftLeft, Nat.shiftLeft_eq, Nat.mod_eq_of_lt fits]
    have split : (2 : Nat) ^ (32 - bit) * 2 ^ k = 2 ^ (32 - (bit - k)) := by
      rw [← Nat.pow_add]; congr 1; omega
    have unscaled : value.toNat * 2 ^ (32 - bit) < 2 ^ (bit - k) * 2 ^ (32 - bit) := by
      rw [← scaled, ← Nat.pow_add]
      have : bit - k + (32 - bit) = 32 - k := by omega
      rwa [this]
    refine ⟨?_, Nat.lt_of_mul_lt_mul_right unscaled, by dsimp only; omega, by dsimp only; omega, ?_⟩
    · simp only [shifted, scaled, Nat.mul_assoc, split]
    · simp only [shifted]
      calc 2 ^ (32 - k) = 2 ^ (32 - 2 * k) * 2 ^ k := by rw [← Nat.pow_add]; congr 1; omega
        _ ≤ x.toNat * 2 ^ k := Nat.mul_le_mul_right _ top
  · rename_i some
    have large : ¬ x.toNat < 2 ^ (32 - k) := fun h => some ((mask_clear_iff mask k x bits).mpr h)
    exact ⟨scaled, inv.bound, by dsimp only; omega, limit, Nat.le_of_not_lt large⟩

theorem findLastSet32_spec (value : BitVec 32) : IsLast value.getLsbD (findLastSet32 value) := by
  by_cases zero : value = 0
  · left
    subst zero
    exact ⟨rfl, fun i => BitVec.getLsbD_zero⟩
  · have positive : 0 < value.toNat := by
      apply Nat.pos_of_ne_zero
      intro h
      exact zero (BitVec.eq_of_toNat_eq h)
    have start : FlsInv value (2 * 16) (value, 32) :=
      ⟨by simp, value.isLt, Nat.le_refl 32, Nat.le_refl 32, positive⟩
    have s16 := flsStep_inv value 0xFFFF0000 16 _ (by decide) (by decide) start
    have s8 := flsStep_inv value 0xFF000000 8 _ (by decide) (by decide) s16
    have s4 := flsStep_inv value 0xF0000000 4 _ (by decide) (by decide) s8
    have s2 := flsStep_inv value 0xC0000000 2 _ (by decide) (by decide) s4
    have s1 := flsStep_inv value 0x80000000 1 _ (by decide) (by decide) s2
    right
    unfold findLastSet32
    simp only [zero, if_false]
    generalize flsStep 0x80000000 1 (flsStep 0xC0000000 2 (flsStep 0xF0000000 4
      (flsStep 0xFF000000 8 (flsStep 0xFFFF0000 16 (value, 32))))) = s at s1
    have room := s1.room
    have limit := s1.limit
    have high : 2 ^ (s.2 - 1) ≤ value.toNat := by
      have top := s1.top
      rw [s1.scaled] at top
      have split : (2 : Nat) ^ (32 - 1) = 2 ^ (s.2 - 1) * 2 ^ (32 - s.2) := by
        rw [← Nat.pow_add]; congr 1; omega
      rw [split] at top
      exact Nat.le_of_mul_le_mul_right top (Nat.two_pow_pos _)
    refine ⟨s.2 - 1, by omega, ?_, fun j above => ?_⟩
    · have upper : value.toNat < 2 ^ (s.2 - 1 + 1) := by
        have : s.2 - 1 + 1 = s.2 := by omega
        rw [this]
        exact s1.bound
      exact Nat.testBit_of_two_pow_le_and_two_pow_add_one_gt high upper
    · exact Nat.testBit_lt_two_pow
        (Nat.lt_of_lt_of_le s1.bound (Nat.pow_le_pow_right (by decide) (by omega)))

theorem findLastSet64_spec (value : Block) : IsLast value.getLsbD (findLastSet64 value) := by
  have low := findLastSet32_spec (value.setWidth 32)
  have high := findLastSet32_spec ((value >>> 32).setWidth 32)
  unfold findLastSet64
  rcases high with ⟨highZero, highNone⟩ | ⟨i, highEq, highHit, highMax⟩
  · rcases low with ⟨lowZero, lowNone⟩ | ⟨i, lowEq, lowHit, lowMax⟩
    · refine .inl ⟨by simp [lowZero, highZero], fun j => ?_⟩
      rw [half_bit]
      split
      · exact lowNone j
      · exact highNone (j - 32)
    · simp only [lower_bit, Bool.and_eq_true] at lowHit
      refine .inr ⟨i, by simp [highZero, lowEq], lowHit.2, fun j above => ?_⟩
      rw [half_bit]
      split
      · exact lowMax j above
      · exact highNone (j - 32)
  · simp only [upper_bit, Bool.and_eq_true] at highHit
    refine .inr ⟨32 + i, by simp [highEq]; omega, highHit.2, fun j above => ?_⟩
    rw [half_bit, if_neg (by omega)]
    exact highMax (j - 32) (by omega)

def bits (value : Block) : Finset Nat := (Finset.range 64).filter (fun i => value.getLsbD i = true)

theorem mem_bits (value : Block) (i : Nat) : i ∈ bits value ↔ value.getLsbD i = true := by
  simp only [bits, Finset.mem_filter, Finset.mem_range, and_iff_right_iff_imp]
  exact fun h => BitVec.lt_of_getLsbD h

theorem sub_one_bit (value : Block) (i : Nat) (hit : value.getLsbD i = true)
    (least : ∀ j < i, value.getLsbD j = false) (j : Nat) :
    (value - 1).getLsbD j = if j < i then true else if j = i then false else value.getLsbD j := by
  have low : value.toNat % 2 ^ i = 0 := by
    apply Nat.eq_of_testBit_eq
    intro j
    rw [Nat.testBit_mod_two_pow, BitVec.testBit_toNat]
    by_cases hj : j < i
    · simpa [hj] using least j hj
    · simp [hj]
  have odd : value.toNat / 2 ^ i % 2 = 1 := by
    have h : value.toNat.testBit i = true := hit
    rw [Nat.testBit_eq_decide_div_mod_eq] at h
    exact of_decide_eq_true h
  obtain ⟨m, hm⟩ : ∃ m, value.toNat = 2 ^ i * (2 * m + 1) := by
    refine ⟨value.toNat / 2 ^ i / 2, ?_⟩
    have two := Nat.div_add_mod (value.toNat / 2 ^ i) 2
    have whole := Nat.div_add_mod value.toNat (2 ^ i)
    rw [low, Nat.add_zero] at whole
    rw [odd] at two
    rw [two, whole]
  have expand : value.toNat = 2 ^ (i + 1) * m + 2 ^ i := by rw [hm]; ring
  have less : (value - 1).toNat = 2 ^ (i + 1) * m + (2 ^ i - 1) := by
    rw [BitVec.toNat_sub]
    simp only [BitVec.toNat_ofNat, BitVec.ofNat_eq_ofNat]
    omega
  have small : 2 ^ i - 1 < 2 ^ (i + 1) := by rw [Nat.pow_succ]; omega
  change (value - 1).toNat.testBit j = _
  rw [less, Nat.testBit_two_pow_mul_add _ small]
  rcases Nat.lt_trichotomy j i with below | same | above
  · have hj : j < i + 1 := by omega
    simp [below, hj]
  · subst same
    simp
  · have h1 : ¬ j < i + 1 := by omega
    have h2 : ¬ j < i := by omega
    have h3 : j ≠ i := by omega
    simp only [h2, h3, if_false]
    change _ = value.toNat.testBit j
    rw [expand, Nat.testBit_two_pow_mul_add _ (by rw [Nat.pow_succ]; omega)]
    simp [h1]

theorem bits_clear_lowest (value : Block) (nonzero : value ≠ 0) :
    ∃ i ∈ bits value, bits (value &&& (value - 1)) = (bits value).erase i := by
  have hit := BitVec.getLsbD_true_ctz_of_ne_zero nonzero
  have sub := sub_one_bit value value.ctz.toNat hit (fun j hj => BitVec.getLsbD_false_of_lt_ctz hj)
  refine ⟨value.ctz.toNat, (mem_bits _ _).mpr hit, ?_⟩
  ext j
  rw [mem_bits, Finset.mem_erase, mem_bits, BitVec.getLsbD_and, sub j]
  rcases Nat.lt_trichotomy j value.ctz.toNat with below | same | above
  · simp [BitVec.getLsbD_false_of_lt_ctz below]
  · simp [same]
  · have h2 : ¬ j < value.ctz.toNat := by omega
    simp [h2]

theorem bits_eq_empty_iff (value : Block) : bits value = ∅ ↔ value = 0 := by
  constructor
  · intro h
    apply BitVec.eq_of_getLsbD_eq
    intro i _
    have absent : i ∉ bits value := by simp [h]
    rw [mem_bits] at absent
    simpa using absent
  · rintro rfl
    simp [bits]

theorem numBitsSetLoop_spec (turns : Nat) (value : Block) (count : Nat)
    (enough : (bits value).card ≤ turns) : numBitsSetLoop turns value count = count + (bits value).card := by
  induction turns generalizing value count with
  | zero =>
    have none : (bits value).card = 0 := Nat.le_zero.mp enough
    simp [numBitsSetLoop, none]
  | succ turns ih =>
    unfold numBitsSetLoop
    split
    · rename_i nonzero
      obtain ⟨i, member, cleared⟩ := bits_clear_lowest value nonzero
      have smaller : (bits (value &&& (value - 1))).card = (bits value).card - 1 := by
        rw [cleared, Finset.card_erase_of_mem member]
      have positive : 0 < (bits value).card := Finset.card_pos.mpr ⟨i, member⟩
      rw [ih _ _ (by omega)]
      omega
    · rename_i zero
      have empty : bits value = ∅ := (bits_eq_empty_iff value).mpr (not_not.mp zero)
      simp [empty]

theorem numBitsSet_spec (value : Block) : numBitsSet value = (bits value).card := by
  have bound : (bits value).card ≤ 64 := by
    simpa [bits] using Finset.card_filter_le (Finset.range 64) (fun i => value.getLsbD i = true)
  rw [numBitsSet, numBitsSetLoop_spec 64 value 0 bound, Nat.zero_add]

end TFCommon.BitSet
