import Mathlib.Algebra.Group.Nat.Defs

/-! The sequence numbers of a trace buffer. In `kMaxSeqno` the sign `^` is the exclusive or, so the counter is reset
behind 33 and not behind the largest number but one. -/
namespace TFCommon.Trace

def kMaxSeqno : BitVec 32 := ((2 ^^^ 32) - 1) - 1

def kMinSeqno : BitVec 32 := 1

/-- A call: what it returns and `seqno_` after it. -/
def getNextSeqNum (seqno : BitVec 32) : BitVec 32 × BitVec 32 :=
  let nseqno := seqno
  (nseqno, if kMaxSeqno < nseqno then kMinSeqno else seqno + 1)

def seqnoAfter (start : BitVec 32) : Nat → BitVec 32
  | 0 => start
  | calls + 1 => (getNextSeqNum (seqnoAfter start calls)).2

def nthSeqNum (start : BitVec 32) (calls : Nat) : BitVec 32 := (getNextSeqNum (seqnoAfter start calls)).1

theorem nthSeqNum_succ (start : BitVec 32) (calls : Nat) :
    nthSeqNum start (calls + 1) = if 32 < nthSeqNum start calls then 1 else nthSeqNum start calls + 1 := rfl

theorem nthSeqNum_succ_toNat (start : BitVec 32) (calls : Nat) :
    (nthSeqNum start (calls + 1)).toNat =
      if 32 < (nthSeqNum start calls).toNat then 1 else (nthSeqNum start calls).toNat + 1 := by
  rw [nthSeqNum_succ]
  by_cases above : 32 < (nthSeqNum start calls).toNat
  · rw [if_pos above, if_pos (by bv_omega)]
    rfl
  · rw [if_neg above, if_neg (by bv_omega)]
    bv_omega

/-- Between 1 and 33 the numbers go round, from the first call on or, from a larger number, from the second. -/
theorem nthSeqNum_eq {start : BitVec 32} (nonzero : start ≠ 0) (calls : Nat) (led : start.toNat ≤ 33 ∨ 1 ≤ calls) :
    (nthSeqNum start calls).toNat = ((if start.toNat ≤ 33 then start.toNat - 1 else 32) + calls) % 33 + 1 := by
  have first : (nthSeqNum start 0).toNat = start.toNat := rfl
  have positive : 1 ≤ start.toNat := by bv_omega
  induction calls with
  | zero =>
    have low := led.resolve_right (by decide)
    rw [if_pos low]
    omega
  | succ calls ih =>
    rw [nthSeqNum_succ_toNat]
    by_cases second : start.toNat ≤ 33 ∨ 1 ≤ calls
    · rw [ih second]
      split <;> split <;> omega
    · obtain ⟨above, rfl⟩ : 33 < start.toNat ∧ calls = 0 := by omega
      rw [if_pos (by omega), if_neg (by omega)]

/-- No number is reserved, and equal numbers lie as far apart as 32 bits allow. -/
def SeqNumsSound (start : BitVec 32) (calls : Nat) : Prop :=
  (∀ i < calls, nthSeqNum start i ≠ 0 ∧ nthSeqNum start i ≠ 0xffffffff) ∧
    ∀ i j, i < j → j < calls → nthSeqNum start i = nthSeqNum start j → 2 ^ 32 - 2 ≤ j - i

theorem seqNums_sound_iff (start : BitVec 32) (calls : Nat) :
    SeqNumsSound start calls ↔
      calls = 0 ∨ start ≠ 0 ∧ start ≠ 0xffffffff ∧ calls ≤ if start.toNat ≤ 33 then 33 else 34 := by
  constructor
  · rintro ⟨reserved, apart⟩
    by_cases none_ : calls = 0
    · exact .inl none_
    obtain ⟨nonzero, notMax⟩ : start ≠ 0 ∧ start ≠ 0xffffffff := reserved 0 (Nat.pos_of_ne_zero none_)
    refine .inr ⟨nonzero, notMax, Nat.le_of_not_lt fun more => ?_⟩
    -- the first number that goes round, and the same number 33 calls later
    obtain ⟨i, led, below⟩ : ∃ i, (start.toNat ≤ 33 ∨ 1 ≤ i) ∧ i + 33 < calls := by
      by_cases low : start.toNat ≤ 33
      · exact ⟨0, .inl low, by simpa [low] using more⟩
      · exact ⟨1, .inr (Nat.le_refl 1), by simpa [low] using more⟩
    have same : nthSeqNum start i = nthSeqNum start (i + 33) := by
      apply BitVec.eq_of_toNat_eq
      rw [nthSeqNum_eq nonzero i led, nthSeqNum_eq nonzero (i + 33) (by omega)]
      omega
    have far := apart i (i + 33) (by omega) below same
    omega
  · rintro (rfl | ⟨nonzero, notMax, few⟩)
    · exact ⟨nofun, nofun⟩
    have range : ∀ i, (start.toNat ≤ 33 ∨ 1 ≤ i) → 1 ≤ (nthSeqNum start i).toNat ∧ (nthSeqNum start i).toNat ≤ 33 := by
      intro i led
      rw [nthSeqNum_eq nonzero i led]
      omega
    refine ⟨fun i _ => ?_, fun i j less below same => ?_⟩
    · cases i with
      | zero => exact ⟨nonzero, notMax⟩
      | succ i =>
        have number := range (i + 1) (by omega)
        exact ⟨by bv_omega, by bv_omega⟩
    · have equal := congrArg BitVec.toNat same
      by_cases led : start.toNat ≤ 33 ∨ 1 ≤ i
      · rw [nthSeqNum_eq nonzero i led, nthSeqNum_eq nonzero j (by omega)] at equal
        split at few <;> omega
      · obtain ⟨above, rfl⟩ : 33 < start.toNat ∧ i = 0 := by omega
        have number := range j (by omega)
        have first : (nthSeqNum start 0).toNat = start.toNat := rfl
        omega

/-- A new buffer counts from 0, which is reserved; from 1, the first number comes again after 33 calls. -/
theorem seqNum_repeated :
    nthSeqNum 0 0 = 0 ∧ nthSeqNum 1 0 = nthSeqNum 1 33 ∧ ¬ SeqNumsSound 0 1 ∧ ¬ SeqNumsSound 1 34 := by
  have low : (1 : BitVec 32).toNat ≤ 33 ∨ 1 ≤ 33 := .inr (by decide)
  have same : nthSeqNum 1 0 = nthSeqNum 1 33 := BitVec.eq_of_toNat_eq (nthSeqNum_eq (by decide) 33 low).symm
  refine ⟨rfl, same, fun sound => absurd rfl (sound.1 0 (by decide)).1, fun sound => ?_⟩
  have far := sound.2 0 33 (by decide) (by decide) same
  omega

end TFCommon.Trace
