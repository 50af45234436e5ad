import TFCommon.Lib.BitString

/-! Keys as the tree reads them, byte by byte, and the two `Compare` functions. -/
namespace TFCommon.Patricia
open BitString

structure KeyTraits (D : Type) where
  bitLength : D → Nat
  byteValue : D → Nat → BitVec 8

variable {D : Type} (K : KeyTraits D)

def getBit (data : D) (pos : Nat) : Bool :=
  if K.bitLength data ≤ pos then false
  else (K.byteValue data (pos >>> 3) &&& (0x80#8 >>> (pos &&& 7))) != 0#8

def scan (p : Nat → Bool) (pos : Nat) : Nat → Nat
  | 0 => pos
  | n + 1 => if p pos then pos else scan p (pos + 1) n

def compare (left right : D) : Bool :=
  if K.bitLength left ≠ K.bitLength right then false
  else
    let byteLen := K.bitLength left >>> 3
    let bytes := scan (fun pos => K.byteValue left pos != K.byteValue right pos) 0 byteLen
    if bytes < byteLen then false
    else
      let pos := bytes <<< 3
      let bits := scan (fun pos => getBit K left pos != getBit K right pos) pos (K.bitLength left - pos)
      decide (K.bitLength left ≤ bits)

/-- `Compare(left, right, start, pos)`: the result and the position left in `pos`. -/
def compareFrom (left right : D) (start : Nat) : Bool × Nat :=
  let shortLen := if K.bitLength left < K.bitLength right then K.bitLength left else K.bitLength right
  let isEqual := K.bitLength left == K.bitLength right
  let byteLen := shortLen >>> 3
  let pos := scan (fun pos => K.byteValue left pos != K.byteValue right pos) (start >>> 3) (byteLen - start >>> 3)
  let pos := pos <<< 3
  let pos := if pos < start then start else pos
  let stop := scan (fun pos => getBit K left pos != getBit K right pos) pos (shortLen - pos)
  if stop < shortLen then (false, stop) else (isEqual, stop)

def key (data : D) : List Bool := (List.range (K.bitLength data)).map (getBit K data)

@[simp] theorem key_length (data : D) : (key K data).length = K.bitLength data := by simp [key]

theorem getBit_eq (data : D) (pos : Nat) : getBit K data pos = bit (key K data) pos := by
  by_cases inside : pos < K.bitLength data
  · simp [key, bit, inside]
  · rw [bit_past (by simpa using inside), getBit, if_pos (Nat.le_of_not_lt inside)]

theorem scan_spec (p : Nat → Bool) (n pos : Nat) :
    pos ≤ scan p pos n ∧ scan p pos n ≤ pos + n ∧ (∀ i, pos ≤ i → i < scan p pos n → p i = false) ∧
      (scan p pos n < pos + n → p (scan p pos n) = true) := by
  induction n generalizing pos with
  | zero =>
    refine ⟨Nat.le_refl _, Nat.le_refl _, fun i low high => ?_, fun impossible => ?_⟩
    · exact absurd high (Nat.not_lt.mpr low)
    · exact absurd impossible (Nat.lt_irrefl _)
  | succ n ih =>
    unfold scan
    split
    · rename_i hit
      exact ⟨Nat.le_refl _, by omega, fun i low high => by omega, fun _ => hit⟩
    · rename_i miss
      obtain ⟨low, high, none, some⟩ := ih (pos + 1)
      refine ⟨by omega, by omega, fun i lowI highI => ?_, fun found => some (by omega)⟩
      by_cases here : i = pos
      · simpa [here] using miss
      · exact none i (by omega) highI

theorem bits_of_byte (left right : D) (n i : Nat) (same : K.byteValue left n = K.byteValue right n)
    (inLeft : i < K.bitLength left) (inRight : i < K.bitLength right) (inside : i >>> 3 = n) :
    bit (key K left) i = bit (key K right) i := by
  rw [← getBit_eq, ← getBit_eq, getBit, getBit, if_neg (by omega), if_neg (by omega), inside, same]

theorem byte_scan (left right : D) (start n : Nat) (i : Nat)
    (short : 8 * n ≤ K.bitLength left ∧ 8 * n ≤ K.bitLength right)
    (low : 8 * start ≤ i)
    (high : i < 8 * scan (fun pos => K.byteValue left pos != K.byteValue right pos) start (n - start)) :
    bit (key K left) i = bit (key K right) i := by
  obtain ⟨_, bound, same, _⟩ := scan_spec (fun pos => K.byteValue left pos != K.byteValue right pos) (n - start) start
  have index : i >>> 3 = i / 8 := Nat.shiftRight_eq_div_pow i 3
  have byte := same (i / 8) (by omega) (by omega)
  exact bits_of_byte K left right (i / 8) i (by simpa using byte) (by omega) (by omega) index

theorem compareFrom_eq (left right : D) (start : Nat) (known : start ≤ lcp (key K left) (key K right)) :
    compareFrom K left right start = (decide (key K left = key K right), lcp (key K left) (key K right)) := by
  have boundL := lcp_le_left (key K left) (key K right)
  have boundR := lcp_le_right (key K left) (key K right)
  rw [key_length] at boundL boundR
  simp only [compareFrom]
  generalize short : (if K.bitLength left < K.bitLength right then K.bitLength left else K.bitLength right) = shortLen
  have shortL : shortLen ≤ K.bitLength left := by split at short <;> omega
  have shortR : shortLen ≤ K.bitLength right := by split at short <;> omega
  have shortEnd : shortLen = K.bitLength left ∨ shortLen = K.bitLength right := by split at short <;> omega
  generalize bytes : scan (fun pos => K.byteValue left pos != K.byteValue right pos) (start >>> 3)
    (shortLen >>> 3 - start >>> 3) = byte
  have scanned := scan_spec (fun pos => K.byteValue left pos != K.byteValue right pos)
    (shortLen >>> 3 - start >>> 3) (start >>> 3)
  generalize resume : (if byte <<< 3 < start then start else byte <<< 3) = pos
  have agree : ∀ i < pos, bit (key K left) i = bit (key K right) i := by
    intro i hi
    by_cases before : i < start
    · exact bit_eq_of_lt_lcp (Nat.lt_of_lt_of_le before known)
    · apply byte_scan K left right (start >>> 3) (shortLen >>> 3) i (by omega) (by omega)
      split at resume <;> omega
  have posShort : pos ≤ shortLen := by split at resume <;> omega
  obtain ⟨low, high, same, differs⟩ := scan_spec (fun pos => getBit K left pos != getBit K right pos) (shortLen - pos) pos
  generalize scan (fun pos => getBit K left pos != getBit K right pos) pos (shortLen - pos) = stop at low high same differs
  have agreeStop : ∀ i < stop, bit (key K left) i = bit (key K right) i := by
    intro i hi
    by_cases before : i < pos
    · exact agree i before
    · have h := same i (by omega) hi
      simpa [getBit_eq] using h
  by_cases early : stop < shortLen
  · have h := differs (by omega)
    have parts : bit (key K left) stop ≠ bit (key K right) stop := by simpa [getBit_eq] using h
    have lcpEq : lcp (key K left) (key K right) = stop :=
      lcp_unique (by rw [key_length]; omega) (by rw [key_length]; omega) agreeStop (.inr (.inr parts))
    have unequal : key K left ≠ key K right := fun eq => parts (by rw [eq])
    rw [if_pos early, lcpEq, decide_eq_false unequal]
  · have full : stop = shortLen := by omega
    have lcpEq : lcp (key K left) (key K right) = shortLen := by
      apply lcp_unique (by rw [key_length]; omega) (by rw [key_length]; omega) (full ▸ agreeStop)
      rw [key_length, key_length]
      exact shortEnd.imp_right .inl
    have equality : (key K left = key K right) ↔ K.bitLength left = K.bitLength right := by
      rw [eq_iff_lcp, key_length, key_length]
      omega
    rw [if_neg early, lcpEq, full, decide_eq_decide.mpr equality, beq_eq_decide]

theorem masked_bit (byte : BitVec 8) (j : Nat) (inside : j < 8) :
    ((byte &&& (0x80#8 >>> j)) != 0#8) = byte.getLsbD (7 - j) := by
  have mask : 0x80#8 >>> j = BitVec.twoPow 8 (7 - j) := by
    have every : ∀ j < 8, 0x80#8 >>> j = BitVec.twoPow 8 (7 - j) := by decide
    exact every j inside
  have nonzero : BitVec.twoPow 8 (7 - j) ≠ 0#8 := by
    have every : ∀ i < 8, BitVec.twoPow 8 i ≠ 0#8 := by decide
    exact every (7 - j) (by omega)
  rw [mask, BitVec.and_twoPow]
  cases h : byte.getLsbD (7 - j) with
  | true => simpa using nonzero
  | false => simp

theorem getBit_byte (data : D) (n j : Nat) (inside : j < 8) (stored : 8 * n + j < K.bitLength data) :
    getBit K data (8 * n + j) = (K.byteValue data n).getLsbD (7 - j) := by
  have byte : (8 * n + j) >>> 3 = n := by rw [Nat.shiftRight_eq_div_pow]; omega
  have offset : (8 * n + j) &&& 7 = j := by rw [Nat.and_two_pow_sub_one_eq_mod _ 3]; omega
  rw [getBit, if_neg (by omega), byte, offset, masked_bit _ j inside]

theorem byte_of_bits (left right : D) (n : Nat) (inLeft : 8 * n + 8 ≤ K.bitLength left)
    (inRight : 8 * n + 8 ≤ K.bitLength right) (same : key K left = key K right) :
    K.byteValue left n = K.byteValue right n := by
  apply BitVec.eq_of_getLsbD_eq
  intro i hi
  have bits : getBit K left (8 * n + (7 - i)) = getBit K right (8 * n + (7 - i)) := by
    rw [getBit_eq, getBit_eq, same]
  rw [getBit_byte K left n (7 - i) (by omega) (by omega),
    getBit_byte K right n (7 - i) (by omega) (by omega)] at bits
  rwa [show 7 - (7 - i) = i by omega] at bits

theorem compare_eq (left right : D) : compare K left right = decide (key K left = key K right) := by
  rw [compare]
  by_cases lengths : K.bitLength left = K.bitLength right
  · rw [if_neg (not_not_intro lengths)]
    obtain ⟨_, high, _, differs⟩ := scan_spec (fun pos => K.byteValue left pos != K.byteValue right pos)
      (K.bitLength left >>> 3) 0
    have agree := byte_scan K left right 0 (K.bitLength left >>> 3)
    dsimp only
    generalize scan (fun pos => K.byteValue left pos != K.byteValue right pos) 0 (K.bitLength left >>> 3) = byte
      at high differs agree ⊢
    split
    · have mismatch := differs (by omega)
      symm
      apply decide_eq_false
      intro same
      rw [byte_of_bits K left right byte (by omega) (by omega) same] at mismatch
      simp at mismatch
    · obtain ⟨low, bound, same, parts⟩ := scan_spec (fun pos => getBit K left pos != getBit K right pos)
        (K.bitLength left - byte <<< 3) (byte <<< 3)
      rw [decide_eq_decide]
      constructor
      · intro reached
        rw [eq_iff_lcp, key_length, key_length]
        refine ⟨lcp_unique (by simp) (by simp [lengths]) (fun i hi => ?_) (.inl (by simp)), lengths⟩
        by_cases inBytes : i < byte * 8
        · exact agree i (by omega) (by omega) (by omega)
        · simpa [getBit_eq] using same i (by omega) (by omega)
      · intro equal
        by_contra short
        have differ := parts (by omega)
        simp [getBit_eq, equal] at differ
  · rw [if_pos lengths]
    exact (decide_eq_false fun eq => lengths (by rw [← key_length, eq, key_length])).symm

end TFCommon.Patricia
