import Mathlib.Data.Set.Basic
import TFCommon.BitSet.Model

/-! The mutators are set algebra on the denoted positions and keep the last block non-zero. -/
namespace TFCommon.BitSet

def has (b : BitSet) (pos : Nat) : Bool := (b.block (pos / 64)).getLsbD (pos % 64)

/-- The denotation: the positions that hold a one. -/
def toSet (b : BitSet) : Set Nat := {pos | b.has pos = true}

structure Valid (b : BitSet) : Prop where
  fits : b.blocks.length ≤ maxBlocks
  canonical : b.blocks.length ≠ 0 → b.block (b.blocks.length - 1) ≠ 0#64

theorem mem_toSet (b : BitSet) (pos : Nat) : pos ∈ b.toSet ↔ b.has pos = true := Iff.rfl

theorem block_past (b : BitSet) (idx : Nat) (past : b.blocks.length ≤ idx) : b.block idx = 0#64 :=
  List.getD_eq_default b.blocks 0#64 past

theorem block_lt (b : BitSet) (idx : Nat) (nonzero : b.block idx ≠ 0#64) : idx < b.blocks.length := by
  apply Nat.lt_of_not_le
  intro past
  exact nonzero (block_past b idx past)

theorem has_lt (b : BitSet) (pos : Nat) (hit : b.has pos = true) : pos < b.blocks.length * 64 := by
  have nonzero : b.block (pos / 64) ≠ 0#64 := by
    intro zero
    simp [has, zero] at hit
  have := block_lt b (pos / 64) nonzero
  omega

theorem exists_bit (value : Block) (nonzero : value ≠ 0#64) : ∃ i < 64, value.getLsbD i = true := by
  have hit := BitVec.getLsbD_true_ctz_of_ne_zero nonzero
  exact ⟨_, BitVec.lt_of_getLsbD hit, hit⟩

theorem has_position (b : BitSet) (idx offset : Nat) (h : offset < 64) :
    b.has (idx * 64 + offset) = (b.block idx).getLsbD offset := by
  have quotient : (idx * 64 + offset) / 64 = idx := by omega
  have remainder : (idx * 64 + offset) % 64 = offset := by omega
  simp only [has, quotient, remainder]

theorem block_eq_of_toSet (b c : BitSet) (same : b.toSet = c.toSet) (idx : Nat) : b.block idx = c.block idx := by
  apply BitVec.eq_of_getLsbD_eq
  intro offset inside
  have h : b.has (idx * 64 + offset) = true ↔ c.has (idx * 64 + offset) = true := by
    rw [← mem_toSet, ← mem_toSet, same]
  rw [has_position _ _ _ inside, has_position _ _ _ inside] at h
  exact Bool.eq_iff_iff.mpr h

theorem length_le_of_blocks {b c : BitSet} (valid : b.Valid) (same : ∀ idx, b.block idx = c.block idx) :
    b.blocks.length ≤ c.blocks.length := by
  cases length : b.blocks.length with
  | zero => exact Nat.zero_le _
  | succ n =>
    have last := valid.canonical (by omega)
    rw [length, Nat.add_sub_cancel, same n] at last
    exact block_lt c n last

theorem equal_iff (b c : BitSet) (hb : b.Valid) (hc : c.Valid) : b.equal c = true ↔ b.toSet = c.toSet := by
  constructor
  · intro h
    simp only [equal, Bool.and_eq_true, beq_iff_eq, List.all_eq_true, List.mem_range] at h
    obtain ⟨length, blocks⟩ := h
    have same : ∀ idx, b.block idx = c.block idx := by
      intro idx
      by_cases inside : idx < b.blocks.length
      · exact blocks idx inside
      · rw [block_past b idx (by omega), block_past c idx (by omega)]
    ext pos
    simp only [mem_toSet, has, same]
  · intro h
    have same := block_eq_of_toSet b c h
    have length : b.blocks.length = c.blocks.length :=
      Nat.le_antisymm (length_le_of_blocks hb same) (length_le_of_blocks hc (fun idx => (same idx).symm))
    simp [equal, length, same]

theorem length_zero_iff (b : BitSet) (valid : b.Valid) : b.blocks.length = 0 ↔ b.toSet = ∅ := by
  constructor
  · intro zero
    ext pos
    simp only [Set.mem_empty_iff_false, iff_false]
    intro hit
    have := has_lt b pos hit
    omega
  · intro empty
    apply Classical.byContradiction
    intro positive
    obtain ⟨offset, inside, hit⟩ := exists_bit _ (valid.canonical positive)
    have member : (b.blocks.length - 1) * 64 + offset ∈ b.toSet := by
      rw [mem_toSet, has_position _ _ _ inside]
      exact hit
    simp [empty] at member

theorem checkInvariants_ok {b : BitSet} (valid : b.Valid) : b.checkInvariants = .ok b := by
  unfold checkInvariants
  split
  · rename_i bad
    exact absurd bad.2 (valid.canonical bad.1)
  · rfl

theorem valid_nil : Valid ⟨[]⟩ := ⟨Nat.zero_le _, fun h => absurd rfl h⟩

theorem resized_spec {blocks : List Block} {n : Nat} (fits : blocks.length ≤ maxBlocks) (bound : n < blocks.length)
    (above : ∀ idx, n < idx → blocks.getD idx 0#64 = 0#64) (nonzero : blocks.getD n 0#64 ≠ 0#64) :
    Valid ⟨Vec.resize 0#64 (n + 1) blocks⟩ ∧
      ∀ idx, (Vec.resize 0#64 (n + 1) blocks).getD idx 0#64 = blocks.getD idx 0#64 := by
  refine ⟨⟨by rw [Vec.length_resize]; omega, fun _ => ?_⟩, fun idx => ?_⟩
  · simp only [Vec.length_resize, block, Vec.getD_resize]
    simpa using nonzero
  · rw [Vec.getD_resize]
    split
    · rfl
    · exact (above idx (by omega)).symm

theorem compactFrom_spec {blocks : List Block} (fits : blocks.length ≤ maxBlocks) (n : Nat) (bound : n < blocks.length)
    (above : ∀ idx, n < idx → blocks.getD idx 0#64 = 0#64) :
    Valid ⟨compactFrom blocks n⟩ ∧ ∀ idx, (compactFrom blocks n).getD idx 0#64 = blocks.getD idx 0#64 := by
  induction n with
  | zero =>
    unfold compactFrom
    split
    · rename_i nonzero
      exact resized_spec fits bound above nonzero
    · rename_i zero
      refine ⟨valid_nil, fun idx => ?_⟩
      cases idx with
      | zero => exact (not_not.mp zero).symm
      | succ idx => exact (above _ (Nat.succ_pos idx)).symm
  | succ n ih =>
    unfold compactFrom
    split
    · rename_i nonzero
      exact resized_spec fits bound above nonzero
    · rename_i zero
      refine ih (by omega) fun j above' => ?_
      by_cases here : j = n + 1
      · exact here ▸ not_not.mp zero
      · exact above j (by omega)

theorem compact_spec (b : BitSet) (fits : b.blocks.length ≤ maxBlocks) :
    b.compact.Valid ∧ ∀ idx, b.compact.block idx = b.block idx := by
  unfold compact
  split
  · rename_i zero
    exact ⟨⟨fits, fun h => absurd zero h⟩, fun _ => rfl⟩
  · exact compactFrom_spec fits _ (by omega) fun j above => List.getD_eq_default _ _ (by omega)

theorem one_shift_bit (offset j : Nat) (h : offset < 64) :
    (1#64 <<< offset).getLsbD j = decide (j = offset) := by
  rw [← BitVec.twoPow_eq]
  by_cases same : offset = j
  · simp [same ▸ h]
  · simp [same, Ne.symm same]

theorem block_modify (blocks : List Block) (idx : Nat) (f : Block → Block) (j : Nat) (h : idx < blocks.length) :
    block ⟨blocks.modify idx f⟩ j = if idx = j then f (block ⟨blocks⟩ j) else block ⟨blocks⟩ j := by
  simp only [block]
  by_cases here : idx = j
  · subst here
    simp [List.getElem?_eq_getElem h]
  · simp [here]

theorem position_eq (pos : SizeT) (q : Nat) : q = pos.val ↔ blockIndex pos = q / 64 ∧ q % 64 = blockOffset pos := by
  unfold blockIndex blockOffset
  omega

theorem set_grow (b : BitSet) (pos : SizeT) (room : blockIndex pos < maxBlocks) :
    ∃ grown : BitSet, b.set pos = .ok ⟨grown.blocks.modify (blockIndex pos) (fun old => old ||| (1#64 <<< blockOffset pos))⟩ ∧
      (∀ idx, grown.block idx = b.block idx) ∧ blockIndex pos < grown.blocks.length ∧
      grown.blocks.length = max b.blocks.length (blockIndex pos + 1) := by
  by_cases grows : b.blocks.length ≤ blockIndex pos
  · refine ⟨⟨Vec.resize 0#64 (blockIndex pos + 1) b.blocks⟩, ?_, fun idx => ?_, ?_, ?_⟩
    · have h : blockIndex pos + 1 ≤ maxBlocks := room
      simp [set, grows, resize, h, bind, Except.bind]
    · simp only [block, Vec.getD_resize]
      split
      · rfl
      · exact (List.getD_eq_default b.blocks 0#64 (by omega)).symm
    all_goals
      simp only [Vec.length_resize]
      omega
  · refine ⟨b, ?_, fun _ => rfl, by omega, by omega⟩
    simp [set, grows, bind, Except.bind]

theorem set_spec (b : BitSet) (pos : SizeT) (valid : b.Valid) (room : blockIndex pos < maxBlocks) :
    ∃ r, b.set pos = .ok r ∧ r.Valid ∧ r.toSet = insert pos.val b.toSet := by
  obtain ⟨grown, result, blocks, inside, length⟩ := set_grow b pos room
  refine ⟨_, result, ⟨?_, fun _ => ?_⟩, ?_⟩
  · rw [List.length_modify, length]
    exact Nat.max_le.mpr ⟨valid.fits, room⟩
  · simp
    rw [block_modify _ _ _ _ inside]
    split
    · intro zero
      have bit := congrArg (fun v => BitVec.getLsbD v (blockOffset pos)) zero
      have low : blockOffset pos < 64 := Nat.mod_lt _ (by decide)
      simp [one_shift_bit _ _ low] at bit
    · rw [blocks, length]
      have longer : max b.blocks.length (blockIndex pos + 1) = b.blocks.length := by omega
      rw [longer]
      exact valid.canonical (by omega)
  · ext q
    rw [Set.mem_insert_iff, position_eq, mem_toSet, mem_toSet, has, block_modify _ _ _ _ inside]
    rw [blocks]
    have low : blockOffset pos < 64 := Nat.mod_lt _ (by decide)
    split
    · rename_i here
      rw [BitVec.getLsbD_or, one_shift_bit _ _ low, Bool.or_eq_true, decide_eq_true_eq]
      simp only [here, true_and]
      exact Or.comm
    · rename_i other
      simp [other, has]

theorem set_error (b : BitSet) (pos : SizeT) (valid : b.Valid) (large : maxBlocks ≤ blockIndex pos) :
    b.set pos = .error .badAlloc := by
  have grows : b.blocks.length ≤ blockIndex pos := Nat.le_trans valid.fits large
  have fails : ¬ blockIndex pos + 1 ≤ maxBlocks := by omega
  simp [set, grows, resize, fails, bind, Except.bind]

theorem reset_spec (b : BitSet) (pos : SizeT) (valid : b.Valid) :
    (b.reset pos).Valid ∧ (b.reset pos).toSet = b.toSet \ {pos.val} := by
  have low : blockOffset pos < 64 := Nat.mod_lt _ (by decide)
  simp only [reset]
  split
  · rename_i inside
    have compacted (f : Block → Block) := compact_spec ⟨b.blocks.modify (blockIndex pos) f⟩
      (by rw [List.length_modify]; exact valid.fits)
    refine ⟨(compacted _).1, ?_⟩
    ext q
    rw [Set.mem_sdiff, Set.mem_singleton_iff, position_eq, mem_toSet, mem_toSet, has, (compacted _).2,
      block_modify _ _ _ _ inside]
    split
    · rename_i here
      have range : q % 64 < 64 := Nat.mod_lt _ (by decide)
      rw [BitVec.getLsbD_and, BitVec.getLsbD_not, one_shift_bit _ _ low]
      simp only [here, range, has, decide_true, Bool.true_and, Bool.and_eq_true, Bool.not_eq_true',
        decide_eq_false_iff_not, true_and]
    · rename_i other
      simp [other, has]
  · rename_i outside
    refine ⟨valid, ?_⟩
    ext q
    rw [Set.mem_sdiff, Set.mem_singleton_iff]
    constructor
    · intro hit
      refine ⟨hit, fun same => ?_⟩
      have := has_lt b q hit
      unfold blockIndex at outside
      omega
    · exact fun h => h.1

/-- What a blockwise operation promises: no fault, a valid result, and the blocks of `f`. -/
def Blockwise (f : Nat → Block) (result : Except Fault BitSet) : Prop :=
  ∃ r, result = .ok r ∧ r.Valid ∧ ∀ idx, r.block idx = f idx

theorem compact_blockwise (f : Nat → Block) (blocks : List Block) (fits : blocks.length ≤ maxBlocks)
    (same : ∀ idx, blocks.getD idx 0#64 = f idx) : Blockwise f (checkInvariants (compact ⟨blocks⟩)) := by
  obtain ⟨valid, eq⟩ := compact_spec ⟨blocks⟩ fits
  exact ⟨_, checkInvariants_ok valid, valid, fun idx => (eq idx).trans (same idx)⟩

theorem andAssign_blockwise (b c : BitSet) (hb : b.Valid) :
    Blockwise (fun idx => b.block idx &&& c.block idx) (b.andAssign c) := by
  refine compact_blockwise _ _ (by simpa only [Vec.length_updateRange] using hb.fits) (fun idx => ?_)
  rw [Vec.getD_fill _ _ _ _ _ _ _ (Nat.min_le_left _ _) (Nat.le_refl _)]
  split
  · rfl
  · split
    · rw [block_past c idx (by omega), BitVec.and_zero]
    · rename_i outside
      rw [List.getD_eq_default _ _ (Nat.le_of_not_lt outside), block_past b idx (by omega), BitVec.zero_and]

theorem resetAll_blockwise (b c : BitSet) (hb : b.Valid) :
    Blockwise (fun idx => b.block idx &&& ~~~c.block idx) (b.resetAll c) := by
  refine compact_blockwise _ _ (by simpa only [Vec.length_updateRange] using hb.fits) (fun idx => ?_)
  rw [Vec.getD_updateRange _ _ _ _ _ _ (by omega)]
  split
  · rfl
  · by_cases inB : idx < b.blocks.length
    · rw [block_past c idx (by omega), BitVec.not_zero, BitVec.and_allOnes]
      rfl
    · rw [List.getD_eq_default _ _ (by omega), block_past b idx (by omega), BitVec.zero_and]

theorem buildComplement_blockwise (b c : BitSet) (hb : b.Valid) :
    Blockwise (fun idx => b.block idx &&& ~~~c.block idx) (buildComplement b c) := by
  refine compact_blockwise _ _ (by simpa only [Vec.length_updateRange, Vec.length_resize] using hb.fits)
    (fun idx => ?_)
  simp only [Vec.length_resize]
  rw [Vec.getD_fill _ _ _ _ _ _ _ (Nat.min_le_left _ _) (by rw [Vec.length_resize])]
  split
  · rfl
  · split
    · rw [block_past c idx (by omega), BitVec.not_zero, BitVec.and_allOnes]
    · rw [List.getD_eq_default _ _ (by rw [Vec.length_resize]; omega), block_past b idx (by omega), BitVec.zero_and]

/-- A union needs no trimming: the last block of the longer operand survives in it. -/
theorem union_valid (b c r : BitSet) (hb : b.Valid) (hc : c.Valid)
    (length : r.blocks.length = max b.blocks.length c.blocks.length)
    (blocks : ∀ idx, r.block idx = b.block idx ||| c.block idx) : r.Valid := by
  refine ⟨length ▸ Nat.max_le.mpr ⟨hb.fits, hc.fits⟩, fun positive zero => ?_⟩
  rw [blocks, length] at zero
  obtain ⟨zb, zc⟩ := BitVec.or_eq_zero_iff.mp zero
  by_cases longer : c.blocks.length ≤ b.blocks.length
  · rw [Nat.max_eq_left longer] at zb
    exact hb.canonical (by omega) zb
  · rw [Nat.max_eq_right (by omega)] at zc
    exact hc.canonical (by omega) zc

theorem union_blockwise (b c r : BitSet) (hb : b.Valid) (hc : c.Valid)
    (length : r.blocks.length = max b.blocks.length c.blocks.length)
    (blocks : ∀ idx, r.block idx = b.block idx ||| c.block idx) :
    Blockwise (fun idx => b.block idx ||| c.block idx) r.checkInvariants :=
  have valid := union_valid b c r hb hc length blocks
  ⟨r, checkInvariants_ok valid, valid, blocks⟩

theorem orAssign_blockwise (b c : BitSet) (hb : b.Valid) (hc : c.Valid) :
    Blockwise (fun idx => b.block idx ||| c.block idx) (b.orAssign c) := by
  have grown : ∀ idx, (if b.blocks.length < c.blocks.length then
      Vec.resize 0#64 c.blocks.length b.blocks else b.blocks).getD idx 0#64 = b.block idx := by
    intro idx
    split
    · rw [Vec.getD_resize]
      split
      · rfl
      · rw [block_past b idx (by omega)]
    · rfl
  have size : (if b.blocks.length < c.blocks.length then
      Vec.resize 0#64 c.blocks.length b.blocks else b.blocks).length = max b.blocks.length c.blocks.length := by
    split
    · rw [Vec.length_resize]
      omega
    · omega
  apply union_blockwise b c _ hb hc
  · rw [Vec.length_updateRange, size]
  · intro idx
    rw [block, Vec.getD_updateRange _ _ _ _ _ _ (by rw [size]; omega), grown]
    split
    · rfl
    · rw [block_past c idx (by omega), BitVec.or_zero]

theorem or_blockwise (b c : BitSet) (hb : b.Valid) (hc : c.Valid) :
    Blockwise (fun idx => b.block idx ||| c.block idx) (b.or c) := by
  apply union_blockwise b c _ hb hc
  · simp only [Vec.length_updateRange, Vec.length_resize]
  · intro idx
    have left : min b.blocks.length c.blocks.length ≤ b.blocks.length := Nat.min_le_left _ _
    rw [block, Vec.getD_updateRange _ _ _ _ _ _
        (by simp only [Vec.length_updateRange, Vec.length_resize]; omega),
      Vec.getD_fill _ _ _ _ _ _ _ left (by rw [Vec.length_resize]; omega)]
    split
    · rw [block_past b idx (by omega), BitVec.zero_or]
    · split
      · rfl
      · split
        · rw [block_past c idx (by omega), BitVec.or_zero]
        · rw [List.getD_eq_default _ _ (by rw [Vec.length_resize]; omega), block_past b idx (by omega), block_past c idx (by omega),
            BitVec.or_zero]

/-- The blocks above `n` are final; the vector is still empty or ends in a non-zero block. -/
structure IntersectionInv (b c : BitSet) (n : Nat) (blocks : List Block) : Prop where
  above : ∀ idx, n ≤ idx → blocks.getD idx 0#64 = b.block idx &&& c.block idx
  below : ∀ idx, idx < n → blocks.getD idx 0#64 = 0#64
  tall : blocks.length = 0 ∨ n < blocks.length
  last : blocks.length ≠ 0 → blocks.getD (blocks.length - 1) 0#64 ≠ 0#64
  short : blocks.length ≤ min b.blocks.length c.blocks.length

theorem intersectionStep_inv (b c : BitSet) (n : Nat) (blocks : List Block)
    (bound : n < min b.blocks.length c.blocks.length) (inv : IntersectionInv b c (n + 1) blocks) :
    IntersectionInv b c n (intersectionStep b c n blocks) := by
  unfold intersectionStep
  split
  · rename_i nonzero
    obtain ⟨grown, same, cells, tall, last, short⟩ : ∃ grown, (if blocks.length = 0 then Vec.resize 0#64 (n + 1) blocks
          else blocks) = grown ∧ (∀ idx, grown.getD idx 0#64 = blocks.getD idx 0#64) ∧ n < grown.length ∧
        (n + 1 = grown.length ∨ grown = blocks) ∧ grown.length ≤ min b.blocks.length c.blocks.length := by
      refine ⟨_, rfl, ?_⟩
      split
      · rename_i empty
        rw [List.length_eq_zero_iff.mp empty, Vec.length_resize]
        exact ⟨fun idx => by rw [Vec.getD_resize]; simp, by omega, .inl rfl, by omega⟩
      · exact ⟨fun _ => rfl, by rcases inv.tall with h | h <;> omega, .inr rfl, inv.short⟩
    have cell : ∀ idx, (grown.set n (b.block n &&& c.block n)).getD idx 0#64 =
        if n = idx then b.block n &&& c.block n else blocks.getD idx 0#64 :=
      fun idx => (Vec.getD_set _ _ _ _ _ tall).trans (by rw [cells])
    rw [same]
    refine ⟨fun idx h => ?_, fun idx h => ?_, .inr (by rwa [List.length_set]), fun _ => ?_, by rwa [List.length_set]⟩
    · rw [cell]
      split
      · rename_i here
        rw [here]
      · exact inv.above idx (by omega)
    · rw [cell, if_neg (by omega)]
      exact inv.below idx (by omega)
    · rw [List.length_set, cell]
      split
      · exact nonzero
      · rcases last with only | rfl
        · omega
        · exact inv.last (by omega)
  · rename_i zero
    refine ⟨fun idx h => ?_, fun idx h => inv.below idx (by omega), ?_, inv.last, inv.short⟩
    · by_cases here : idx = n
      · subst here
        rw [inv.below idx (by omega), not_not.mp zero]
      · exact inv.above idx (by omega)
    · rcases inv.tall with h | h
      · exact .inl h
      · exact .inr (by omega)

theorem intersectionFrom_inv (b c : BitSet) (n : Nat) (blocks : List Block)
    (bound : n < min b.blocks.length c.blocks.length) (inv : IntersectionInv b c (n + 1) blocks) :
    IntersectionInv b c 0 (intersectionFrom b c n blocks) := by
  induction n generalizing blocks with
  | zero => exact intersectionStep_inv b c 0 blocks bound inv
  | succ n ih => exact ih _ (by omega) (intersectionStep_inv b c (n + 1) blocks bound inv)

theorem buildIntersection_blockwise (b c : BitSet) (hb : b.Valid) :
    Blockwise (fun idx => b.block idx &&& c.block idx) (buildIntersection b c) := by
  have past : ∀ idx, min b.blocks.length c.blocks.length ≤ idx → b.block idx &&& c.block idx = 0#64 := by
    intro idx h
    by_cases inB : idx < b.blocks.length
    · rw [block_past c idx (by omega), BitVec.and_zero]
    · rw [block_past b idx (by omega), BitVec.zero_and]
  simp only [buildIntersection]
  split
  · exact ⟨⟨[]⟩, rfl, valid_nil, fun idx => (past idx (by omega)).symm⟩
  · have start : IntersectionInv b c (min b.blocks.length c.blocks.length - 1 + 1) [] :=
      ⟨fun idx h => (past idx (by omega)).symm, fun _ _ => rfl, .inl rfl, fun h => absurd rfl h, Nat.zero_le _⟩
    have inv := intersectionFrom_inv b c _ [] (by omega) start
    have valid : Valid ⟨intersectionFrom b c (min b.blocks.length c.blocks.length - 1) []⟩ :=
      ⟨Nat.le_trans inv.short (Nat.le_trans (Nat.min_le_left _ _) hb.fits), inv.last⟩
    exact ⟨_, checkInvariants_ok valid, valid, fun idx => inv.above idx (Nat.zero_le _)⟩

theorem Blockwise.checked {f : Nat → Block} {result : Except Fault BitSet} (h : Blockwise f result) :
    Blockwise f (result.bind checkInvariants) := by
  obtain ⟨r, rfl, valid, blocks⟩ := h
  exact ⟨r, checkInvariants_ok valid, valid, blocks⟩

theorem Blockwise.toSet_eq {f : Nat → Block} {result : Except Fault BitSet} (h : Blockwise f result)
    (S : Set Nat) (denotes : ∀ pos, pos ∈ S ↔ (f (pos / 64)).getLsbD (pos % 64) = true) :
    ∃ r, result = .ok r ∧ r.Valid ∧ r.toSet = S := by
  obtain ⟨r, ok, valid, blocks⟩ := h
  refine ⟨r, ok, valid, ?_⟩
  ext pos
  rw [denotes, mem_toSet, has, blocks]

theorem and_denotes (b c : BitSet) (pos : Nat) :
    pos ∈ b.toSet ∩ c.toSet ↔ (b.block (pos / 64) &&& c.block (pos / 64)).getLsbD (pos % 64) = true := by
  rw [BitVec.getLsbD_and, Bool.and_eq_true]
  rfl

theorem or_denotes (b c : BitSet) (pos : Nat) :
    pos ∈ b.toSet ∪ c.toSet ↔ (b.block (pos / 64) ||| c.block (pos / 64)).getLsbD (pos % 64) = true := by
  rw [BitVec.getLsbD_or, Bool.or_eq_true]
  rfl

theorem diff_denotes (b c : BitSet) (pos : Nat) :
    pos ∈ b.toSet \ c.toSet ↔ (b.block (pos / 64) &&& ~~~c.block (pos / 64)).getLsbD (pos % 64) = true := by
  have range : pos % 64 < 64 := Nat.mod_lt _ (by decide)
  rw [Set.mem_sdiff, mem_toSet, mem_toSet]
  simp [has, range]

def onesFrom (str : List Char) (n : Nat) : Set Nat := {pos | n ≤ pos ∧ str[pos]? = some '1'}

theorem fromStringStep_spec (str : List Char) (n : Nat) (b : BitSet) (inside : n < str.length)
    (length : str.length < 2 ^ 64) (valid : b.Valid) (denotes : b.toSet = onesFrom str (n + 1))
    (small : ∀ pos, str[pos]? = some '1' → pos / 64 < maxBlocks) :
    ∃ r, fromStringStep str n b = .ok r ∧ r.Valid ∧ r.toSet = onesFrom str n := by
  have value : (Fin.ofNat (2 ^ 64) n).val = n := Nat.mod_eq_of_lt (by omega)
  unfold fromStringStep
  split
  · rename_i one
    have room : blockIndex (Fin.ofNat (2 ^ 64) n) < maxBlocks := by
      rw [blockIndex, value]
      exact small n one
    obtain ⟨r, ok, validR, set⟩ := set_spec b (Fin.ofNat (2 ^ 64) n) valid room
    refine ⟨r, ok, validR, ?_⟩
    rw [set, denotes, value]
    ext pos
    simp only [onesFrom, Set.mem_insert_iff, Set.mem_ofPred_eq]
    constructor
    · rintro (rfl | h)
      · exact ⟨Nat.le_refl _, one⟩
      · exact ⟨by omega, h.2⟩
    · intro h
      by_cases here : pos = n
      · exact .inl here
      · exact .inr ⟨by omega, h.2⟩
  · rename_i other
    refine ⟨b, rfl, valid, ?_⟩
    rw [denotes]
    ext pos
    simp only [onesFrom, Set.mem_ofPred_eq]
    constructor
    · exact fun h => ⟨by omega, h.2⟩
    · intro h
      have differs : pos ≠ n := fun same => other (same ▸ h.2)
      exact ⟨by omega, h.2⟩

theorem fromStringFrom_spec (str : List Char) (n : Nat) (b : BitSet) (inside : n < str.length)
    (length : str.length < 2 ^ 64) (valid : b.Valid) (denotes : b.toSet = onesFrom str (n + 1))
    (small : ∀ pos, str[pos]? = some '1' → pos / 64 < maxBlocks) :
    ∃ r, fromStringFrom str n b = .ok r ∧ r.Valid ∧ r.toSet = onesFrom str 0 := by
  induction n generalizing b with
  | zero => exact fromStringStep_spec str 0 b inside length valid denotes small
  | succ n ih =>
    obtain ⟨r, ok, validR, set⟩ := fromStringStep_spec str (n + 1) b inside length valid denotes small
    obtain ⟨final, done, rest⟩ := ih r (by omega) validR set
    refine ⟨final, ?_, rest⟩
    simp only [fromStringFrom, ok]
    exact done

theorem fromString_spec (str : List Char) (length : str.length < 2 ^ 64)
    (small : ∀ pos, str[pos]? = some '1' → pos / 64 < maxBlocks) :
    ∃ r, fromString str = .ok r ∧ r.Valid ∧ r.toSet = {pos | str[pos]? = some '1'} := by
  have all : onesFrom str 0 = {pos | str[pos]? = some '1'} := by
    simp [onesFrom]
  unfold fromString
  split
  · rename_i zero
    refine ⟨⟨[]⟩, rfl, valid_nil, ?_⟩
    have nil : str = [] := List.length_eq_zero_iff.mp zero
    ext pos
    simp [nil, mem_toSet, has, block]
  · have above : toSet ⟨[]⟩ = onesFrom str (str.length - 1 + 1) := by
      ext pos
      simp only [mem_toSet, has, block, List.getD_nil, BitVec.getLsbD_zero, Bool.false_eq_true, onesFrom,
        Set.mem_ofPred_eq, false_iff, not_and]
      intro past
      rw [List.getElem?_eq_none (by omega)]
      simp
    rw [← all]
    exact fromStringFrom_spec str _ ⟨[]⟩ (by omega) length valid_nil above small

end TFCommon.BitSet
