import Mathlib.Data.Set.Card
import Mathlib.Order.Bounds.Basic
import TFCommon.BitSet.Runs

/-! The searches and tests of a bitset read the denoted set. One lemma follows the block loop
for set and for clear bits alike; the two `next` searches share the treatment of the first block. -/
namespace TFCommon.BitSet

theorem mask_test (value : Block) (offset : Nat) (inside : offset < 64) :
    ((value &&& (1#64 <<< offset)) != 0#64) = value.getLsbD offset := by
  rw [← BitVec.twoPow_eq, BitVec.and_twoPow]
  cases value.getLsbD offset with
  | false => rfl
  | true => simp [← BitVec.toNat_inj, BitVec.toNat_twoPow_of_lt inside]

theorem test_iff (b : BitSet) (pos : SizeT) : b.test pos = true ↔ pos.val ∈ b.toSet := by
  have low : blockOffset pos < 64 := Nat.mod_lt _ (by decide)
  simp only [test]
  split
  · rw [mask_test _ _ low]
    rfl
  · rename_i outside
    constructor
    · exact nofun
    · intro hit
      have := has_lt b pos.val hit
      unfold blockIndex at outside
      omega

def shift : Nat ↪ Nat := ⟨fun n => n + 64, fun _ _ h => Nat.add_right_cancel h⟩

@[simp] theorem shift_apply (n : Nat) : shift n = n + 64 := rfl

def ones : List Block → Finset Nat
  | [] => ∅
  | value :: rest => bits value ∪ (ones rest).map shift

theorem bits_lt (value : Block) (i : Nat) (h : i ∈ bits value) : i < 64 :=
  BitVec.lt_of_getLsbD ((mem_bits value i).mp h)

theorem mem_ones (blocks : List Block) (pos : Nat) : pos ∈ ones blocks ↔ has ⟨blocks⟩ pos = true := by
  induction blocks generalizing pos with
  | nil => simp [ones, has, block]
  | cons value rest ih =>
    rw [ones, Finset.mem_union, mem_bits, Finset.mem_map]
    by_cases first : pos < 64
    · have zero : pos / 64 = 0 := Nat.div_eq_of_lt first
      have same : pos % 64 = pos := Nat.mod_eq_of_lt first
      simp only [has, block, zero, same, List.getD_cons_zero, or_iff_left_iff_imp, forall_exists_index, and_imp]
      intro q _ eq
      rw [shift_apply] at eq
      omega
    · have index : pos / 64 = (pos - 64) / 64 + 1 := by omega
      have offset : pos % 64 = (pos - 64) % 64 := by omega
      have absent : value.getLsbD pos = false := BitVec.getLsbD_of_ge value pos (by omega)
      have tail := ih (pos - 64)
      simp only [has, block] at tail
      simp only [has, block, index, offset, List.getD_cons_succ, absent, Bool.false_eq_true, false_or, ← tail]
      constructor
      · rintro ⟨q, member, eq⟩
        rw [shift_apply] at eq
        have : pos - 64 = q := by omega
        exact this ▸ member
      · intro member
        refine ⟨pos - 64, member, ?_⟩
        rw [shift_apply]
        omega

theorem card_ones (blocks : List Block) (start : Nat) :
    blocks.foldl (fun count value => count + numBitsSet value) start = start + (ones blocks).card := by
  induction blocks generalizing start with
  | nil => simp [ones]
  | cons value rest ih =>
    have separate : Disjoint (bits value) ((ones rest).map shift) := by
      rw [Finset.disjoint_left]
      intro i low high
      obtain ⟨q, _, eq⟩ := Finset.mem_map.mp high
      have := bits_lt value i low
      rw [shift_apply] at eq
      omega
    rw [List.foldl_cons, ih, ones, Finset.card_union_of_disjoint separate, Finset.card_map, numBitsSet_spec]
    omega

theorem count_eq (b : BitSet) : b.count = b.toSet.ncard := by
  have same : b.toSet = (ones b.blocks : Set Nat) := by
    ext pos
    rw [mem_toSet, Finset.mem_coe, mem_ones]
  rw [count, card_ones, same, Set.ncard_coe_finset]
  omega

def SearchResult (p : Nat → Bool) (lo hi : Nat) : Option SizeT → Prop
  | .none => ∀ q, lo ≤ q → q < hi → p q = false
  | some r => ∃ q, r = Fin.ofNat (2 ^ 64) q ∧ lo ≤ q ∧ q < hi ∧ p q = true ∧ ∀ j, lo ≤ j → j < q → p j = false

theorem SearchResult.extend {p : Nat → Bool} {lo mid hi : Nat} {result : Option SizeT} (h : SearchResult p mid hi result)
    (below : lo ≤ mid) (clean : ∀ q, lo ≤ q → q < mid → p q = false) : SearchResult p lo hi result := by
  have before_ : ∀ q, lo ≤ q → (mid ≤ q → p q = false) → p q = false := fun q low rest =>
    (Nat.lt_or_ge q mid).elim (clean q low) rest
  cases result with
  | none => exact fun q low high => before_ q low fun later => h q later high
  | some r =>
    obtain ⟨q, rq, low, high, found, none⟩ := h
    exact ⟨q, rq, by omega, high, found, fun j lowJ less => before_ j lowJ fun later => none j later less⟩

def atPosition (b : BitSet) (p : Block → Nat → Bool) (q : Nat) : Bool := p (b.block (q / 64)) (q % 64)

theorem block_search {b : BitSet} {find : Block → Nat} {p : Block → Nat → Bool} {v : Block} {idx lo : Nat}
    {rest : Option SizeT} (first : IsFirst (p v) (find v)) (bound : idx < b.blocks.length)
    (inside : ∀ i, p v i = true → i < 64 ∧ lo ≤ idx * 64 + i) (start : idx * 64 ≤ lo ∧ lo ≤ (idx + 1) * 64)
    (agree : ∀ q, lo ≤ q → q < (idx + 1) * 64 → b.atPosition p q = p v (q % 64))
    (later : SearchResult (b.atPosition p) ((idx + 1) * 64) (b.blocks.length * 64) rest) :
    SearchResult (b.atPosition p) lo (b.blocks.length * 64)
      (if 0 < find v then some (bitPosition idx (find v - 1)) else rest) := by
  rcases first with ⟨zero, absent⟩ | ⟨i, eq, hit, least⟩
  · rw [if_neg (by omega)]
    refine later.extend start.2 fun q low near => ?_
    rw [agree q low near, absent]
  · obtain ⟨small, above⟩ := inside i hit
    rw [if_pos (by omega)]
    refine ⟨idx * 64 + i, by rw [eq]; rfl, above, by omega, ?_, fun j low below => ?_⟩
    · have remainder : (idx * 64 + i) % 64 = i := by omega
      rw [agree _ above (by omega), remainder, hit]
    · rw [agree j low (by omega)]
      exact least _ (by omega)

theorem search_spec (b : BitSet) (find : Block → Nat) (p : Block → Nat → Bool)
    (first : ∀ v, IsFirst (p v) (find v)) (inside : ∀ v i, p v i = true → i < 64)
    (rest : List Block) (idx : Nat) (suffix : b.blocks.drop idx = rest) :
    SearchResult (b.atPosition p) (idx * 64) (b.blocks.length * 64) (searchFrom find idx rest) := by
  induction rest generalizing idx with
  | nil =>
    have past : b.blocks.length ≤ idx := List.drop_eq_nil_iff.mp suffix
    intro q low high
    omega
  | cons value rest ih =>
    have bound : idx < b.blocks.length := by
      apply Nat.lt_of_not_le
      intro past
      rw [List.drop_eq_nil_iff.mpr past] at suffix
      cases suffix
    have here : b.block idx = value := by
      have cell : b.blocks[idx]? = some value := by
        rw [← List.head?_drop, suffix]
        rfl
      simp [block, cell]
    have tail : b.blocks.drop (idx + 1) = rest := by
      rw [← List.tail_drop, suffix]
      rfl
    refine block_search (first value) bound (fun i hit => ⟨inside value i hit, by omega⟩) (by omega) ?_ (ih (idx + 1) tail)
    intro q low high
    have index : q / 64 = idx := by omega
    simp only [atPosition, index, here]

theorem low_mask_bit (n j : Nat) (h : n < 64) : ((1#64 <<< n) - 1).getLsbD j = decide (j < n) := by
  have shifted : (1#64 <<< n).toNat = 2 ^ n := BitVec.toNat_twoPow_of_lt h
  have value : ((1#64 <<< n) - 1).toNat = 2 ^ n - 1 := by
    have positive := Nat.two_pow_pos n
    rw [BitVec.toNat_sub_of_le (by simp [BitVec.le_def, shifted]; omega), shifted]
    rfl
  rw [BitVec.getLsbD, value, Nat.testBit_two_pow_sub_one]

theorem next_spec (b : BitSet) (pos : SizeT) (find : Block → Nat) (p : Block → Nat → Bool) (temp : Block)
    (first : ∀ v, IsFirst (p v) (find v)) (inside : ∀ v i, p v i = true → i < 64)
    (bound : blockIndex pos < b.blocks.length)
    (masked : blockOffset pos < 63 → ∀ j, p temp j = (p (b.block (blockIndex pos)) j && decide (blockOffset pos < j))) :
    SearchResult (b.atPosition p) (pos.val + 1) (b.blocks.length * 64)
      (if blockOffset pos < 63 ∧ 0 < find temp then some (bitPosition (blockIndex pos) (find temp - 1))
        else searchFrom find (blockIndex pos + 1) (b.blocks.drop (blockIndex pos + 1))) := by
  have later := search_spec b find p first inside _ (blockIndex pos + 1) rfl
  have split : pos.val = blockIndex pos * 64 + blockOffset pos := by
    unfold blockIndex blockOffset
    omega
  by_cases room : blockOffset pos < 63
  · simp only [room, true_and]
    refine block_search (first temp) bound (fun i hit => ?_) (by omega) (fun q low high => ?_) later
    · rw [masked room, Bool.and_eq_true, decide_eq_true_eq] at hit
      exact ⟨inside _ _ hit.1, by omega⟩
    · have index : q / 64 = blockIndex pos := by omega
      have beyond : blockOffset pos < q % 64 := by omega
      simp [atPosition, index, masked room, beyond]
  · have small : blockOffset pos < 64 := Nat.mod_lt _ (by decide)
    have last : pos.val + 1 = (blockIndex pos + 1) * 64 := by omega
    rw [last, if_neg fun found => room found.1]
    exact later

theorem SearchResult.isLeast {p : Nat → Bool} {lo hi : Nat} {r : SizeT} (h : SearchResult p lo hi (some r))
    (fits : hi < 2 ^ 64) : IsLeast {q | lo ≤ q ∧ p q = true} r.val ∧ r.val < hi := by
  obtain ⟨q, rq, low, high, hit, before⟩ := h
  have value : r.val = q := by
    rw [rq]
    exact Nat.mod_eq_of_lt (by omega)
  rw [value]
  refine ⟨⟨⟨low, hit⟩, fun j hj => ?_⟩, high⟩
  apply Nat.le_of_not_lt
  intro below
  simp [before j hj.1 below] at hj

theorem getD_found (c : Prop) [Decidable c] (r other : SizeT) (rest : Option SizeT) :
    (if c then some r else rest).getD other = if c then r else rest.getD other := by
  split <;> rfl

theorem set_inside (v : Block) (i : Nat) (h : v.getLsbD i = true) : i < 64 := BitVec.lt_of_getLsbD h

def clearBit (v : Block) (i : Nat) : Bool := decide (i < 64) && !v.getLsbD i

theorem clear_inside (v : Block) (i : Nat) (h : clearBit v i = true) : i < 64 := by
  simp only [clearBit, Bool.and_eq_true, decide_eq_true_eq] at h
  exact h.1

theorem clear_iff (b : BitSet) (q : Nat) : b.atPosition clearBit q = true ↔ q ∉ b.toSet := by
  have range : q % 64 < 64 := Nat.mod_lt _ (by decide)
  simp [atPosition, clearBit, range, mem_toSet, has]

def LeastOrNpos (S : Set Nat) (r : SizeT) : Prop :=
  (r = npos ↔ S = ∅) ∧ (S.Nonempty → IsLeast S r.val)

theorem npos_val : npos.val = 2 ^ 64 - 1 := rfl

theorem fits_size (b : BitSet) (valid : b.Valid) : b.blocks.length * 64 < 2 ^ 64 - 1 := by
  have := valid.fits
  unfold maxBlocks at this
  omega

theorem SearchResult.leastOrNpos {p : Nat → Bool} {lo hi : Nat} {result : Option SizeT} (S : Set Nat)
    (h : SearchResult p lo hi result) (fits : hi < 2 ^ 64 - 1) (member : ∀ q, q ∈ S ↔ lo ≤ q ∧ p q = true)
    (bounded : ∀ q ∈ S, q < hi) : LeastOrNpos S (result.getD npos) := by
  cases result with
  | none =>
    have empty : S = ∅ := by
      refine Set.eq_empty_iff_forall_notMem.mpr fun q inside => ?_
      obtain ⟨low, hit⟩ := (member q).mp inside
      simp [h q low (bounded q inside)] at hit
    exact ⟨iff_of_true rfl empty, fun some_ => absurd empty some_.ne_empty⟩
  | some r =>
    obtain ⟨least, inside⟩ := h.isLeast (by omega)
    rw [← Set.ext member] at least
    refine ⟨iff_of_false (fun isNpos => ?_) (Set.Nonempty.ne_empty ⟨_, least.1⟩), fun _ => least⟩
    rw [Option.getD_some] at isNpos
    rw [isNpos, npos_val] at inside
    omega

theorem findFirst_spec (b : BitSet) (valid : b.Valid) : LeastOrNpos b.toSet b.findFirst := by
  have h := search_spec b findFirstSet64 BitVec.getLsbD findFirstSet64_spec set_inside b.blocks 0 rfl
  refine h.leastOrNpos _ (fits_size b valid) (fun q => ?_) (has_lt b)
  simp only [Nat.zero_mul, Nat.zero_le, true_and]
  rfl

theorem findNext_spec (b : BitSet) (pos : SizeT) (valid : b.Valid) :
    LeastOrNpos {q ∈ b.toSet | pos.val < q} (b.findNext pos) := by
  simp only [findNext]
  split
  · rename_i past
    have empty : {q ∈ b.toSet | pos.val < q} = ∅ := by
      ext q
      simp only [Set.mem_ofPred_eq, Set.mem_empty_iff_false, iff_false, not_and]
      intro hit after
      have := has_lt b q hit
      unfold blockIndex at past
      omega
    rw [empty]
    exact ⟨by simp, fun h => absurd h Set.not_nonempty_empty⟩
  · have h := next_spec b pos findFirstSet64 BitVec.getLsbD
      (b.block (blockIndex pos) &&& ~~~((1#64 <<< (blockOffset pos + 1)) - 1)) findFirstSet64_spec set_inside
      (by omega) (fun room j => by
        rw [BitVec.getLsbD_and, BitVec.getLsbD_not, low_mask_bit _ _ (by omega)]
        cases bit : (b.block (blockIndex pos)).getLsbD j with
        | false => rfl
        | true =>
          have range := set_inside _ _ bit
          by_cases after : blockOffset pos < j
          · simp [range, after]
          · have h : j < blockOffset pos + 1 := by omega
            simp [after, h])
    have result := h.leastOrNpos {q ∈ b.toSet | pos.val < q} (fits_size b valid) (fun q => by
      rw [and_comm]; rfl) (fun q hq => has_lt b q hq.1)
    rwa [getD_found] at result

theorem findLast_spec (b : BitSet) (valid : b.Valid) :
    (b.findLast = npos ↔ b.toSet = ∅) ∧ (b.toSet.Nonempty → IsGreatest b.toSet b.findLast.val) := by
  have fits := fits_size b valid
  simp only [findLast]
  split
  · rename_i zero
    have empty := (length_zero_iff b valid).mp zero
    rw [empty]
    exact ⟨by simp, fun h => absurd h Set.not_nonempty_empty⟩
  · rename_i positive
    have last := valid.canonical positive
    obtain ⟨offset, range, hit⟩ := exists_bit _ last
    rcases findLastSet64_spec (b.block (b.blocks.length - 1)) with ⟨_, none⟩ | ⟨i, eq, top, greatest⟩
    · rw [none] at hit
      cases hit
    · have small := set_inside _ _ top
      have value : (bitPosition (b.blocks.length - 1) (findLastSet64 (b.block (b.blocks.length - 1)) - 1)).val =
          (b.blocks.length - 1) * 64 + i := by
        rw [eq]
        exact Nat.mod_eq_of_lt (by omega)
      have member : (b.blocks.length - 1) * 64 + i ∈ b.toSet := by
        rw [mem_toSet, has_position _ _ _ small]
        exact top
      have nonempty : b.toSet ≠ ∅ := fun empty => by simp [empty] at member
      rw [if_pos (by omega)]
      refine ⟨⟨fun isNpos => ?_, fun empty => absurd empty nonempty⟩, fun _ => ⟨?_, fun q hq => ?_⟩⟩
      · have := congrArg Fin.val isNpos
        rw [npos_val] at this
        omega
      · rw [value]
        exact member
      · have high := has_lt b q hq
        apply Nat.le_of_not_lt
        intro above
        have index : q / 64 = b.blocks.length - 1 := by omega
        have absent := greatest (q % 64) (by omega)
        rw [mem_toSet, has, index, absent] at hq
        cases hq

theorem size_val (b : BitSet) (valid : b.Valid) : b.size.val = b.blocks.length * 64 := by
  have := fits_size b valid
  exact Nat.mod_eq_of_lt (by omega)

theorem SearchResult.leastClear (b : BitSet) (valid : b.Valid) {lo : Nat} {result : Option SizeT}
    (h : SearchResult (b.atPosition clearBit) lo (b.blocks.length * 64) result) (low : lo ≤ b.blocks.length * 64) :
    IsLeast {q | lo ≤ q ∧ q ∉ b.toSet} (result.getD b.size).val := by
  have fits := fits_size b valid
  cases result with
  | none =>
    simp only [Option.getD_none, size_val b valid]
    refine ⟨⟨low, fun hit => absurd (has_lt b _ hit) (Nat.lt_irrefl _)⟩, fun q hq => ?_⟩
    apply Nat.le_of_not_lt
    intro below
    have clear := h q hq.1 below
    rw [(clear_iff b q).mpr hq.2] at clear
    cases clear
  | some r =>
    have same : {q | lo ≤ q ∧ b.atPosition clearBit q = true} = {q | lo ≤ q ∧ q ∉ b.toSet} := by simp only [clear_iff]
    exact same ▸ (h.isLeast (by omega)).1

theorem findFirstClear_spec (b : BitSet) (valid : b.Valid) : IsLeast {q | q ∉ b.toSet} b.findFirstClear.val := by
  have h := search_spec b findFirstClear64 clearBit findFirstClear64_spec clear_inside b.blocks 0 rfl
  simpa [findFirstClear] using h.leastClear b valid (by omega)

theorem findNextClear_spec (b : BitSet) (pos : SizeT) (valid : b.Valid) (room : pos ≠ npos) :
    IsLeast {q | pos.val < q ∧ q ∉ b.toSet} (b.findNextClear pos).val := by
  simp only [findNextClear]
  split
  · rename_i past
    have bound : pos.val + 1 < 2 ^ 64 := by
      have differs : pos.val ≠ 2 ^ 64 - 1 := fun h => room (Fin.ext h)
      omega
    have value : (pos + 1).val = pos.val + 1 := by
      exact Nat.mod_eq_of_lt bound
    rw [value]
    refine ⟨⟨Nat.lt_succ_self _, fun hit => ?_⟩, fun q hq => hq.1⟩
    have := has_lt b _ hit
    unfold blockIndex at past
    omega
  · rename_i inside
    have h := next_spec b pos findFirstClear64 clearBit
      (b.block (blockIndex pos) ||| ((1#64 <<< (blockOffset pos + 1)) - 1)) findFirstClear64_spec clear_inside
      (by omega) (fun space j => by
        simp only [clearBit, BitVec.getLsbD_or, low_mask_bit _ _ (show blockOffset pos + 1 < 64 by omega)]
        by_cases after : blockOffset pos < j
        · have h : ¬ j < blockOffset pos + 1 := by omega
          simp [after, h]
        · have h : j < blockOffset pos + 1 := by omega
          simp [after, h])
    have low : pos.val + 1 ≤ b.blocks.length * 64 := by
      unfold blockIndex at inside
      omega
    have result := h.leastClear b valid low
    rwa [getD_found] at result

theorem intersects_iff (b c : BitSet) : b.intersects c = true ↔ (b.toSet ∩ c.toSet).Nonempty := by
  simp only [intersects, List.any_eq_true, List.mem_range, bne_iff_ne]
  constructor
  · rintro ⟨idx, _, nonzero⟩
    obtain ⟨offset, range, hit⟩ := exists_bit _ nonzero
    rw [BitVec.getLsbD_and, Bool.and_eq_true] at hit
    refine ⟨idx * 64 + offset, ?_, ?_⟩
    · rw [mem_toSet, has_position _ _ _ range]
      exact hit.1
    · rw [mem_toSet, has_position _ _ _ range]
      exact hit.2
  · rintro ⟨pos, hitB, hitC⟩
    have boundB := has_lt b pos hitB
    have boundC := has_lt c pos hitC
    refine ⟨pos / 64, by omega, fun zero => ?_⟩
    have bit := (and_denotes b c pos).mp ⟨hitB, hitC⟩
    rw [zero] at bit
    simp at bit

theorem contains_iff (b c : BitSet) (hc : c.Valid) : b.contains c = true ↔ c.toSet ⊆ b.toSet := by
  simp only [contains, Bool.and_eq_true, Bool.not_eq_true', decide_eq_false_iff_not, List.all_eq_true,
    List.mem_range, beq_iff_eq]
  constructor
  · rintro ⟨_, blocks⟩ pos hit
    have bound := has_lt c pos hit
    have zero := blocks (pos / 64) (by omega)
    apply Classical.byContradiction
    intro absent
    have bit := (diff_denotes c b pos).mp ⟨hit, absent⟩
    rw [zero] at bit
    simp at bit
  · intro subset
    have clear : ∀ idx, c.block idx &&& ~~~b.block idx = 0#64 := by
      intro idx
      apply BitVec.eq_of_getLsbD_eq
      intro i range
      have position := diff_denotes c b (idx * 64 + i)
      have quotient : (idx * 64 + i) / 64 = idx := by omega
      have remainder : (idx * 64 + i) % 64 = i := by omega
      rw [quotient, remainder] at position
      rw [BitVec.getLsbD_zero, ← Bool.not_eq_true, ← position]
      exact fun h => h.2 (subset h.1)
    refine ⟨fun shorter => ?_, fun idx _ => clear idx⟩
    have last := hc.canonical (by omega)
    have zero := clear (c.blocks.length - 1)
    rw [block_past b _ (by omega), BitVec.not_zero, BitVec.and_allOnes] at zero
    exact last zero

/-- On every bitset that a run of the mutators builds, the queries read off the denoted set. A
position after `pos` exists unless `pos` is the largest `size_t`, where `pos + 1` wraps to 0. -/
theorem queries_agree_with_set (ops : List Op) (σ : Nat → BitSet) (legal : ∀ op ∈ ops, op.Legal)
    (ran : run exec (fun _ => ⟨[]⟩) ops = .ok σ) (x y : Nat) (pos : SizeT) :
    ((σ x).test pos = true ↔ pos.val ∈ (σ x).toSet) ∧
    (σ x).count = (σ x).toSet.ncard ∧
    LeastOrNpos (σ x).toSet (σ x).findFirst ∧
    LeastOrNpos {q ∈ (σ x).toSet | pos.val < q} ((σ x).findNext pos) ∧
    (((σ x).findLast = npos ↔ (σ x).toSet = ∅) ∧
      ((σ x).toSet.Nonempty → IsGreatest (σ x).toSet (σ x).findLast.val)) ∧
    IsLeast {q | q ∉ (σ x).toSet} (σ x).findFirstClear.val ∧
    ((∃ q : SizeT, pos < q) → IsLeast {q | pos.val < q ∧ q ∉ (σ x).toSet} ((σ x).findNextClear pos).val) ∧
    ((σ x).intersects (σ y) = true ↔ ((σ x).toSet ∩ (σ y).toSet).Nonempty) ∧
    ((σ x).contains (σ y) = true ↔ (σ y).toSet ⊆ (σ x).toSet) := by
  have valid : ∀ z, (σ z).Valid := runs_valid ops σ legal ran
  refine ⟨test_iff _ pos, count_eq _, findFirst_spec _ (valid x), findNext_spec _ pos (valid x),
    findLast_spec _ (valid x), findFirstClear_spec _ (valid x), fun ⟨q, after⟩ => ?_, intersects_iff _ _,
    contains_iff _ _ (valid y)⟩
  apply findNextClear_spec _ pos (valid x)
  rintro rfl
  have := Fin.lt_def.mp after
  rw [npos_val] at *
  omega

theorem queries_on_two_bits : ∃ σ, run exec (fun _ => ⟨[]⟩) [.set 0 3, .set 0 70] = .ok σ ∧
    (σ 0).count = (σ 0).toSet.ncard ∧ (σ 0).test 3 = true ∧ 3 ∈ (σ 0).toSet := by
  have ran : run exec (fun _ => ⟨[]⟩) [.set 0 3, .set 0 70] =
      .ok (Function.update (Function.update (fun _ => ⟨[]⟩) 0 ⟨[8]⟩) 0 ⟨[8, 64]⟩) := by rfl
  have all := queries_agree_with_set [.set 0 3, .set 0 70] _ (by simp [Op.Legal]) ran 0 0 3
  exact ⟨_, ran, all.2.1, by decide, all.1.mp (by decide)⟩

end TFCommon.BitSet
