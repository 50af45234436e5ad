import Mathlib.Logic.Function.Basic
import TFCommon.BitSet.Algebra
import TFCommon.Lib.Run

/-! Programs over bitset variables. Every run of the mutators is simulated by the same run
on sets of positions, and the only fault a run can meet is a position too large to store. -/
namespace TFCommon.BitSet

inductive Op where
  | set (x : Nat) (pos : SizeT)
  | reset (x : Nat) (pos : SizeT)
  | clear (x : Nat)
  | and (z x y : Nat)
  | or (z x y : Nat)
  | andAssign (x y : Nat)
  | orAssign (x y : Nat)
  | setAll (x y : Nat)
  | resetAll (x y : Nat)
  | buildComplement (z x y : Nat)
  | buildIntersection (z x y : Nat)
  | fromString (x : Nat) (str : List Char)

namespace Op

def target : Op → Nat
  | set x _ | reset x _ | clear x | andAssign x _ | orAssign x _ | setAll x _ | resetAll x _
  | fromString x _ => x
  | and z _ _ | or z _ _ | buildComplement z _ _ | buildIntersection z _ _ => z

def result (σ : Nat → BitSet) : Op → Except Fault BitSet
  | set x pos => (σ x).set pos
  | reset x pos => .ok ((σ x).reset pos)
  | clear x => .ok (σ x).clear
  | and _ x y => (σ x).and (σ y)
  | or _ x y => (σ x).or (σ y)
  | andAssign x y => (σ x).andAssign (σ y)
  | orAssign x y => (σ x).orAssign (σ y)
  | setAll x y => (σ x).setAll (σ y)
  | resetAll x y => (σ x).resetAll (σ y)
  | buildComplement _ x y => BitSet.buildComplement (σ x) (σ y)
  | buildIntersection _ x y => BitSet.buildIntersection (σ x) (σ y)
  | fromString _ str => BitSet.fromString str

/-- The set that the operation is specified to leave in its target. -/
def denote (S : Nat → Set Nat) : Op → Set Nat
  | set x pos => insert pos.val (S x)
  | reset x pos => S x \ {pos.val}
  | clear _ => ∅
  | and _ x y | andAssign x y | buildIntersection _ x y => S x ∩ S y
  | or _ x y | orAssign x y | setAll x y => S x ∪ S y
  | resetAll x y | buildComplement _ x y => S x \ S y
  | fromString _ str => {pos | str[pos]? = some '1'}

/-- `Build*` clear the target before they read the arguments, which are distinct objects. -/
def Legal : Op → Prop
  | buildComplement z x y | buildIntersection z x y => z ≠ x ∧ z ≠ y
  | fromString _ str => str.length < 2 ^ 64
  | _ => True

def TooLarge : Op → Prop
  | set _ pos => maxBlocks ≤ pos.val / 64
  | fromString _ str => ∃ pos : Nat, str[pos]? = some '1' ∧ maxBlocks ≤ pos / 64
  | _ => False

end Op

def exec (σ : Nat → BitSet) (op : Op) : Except Fault (Nat → BitSet) :=
  (op.result σ).map (Function.update σ op.target)

def execSets (S : Nat → Set Nat) (op : Op) : Nat → Set Nat :=
  Function.update S op.target (op.denote S)

def Denotes (σ : Nat → BitSet) (S : Nat → Set Nat) : Prop :=
  ∀ x, (σ x).Valid ∧ (σ x).toSet = S x

theorem fromStringFrom_error (str : List Char) (n : Nat) (b : BitSet) (inside : n < str.length)
    (length : str.length < 2 ^ 64) (valid : b.Valid) (pos : Nat) (one : str[pos]? = some '1')
    (here : pos ≤ n) (large : maxBlocks ≤ pos / 64) : fromStringFrom str n b = .error .badAlloc := by
  have value : ∀ m, m ≤ n → (Fin.ofNat (2 ^ 64) m).val = m := fun m hm => Nat.mod_eq_of_lt (by omega)
  have oversized : ∀ m, m ≤ n → maxBlocks ≤ m / 64 → ∀ c : BitSet, c.Valid → str[m]? = some '1' →
      fromStringStep str m c = .error .badAlloc := by
    intro m hm big c validC isOne
    have index : maxBlocks ≤ blockIndex (Fin.ofNat (2 ^ 64) m) := by
      rw [blockIndex, value m hm]
      exact big
    simp only [fromStringStep, isOne, if_true, set_error c _ validC index]
  induction n generalizing b with
  | zero =>
    have first : pos = 0 := Nat.le_zero.mp here
    exact oversized 0 (Nat.le_refl 0) (first ▸ large) b valid (first ▸ one)
  | succ n ih =>
    by_cases last : str[n + 1]? = some '1'
    · have big : maxBlocks ≤ (n + 1) / 64 := Nat.le_trans large (Nat.div_le_div_right here)
      simp only [fromStringFrom, oversized (n + 1) (Nat.le_refl _) big b valid last]
      rfl
    · have earlier : pos ≠ n + 1 := fun same => last (same ▸ one)
      have skip : fromStringStep str (n + 1) b = .ok b := by simp only [fromStringStep, last, if_false]
      simp only [fromStringFrom, skip]
      exact ih b (by omega) valid (by omega) (fun m hm => value m (by omega)) (fun m hm => oversized m (by omega))

theorem result_spec (σ : Nat → BitSet) (S : Nat → Set Nat) (op : Op) (denotes : Denotes σ S)
    (legal : op.Legal) :
    (∃ r, op.result σ = .ok r ∧ r.Valid ∧ r.toSet = op.denote S) ∨
      (op.result σ = .error .badAlloc ∧ op.TooLarge) := by
  have valid : ∀ x, (σ x).Valid := fun x => (denotes x).1
  obtain rfl : S = fun x => (σ x).toSet := funext (fun x => (denotes x).2.symm)
  cases op with
  | set x pos =>
    by_cases large : maxBlocks ≤ blockIndex pos
    · exact .inr ⟨set_error (σ x) pos (valid x) large, large⟩
    · exact .inl (set_spec (σ x) pos (valid x) (Nat.lt_of_not_le large))
  | reset x pos => exact .inl ⟨_, rfl, reset_spec (σ x) pos (valid x)⟩
  | clear x => exact .inl ⟨_, rfl, valid_nil, (length_zero_iff _ valid_nil).mp rfl⟩
  | and z x y =>
    have h := (buildIntersection_blockwise (σ x) (σ y) (valid x)).checked
    exact .inl (h.toSet_eq _ (and_denotes (σ x) (σ y)))
  | or z x y =>
    have h := or_blockwise (σ x) (σ y) (valid x) (valid y)
    exact .inl (h.toSet_eq _ (or_denotes (σ x) (σ y)))
  | andAssign x y =>
    have h := andAssign_blockwise (σ x) (σ y) (valid x)
    exact .inl (h.toSet_eq _ (and_denotes (σ x) (σ y)))
  | orAssign x y =>
    have h := orAssign_blockwise (σ x) (σ y) (valid x) (valid y)
    exact .inl (h.toSet_eq _ (or_denotes (σ x) (σ y)))
  | setAll x y =>
    have h := (orAssign_blockwise (σ x) (σ y) (valid x) (valid y)).checked
    exact .inl (h.toSet_eq _ (or_denotes (σ x) (σ y)))
  | resetAll x y =>
    have h := resetAll_blockwise (σ x) (σ y) (valid x)
    exact .inl (h.toSet_eq _ (diff_denotes (σ x) (σ y)))
  | buildComplement z x y =>
    have h := buildComplement_blockwise (σ x) (σ y) (valid x)
    exact .inl (h.toSet_eq _ (diff_denotes (σ x) (σ y)))
  | buildIntersection z x y =>
    have h := buildIntersection_blockwise (σ x) (σ y) (valid x)
    exact .inl (h.toSet_eq _ (and_denotes (σ x) (σ y)))
  | fromString x str =>
    by_cases small : ∀ pos, str[pos]? = some '1' → pos / 64 < maxBlocks
    · exact .inl (fromString_spec str legal small)
    · push Not at small
      obtain ⟨pos, one, large⟩ := small
      refine .inr ⟨?_, pos, one, large⟩
      have inside : pos < str.length := (List.getElem?_eq_some_iff.mp one).1
      have positive : str.length ≠ 0 := by omega
      simp only [Op.result, fromString, positive]
      exact fromStringFrom_error str _ ⟨[]⟩ (by omega) legal valid_nil pos one (by omega) large

theorem exec_step (σ : Nat → BitSet) (S : Nat → Set Nat) (op : Op) (denotes : Denotes σ S) (legal : op.Legal) :
    (∃ next, exec σ op = .ok next ∧ Denotes next (execSets S op)) ∨
      ∃ e, exec σ op = .error e ∧ e = .badAlloc ∧ op.TooLarge := by
  rcases result_spec σ S op denotes legal with ⟨r, ok, valid, set⟩ | ⟨bad, large⟩
  · refine .inl ⟨Function.update σ op.target r, by simp only [exec, ok]; rfl, fun x => ?_⟩
    by_cases here : x = op.target
    · subst here
      simpa only [execSets, Function.update_self] using ⟨valid, set⟩
    · simpa only [execSets, Function.update_of_ne here] using denotes x
  · exact .inr ⟨.badAlloc, by simp only [exec, bad]; rfl, rfl, large⟩

theorem runs_denote (ops : List Op) (legal : ∀ op ∈ ops, op.Legal) :
    (∃ σ, run exec (fun _ => ⟨[]⟩) ops = .ok σ ∧ Denotes σ (ops.foldl execSets (fun _ => ∅))) ∨
      ∃ e, run exec (fun _ => ⟨[]⟩) ops = .error e ∧ ∃ op ∈ ops, e = .badAlloc ∧ op.TooLarge := by
  have start : Denotes (fun _ => ⟨[]⟩) (fun _ => ∅) := fun _ =>
    ⟨valid_nil, (length_zero_iff _ valid_nil).mp rfl⟩
  exact run_simulation exec execSets Denotes Op.Legal (fun e op => e = .badAlloc ∧ op.TooLarge)
    exec_step ops _ _ start legal

theorem runs_valid (ops : List Op) (σ : Nat → BitSet) (legal : ∀ op ∈ ops, op.Legal)
    (ran : run exec (fun _ => ⟨[]⟩) ops = .ok σ) (x : Nat) : (σ x).Valid := by
  rcases runs_denote ops legal with ⟨σ', ok, denotes⟩ | ⟨e, bad, _⟩
  · cases ran.symm.trans ok
    exact (denotes x).1
  · cases ran.symm.trans bad

/-- Every run of the mutators on initially empty bitsets computes the specified sets, with every
bitset canonical in between; equality and emptiness of blocks are those of the denoted sets. -/
theorem mutators_are_set_algebra (ops : List Op) (legal : ∀ op ∈ ops, op.Legal) :
    (∃ σ, run exec (fun _ => ⟨[]⟩) ops = .ok σ ∧ Denotes σ (ops.foldl execSets (fun _ => ∅)) ∧
      (∀ x y, (σ x).equal (σ y) = true ↔ (σ x).toSet = (σ y).toSet) ∧
      (∀ x, ((σ x).empty = true ↔ (σ x).toSet = ∅) ∧ ((σ x).none = true ↔ (σ x).toSet = ∅) ∧
        ((σ x).any = true ↔ (σ x).toSet ≠ ∅))) ∨
      (run exec (fun _ => ⟨[]⟩) ops = .error .badAlloc ∧ ∃ op ∈ ops, op.TooLarge) := by
  rcases runs_denote ops legal with ⟨σ, ok, denotes⟩ | ⟨e, bad, op, member, rfl, large⟩
  · left
    refine ⟨σ, ok, denotes, fun x y => equal_iff _ _ (denotes x).1 (denotes y).1, fun x => ?_⟩
    have zero := length_zero_iff (σ x) (denotes x).1
    simp [empty, none, any, zero]
  · exact .inr ⟨bad, op, member, large⟩

theorem union_program : ∃ σ, run exec (fun _ => ⟨[]⟩) [.set 0 3, .set 1 70, .or 2 0 1] = .ok σ ∧
    (σ 2).toSet = {3, 70} := by
  rcases mutators_are_set_algebra [.set 0 3, .set 1 70, .or 2 0 1] (by simp [Op.Legal]) with
    ⟨σ, ok, denotes, _⟩ | ⟨_, op, member, large⟩
  · refine ⟨σ, ok, (denotes 2).2.trans ?_⟩
    ext pos
    show (pos = (3 : SizeT).val ∨ pos ∈ (∅ : Set Nat)) ∨ pos = (70 : SizeT).val ∨ pos ∈ (∅ : Set Nat) ↔ pos = 3 ∨ pos = 70
    simp only [Set.mem_empty_iff_false, or_false]
    exact Iff.rfl
  · simp only [List.mem_cons, List.not_mem_nil, or_false] at member
    rcases member with rfl | rfl | rfl
    · exact absurd large (show ¬ maxBlocks ≤ (3 : SizeT).val / 64 by decide)
    · exact absurd large (show ¬ maxBlocks ≤ (70 : SizeT).val / 64 by decide)
    · exact absurd large id

end TFCommon.BitSet
