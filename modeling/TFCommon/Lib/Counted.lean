import Mathlib.Data.BitVec

/-! Functions that return how many bytes they have moved, as a 32-bit integer, or a negative code. A caller adds up what
the functions it calls return, and returns early when one of them fails. -/
namespace TFCommon

inductive Returned (α : Type) where
  | failed (code : BitVec 32)
  | done (n : BitVec 32) (a : α)
deriving DecidableEq, Repr

def Returned.value {α : Type} : Returned α → Int
  | .failed code => code.toInt
  | .done n _ => n.toInt

def Counted (σ α : Type) : Type := σ → Returned α × σ

namespace Counted
variable {σ α β : Type}

instance : Monad (Counted σ) where
  pure a s := (.done 0 a, s)
  bind p next s :=
    match p s with
    | (.failed code, t) => (.failed code, t)
    | (.done n a, t) =>
      match next a t with
      | (.failed code, u) => (.failed code, u)
      | (.done m b, u) => (.done (n + m) b, u)

def fail (code : BitVec 32) : Counted σ α := fun s => (.failed code, s)

/-- What a caller sees of a function: a sum that is negative is a failure. -/
def call (body : Counted σ α) : Counted σ α := fun s =>
  match body s with
  | (.done n a, t) => (if n.msb then .failed n else .done n a, t)
  | (.failed code, t) => (.failed code, t)

/-- From the states that are allowed, `n` bytes are moved, with the given effect. -/
def Transfers (pre : σ → Prop) (effect : σ → σ → Prop) (p : Counted σ α) (n : Nat) (a : α) : Prop :=
  ∀ s, pre s → ∃ t, p s = (.done (BitVec.ofNat 32 n) a, t) ∧ effect s t

def Fails (pre : σ → Prop) (p : Counted σ α) : Prop :=
  ∀ s, pre s → ∃ code t, p s = (.failed code, t) ∧ code.msb = true

variable {pre pre' before : σ → Prop} {effect effect' whole : σ → σ → Prop} {p : Counted σ α} {next : α → Counted σ β}
  {n m : Nat} {a : α} {b : β}

theorem Transfers.bind (first : Transfers pre effect p n a) (second : Transfers pre' effect' (next a) m b)
    (allowed : ∀ s, before s → pre s ∧ ∀ t, effect s t → pre' t)
    (composed : ∀ s t u, before s → effect s t → effect' t u → whole s u) :
    Transfers before whole (p >>= next) (n + m) b := by
  intro s start
  obtain ⟨t, ran, moved⟩ := first s (allowed s start).1
  obtain ⟨u, later, moved'⟩ := second t ((allowed s start).2 t moved)
  refine ⟨u, ?_, composed s t u start moved moved'⟩
  simp only [Bind.bind, ran, later, BitVec.ofNat_add]

theorem msb_ofNat : (BitVec.ofNat 32 n).msb = decide (2 ^ 31 ≤ n % 2 ^ 32) := by
  rw [BitVec.msb_eq_decide, BitVec.toNat_ofNat]

theorem Transfers.call (moves : Transfers pre effect p n a) (small : n % 2 ^ 32 < 2 ^ 31) :
    Transfers pre effect (call p) n a := by
  intro s start
  obtain ⟨t, ran, done⟩ := moves s start
  refine ⟨t, ?_, done⟩
  simp only [Counted.call, ran, msb_ofNat, decide_eq_true_eq]
  rw [if_neg (by omega)]

theorem Transfers.fails_call (moves : Transfers pre effect p n a) (large : 2 ^ 31 ≤ n % 2 ^ 32) :
    Fails pre (Counted.call p) := by
  intro s start
  obtain ⟨t, ran, _⟩ := moves s start
  refine ⟨BitVec.ofNat 32 n, t, ?_, ?_⟩
  · simp only [Counted.call, ran, msb_ofNat, decide_eq_true_eq]
    rw [if_pos large]
  · rw [msb_ofNat]
    exact decide_eq_true large

theorem Fails.call (fails : Fails pre p) : Fails pre (Counted.call p) := by
  intro s start
  obtain ⟨code, t, ran, negative⟩ := fails s start
  exact ⟨code, t, by simp only [Counted.call, ran], negative⟩

theorem Fails.bind (fails : Fails pre p) : Fails pre (p >>= next) := by
  intro s start
  obtain ⟨code, t, ran, negative⟩ := fails s start
  exact ⟨code, t, by simp only [Bind.bind, ran], negative⟩

theorem Transfers.fails_bind (first : Transfers pre effect p n a) (fails : Fails pre' (next a))
    (allowed : ∀ s t, pre s → effect s t → pre' t) : Fails pre (p >>= next) := by
  intro s start
  obtain ⟨t, ran, moved⟩ := first s start
  obtain ⟨code, u, later, negative⟩ := fails t (allowed s t start moved)
  exact ⟨code, u, by simp only [Bind.bind, ran, later], negative⟩

end Counted

end TFCommon
