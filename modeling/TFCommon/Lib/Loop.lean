import Mathlib.Init

/-! A `while` loop with a bound on its turns. `none` is a fault of the body or an exhausted
bound, so a result of the form `some` says that the loop left the body's exits. -/
namespace TFCommon

inductive Turn (σ ρ : Type) where
  | again (s : σ)
  | exit (r : ρ)

def loop {σ ρ : Type} (body : σ → Option (Turn σ ρ)) : Nat → σ → Option ρ
  | 0, _ => none
  | turns + 1, s =>
    match body s with
    | none => none
    | some (.exit r) => some r
    | some (.again next) => loop body turns next

def trail {σ ρ : Type} (body : σ → Option (Turn σ ρ)) : Nat → σ → List σ
  | 0, _ => []
  | turns + 1, s => s ::
    match body s with
    | some (.again next) => trail body turns next
    | _ => []

/-- A call ends with a result: from some bound on its turns on, every bound gives it. -/
def Returns {ρ : Type} (call : Nat → Option ρ) (result : ρ) : Prop :=
  ∃ enough, ∀ turns, enough ≤ turns → call turns = some result

theorem Returns.map {ρ τ : Type} {call : Nat → Option ρ} {result : ρ} (f : ρ → τ) (ends : Returns call result) :
    Returns (fun turns => (call turns).map f) (f result) := by
  obtain ⟨enough, same⟩ := ends
  exact ⟨enough, fun turns more => congrArg (Option.map f) (same turns more)⟩

theorem Returns.unique {ρ : Type} {call : Nat → Option ρ} {a b : ρ} (left : Returns call a) (right : Returns call b) : a = b := by
  obtain ⟨n, first⟩ := left
  obtain ⟨m, second⟩ := right
  exact Option.some.inj ((first (max n m) (Nat.le_max_left n m)).symm.trans (second (max n m) (Nat.le_max_right n m)))

theorem not_returns {ρ : Type} {call : Nat → Option ρ} (never : ∀ turns, call turns = none) (result : ρ) :
    ¬ Returns call result := by
  rintro ⟨enough, same⟩
  have both := (never enough).symm.trans (same enough (Nat.le_refl _))
  contradiction

section
variable {σ ρ : Type} {body : σ → Option (Turn σ ρ)}

theorem loop_exit {turns : Nat} {s : σ} {r : ρ} (h : body s = some (.exit r)) :
    loop body (turns + 1) s = some r := by
  simp only [loop, h]

theorem loop_again {turns : Nat} {s next : σ} (h : body s = some (.again next)) :
    loop body (turns + 1) s = loop body turns next := by
  simp only [loop, h]

theorem Returns.exit {s : σ} {r : ρ} (h : body s = some (.exit r)) : Returns (fun turns => loop body turns s) r := by
  refine ⟨1, fun turns enough => ?_⟩
  obtain ⟨turns, rfl⟩ : ∃ t, turns = t + 1 := ⟨turns - 1, by omega⟩
  exact loop_exit h

theorem Returns.again {s next : σ} {r : ρ} (h : body s = some (.again next))
    (later : Returns (fun turns => loop body turns next) r) : Returns (fun turns => loop body turns s) r := by
  obtain ⟨enough, same⟩ := later
  refine ⟨enough + 1, fun turns more => ?_⟩
  obtain ⟨turns, rfl⟩ : ∃ t, turns = t + 1 := ⟨turns - 1, by omega⟩
  exact (loop_again h).trans (same turns (by omega))

/-- Total correctness: an invariant indexed by the turns that may remain, which each turn lowers. -/
theorem loop_total (I : Nat → σ → Prop) (Q : ρ → Prop)
    (turn : ∀ n s, I n s → (∃ r, body s = some (.exit r) ∧ Q r) ∨
      ∃ next m, body s = some (.again next) ∧ m < n ∧ I m next)
    (n turns : Nat) (s : σ) (inv : I n s) (enough : n < turns) : ∃ r, loop body turns s = some r ∧ Q r := by
  induction turns generalizing n s with
  | zero => exact absurd enough (Nat.not_lt_zero n)
  | succ turns ih =>
    rcases turn n s inv with ⟨r, done, post⟩ | ⟨next, m, step, less, later⟩
    · exact ⟨r, loop_exit done, post⟩
    · obtain ⟨r, done, post⟩ := ih m next later (by omega)
      exact ⟨r, (loop_again step).trans done, post⟩

/-- A search: the loop stands at `place 0`, `place 1`, .. and leaves at the first number that is `found`. -/
theorem loop_search (place : Nat → σ) (out : Nat → ρ) (found : Nat → Prop)
    (leave : ∀ n, found n → body (place n) = some (.exit (out n)))
    (stay : ∀ n, ¬ found n → body (place n) = some (.again (place (n + 1)))) {n : Nat} (here : found n)
    (first : ∀ m < n, ¬ found m) : Returns (fun turns => loop body turns (place 0)) (out n) := by
  have ahead : ∀ rest m, m + rest = n → Returns (fun turns => loop body turns (place m)) (out n) := by
    intro rest
    induction rest with
    | zero =>
      rintro m rfl
      exact Returns.exit (leave m here)
    | succ rest ih =>
      intro m total
      exact Returns.again (stay m (first m (by omega))) (ih (m + 1) (by omega))
  exact ahead n 0 (Nat.zero_add n)

theorem loop_none (place : Nat → σ) (stay : ∀ n, body (place n) = some (.again (place (n + 1)))) (n turns : Nat) :
    loop body turns (place n) = none := by
  induction turns generalizing n with
  | zero => rfl
  | succ turns ih => rw [loop_again (stay n), ih]

theorem trail_count {ι : Type} [DecidableEq ι] (I : σ → Prop) (item : σ → Option ι) (potential : σ → Nat) (x : ι)
    (turn : ∀ s, I s → (item s = none ∧ ∃ r, body s = some (.exit r)) ∨
      ∃ next, body s = some (.again next) ∧ I next ∧ potential next + (if item s = some x then 1 else 0) ≤ potential s)
    (turns : Nat) (s : σ) (inv : I s) : ((trail body turns s).filterMap item).count x ≤ potential s := by
  induction turns generalizing s with
  | zero => exact Nat.zero_le _
  | succ turns ih =>
    rcases turn s inv with ⟨ended, r, done⟩ | ⟨next, step, later, paid⟩
    · simp [trail, done, ended]
    · have rest := ih next later
      rw [trail, step, List.filterMap_cons]
      cases here : item s with
      | none =>
        exact Nat.le_trans rest (Nat.le_trans (Nat.le_add_right ..) paid)
      | some y =>
        rw [here] at paid
        simp only [Option.some.injEq] at paid
        rw [List.count_cons]
        simp only [beq_iff_eq]
        omega

end

end TFCommon
