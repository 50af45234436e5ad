import Mathlib.Data.List.Induction

/-! Runs of a fallible step function over a list of actions, and the simulation rule. -/
namespace TFCommon

def run {S A E : Type} (step : S → A → Except E S) : S → List A → Except E S
  | s, [] => .ok s
  | s, a :: rest => do
    let next ← step s a
    run step next rest

variable {S A B E : Type} {x : Except E A} {step : S → A → Except E S} {actions : List A}

theorem bind_ok {f : A → Except E B} {b : B} (ran : x >>= f = .ok b) :
    ∃ a, x = .ok a ∧ f a = .ok b := by
  cases x with
  | error e => cases ran
  | ok a => exact ⟨a, rfl, ran⟩

theorem of_guard {p : Prop} [Decidable p] {a b : A} {e : E}
    (ran : (if p then .ok a else .error e : Except E A) = .ok b) : p ∧ a = b := by
  split at ran
  · exact ⟨‹p›, Except.ok.inj ran⟩
  · cases ran

theorem of_check {p : Prop} [Decidable p] {b : A} {e : E}
    (ran : (if p then .error e else x) = .ok b) : ¬ p ∧ x = .ok b := by
  split at ran
  · cases ran
  · exact ⟨‹¬ p›, ran⟩

theorem ok_of_seen {f : A → B} {b : B} (seen : x.toOption.map f = some b) :
    ∃ a, x = .ok a ∧ f a = b := by
  cases x with
  | error e => cases seen
  | ok a => exact ⟨a, rfl, Option.some.inj seen⟩

theorem foldlM_range {f : A → Nat → Except E A} (g : Nat → A) (n : Nat)
    (turn : ∀ i < n, f (g i) i = .ok (g (i + 1))) : (List.range n).foldlM f (g 0) = .ok (g n) := by
  induction n with
  | zero => rfl
  | succ n ih =>
    rw [List.range_succ, List.foldlM_append, ih fun i less => turn i (Nat.lt_succ_of_lt less)]
    change (f (g n) n >>= fun a => .ok a) = .ok (g (n + 1))
    rw [turn n (Nat.lt_succ_self n)]
    rfl

theorem run_append (step : S → A → Except E S) (first rest : List A) (s : S) :
    run step s (first ++ rest) = run step s first >>= fun middle => run step middle rest := by
  induction first generalizing s with
  | nil => rfl
  | cons a first ih =>
    rw [List.cons_append, run, run]
    cases step s a with
    | error e => rfl
    | ok next => exact ih next

theorem run_concat {a : A} {s middle next : S}
    (ran : run step s actions = .ok middle) (stepped : step middle a = .ok next) :
    run step s (actions ++ [a]) = .ok next := by
  rw [run_append, ran]
  change (step middle a >>= Except.ok) = .ok next
  rw [stepped]
  rfl

/-- A result is a state with the property, or a failure that is not bad. -/
def Verdict {S E : Type} (P : S → Prop) (bad : E → Prop) : Except E S → Prop
  | .ok s => P s
  | .error e => ¬ bad e

theorem Verdict.of_ok {S E : Type} {P : S → Prop} {bad : E → Prop} {x : Except E S} {s : S} (verdict : Verdict P bad x)
    (ran : x = .ok s) : P s := by
  rw [ran] at verdict
  exact verdict

theorem Verdict.imp {S E : Type} {P Q : S → Prop} {bad : E → Prop} {x : Except E S} (verdict : Verdict P bad x)
    (implies : ∀ s, P s → Q s) : Verdict Q bad x := by
  cases x with
  | error e => exact verdict
  | ok s => exact implies s verdict

theorem Verdict.bind {S T E : Type} {P : S → Prop} {Q : T → Prop} {bad : E → Prop} {x : Except E S} {f : S → Except E T}
    (first : Verdict P bad x) (then_ : ∀ s, P s → Verdict Q bad (f s)) : Verdict Q bad (x >>= f) := by
  cases x with
  | error e => exact first
  | ok s => exact then_ s first

/-- A result keeps the invariant `I` under a condition, and has the property `P` only under it. -/
structure Hinges {S E : Type} (I P : S → Prop) (bad : E → Prop) (x : Except E S) (condition : Prop) : Prop where
  keeps : condition → Verdict I bad x
  exposes : Verdict P bad x → condition

section
variable {S E : Type} {I P : S → Prop} {bad : E → Prop} {x : Except E S} {p q : Prop}

theorem Hinges.free (kept : Verdict I bad x) : Hinges I P bad x True := ⟨fun _ => kept, fun _ => trivial⟩

theorem Hinges.failed {e : E} (mild : ¬ bad e) (holds : p) : Hinges I P bad (.error e) p := ⟨fun _ => mild, fun _ => holds⟩

theorem Hinges.congr (hinges : Hinges I P bad x p) (same : p ↔ q) : Hinges I P bad x q := propext same ▸ hinges

end

/-- Every state of a run has the property, and the run does not end with a bad failure. -/
def Safe {S A E : Type} (step : S → A → Except E S) (P : S → Prop) (bad : E → Prop) (s : S) (actions : List A) : Prop :=
  ∀ first rest, actions = first ++ rest → Verdict P bad (run step s first)

/-- Every step of a run is harmless in the state in which it is taken. -/
def Throughout {S A E : Type} (step : S → A → Except E S) (harmless : S → A → Prop) (s : S) (actions : List A) : Prop :=
  ∀ first a rest middle, actions = first ++ a :: rest → run step s first = .ok middle → harmless middle a

section
variable {P I : S → Prop} {bad : E → Prop} {harmless : S → A → Prop}

theorem Throughout.nil {s : S} : Throughout step harmless s [] := fun first a rest middle split => by simp at split

theorem Throughout.cons {s : S} {a : A} {rest : List A} (here : harmless s a)
    (later : ∀ next, step s a = .ok next → Throughout step harmless next rest) : Throughout step harmless s (a :: rest) := by
  intro first b last middle split reached
  cases first with
  | nil =>
    cases reached
    cases split
    exact here
  | cons c first =>
    cases split
    obtain ⟨next, stepped, reached⟩ := bind_ok reached
    exact later next stepped first b last middle rfl reached

theorem Throughout.tail {s next : S} {a : A} {rest : List A} (all : Throughout step harmless s (a :: rest))
    (stepped : step s a = .ok next) : Throughout step harmless next rest := by
  intro first b last middle split reached
  refine all (a :: first) b last middle (by rw [split, List.cons_append]) ?_
  simp only [run, stepped]
  exact reached

theorem throughout_congr {other : S → A → Prop} (same : ∀ s a, harmless s a ↔ other s a) {s : S} :
    Throughout step harmless s actions ↔ Throughout step other s actions :=
  forall₄_congr fun _ a _ middle => imp_congr_right fun _ => imp_congr_right fun _ => same middle a

theorem Throughout.imp {other : S → A → Prop} (keeps : ∀ s a next, I s → harmless s a → step s a = .ok next → I next)
    (implies : ∀ s a, I s → harmless s a → other s a) {s : S} (initial : I s)
    (all : Throughout step harmless s actions) : Throughout step other s actions := by
  induction actions generalizing s with
  | nil => exact .nil
  | cons a actions ih =>
    have here : harmless s a := all [] a actions s rfl rfl
    exact .cons (implies s a initial here) fun next stepped =>
      ih (keeps s a next initial here stepped) (all.tail stepped)

theorem Safe.tail {s next : S} {a : A} {rest : List A} (safe : Safe step P bad s (a :: rest))
    (stepped : step s a = .ok next) : Safe step P bad next rest := by
  intro first last split
  have later := safe (a :: first) last (by rw [split, List.cons_append])
  simp only [run, stepped] at later
  exact later

/-- When harmless steps keep an invariant that implies the property, a run of harmless steps is safe. -/
theorem safe_of_throughout (sound : ∀ s, I s → P s) (keeps : ∀ s a, I s → harmless s a → Verdict I bad (step s a))
    (actions : List A) (s : S) (initial : I s) (all : Throughout step harmless s actions) :
    Safe step P bad s actions := by
  induction actions generalizing s with
  | nil =>
    intro first rest split
    obtain ⟨rfl, rfl⟩ := List.append_eq_nil_iff.mp split.symm
    exact sound s initial
  | cons a actions ih =>
    intro first rest split
    cases first with
    | nil => exact sound s initial
    | cons c first =>
      cases split
      have kept := keeps s a initial (all [] a _ s rfl rfl)
      cases stepped : step s a with
      | error e =>
        rw [stepped] at kept
        simp only [run, stepped]
        exact kept
      | ok next =>
        rw [stepped] at kept
        simp only [run, stepped]
        exact ih next kept (all.tail stepped) first rest rfl

/-- If moreover any other step breaks the property, a run is safe exactly if all its steps are harmless. -/
theorem safe_iff (sound : ∀ s, I s → P s) (keeps : ∀ s a, I s → harmless s a → Verdict I bad (step s a))
    (exposes : ∀ s a, I s → Verdict P bad (step s a) → harmless s a) (actions : List A) (s : S) (initial : I s) :
    Safe step P bad s actions ↔ Throughout step harmless s actions := by
  refine ⟨fun safe => ?_, safe_of_throughout sound keeps actions s initial⟩
  induction actions generalizing s with
  | nil => exact .nil
  | cons a actions ih =>
    have one : run step s [a] = step s a := by
      rw [run]
      cases step s a with
      | error e => rfl
      | ok next => rfl
    have here : harmless s a := exposes s a initial (one ▸ safe [a] actions rfl)
    refine .cons here fun next stepped => ?_
    have kept := keeps s a initial here
    rw [stepped] at kept
    exact ih next kept (safe.tail stepped)

/-- Whether every step of a run is harmless, by taking the steps. -/
def checkThroughout (step : S → A → Except E S) (harmless : S → A → Prop) [∀ s a, Decidable (harmless s a)] :
    S → List A → Bool
  | _, [] => true
  | s, a :: actions =>
    decide (harmless s a) &&
      match step s a with
      | .ok next => checkThroughout step harmless next actions
      | .error _ => true

theorem throughout_of_check (harmless : S → A → Prop) [∀ s a, Decidable (harmless s a)] (actions : List A) (s : S)
    (checked : checkThroughout step harmless s actions = true) : Throughout step harmless s actions := by
  induction actions generalizing s with
  | nil => exact .nil
  | cons a actions ih =>
    simp only [checkThroughout, Bool.and_eq_true, decide_eq_true_eq] at checked
    refine .cons checked.1 fun next stepped => ?_
    rw [stepped] at checked
    exact ih next checked.2

end

/-- A step either keeps the relation or fails in a way the action accounts for; so does a run. -/
theorem run_simulation {S T A E : Type} (step : S → A → Except E S) (stepT : T → A → T)
    (R : S → T → Prop) (legal : A → Prop) (fails : E → A → Prop)
    (preserves : ∀ s t a, R s t → legal a →
      (∃ next, step s a = .ok next ∧ R next (stepT t a)) ∨ ∃ e, step s a = .error e ∧ fails e a)
    (actions : List A) (s : S) (t : T) (related : R s t) (allowed : ∀ a ∈ actions, legal a) :
    (∃ final, run step s actions = .ok final ∧ R final (actions.foldl stepT t)) ∨
      ∃ e, run step s actions = .error e ∧ ∃ a ∈ actions, fails e a := by
  induction actions generalizing s t with
  | nil => exact .inl ⟨s, rfl, related⟩
  | cons a rest ih =>
    rcases preserves s t a related (allowed a List.mem_cons_self) with ⟨next, ok, later⟩ | ⟨e, bad, why⟩
    · have tail := ih next (stepT t a) later (fun b hb => allowed b (List.mem_cons_of_mem a hb))
      have unfolded : run step s (a :: rest) = run step next rest := by simp only [run, ok]; rfl
      rcases tail with ⟨final, done, final_related⟩ | ⟨e, bad, b, hb, why⟩
      · exact .inl ⟨final, unfolded.trans done, final_related⟩
      · exact .inr ⟨e, unfolded.trans bad, b, List.mem_cons_of_mem a hb, why⟩
    · refine .inr ⟨e, ?_, a, List.mem_cons_self, why⟩
      simp only [run, bad]
      rfl

/-- What every legal step keeps, every run of legal steps keeps. -/
theorem run_invariant (I : S → Prop) (legal : A → Prop)
    (preserves : ∀ s a next, I s → legal a → step s a = .ok next → I next) (actions : List A) (s final : S)
    (initial : I s) (allowed : ∀ a ∈ actions, legal a) (ran : run step s actions = .ok final) : I final := by
  induction actions generalizing s with
  | nil =>
    cases ran
    exact initial
  | cons a rest ih =>
    obtain ⟨next, first, later⟩ := bind_ok ran
    exact ih next (preserves s a next initial (allowed a List.mem_cons_self) first)
      (fun b hb => allowed b (List.mem_cons_of_mem a hb)) later

/-- A run is no longer than what there is to do at its start, the steps that are free apart. -/
theorem run_bounded (I : S → Prop) (left : S → Nat) (free : A → Bool)
    (decreases : ∀ s a next, I s → step s a = .ok next → I next ∧ left next + (if free a then 0 else 1) ≤ left s)
    (actions : List A) (s final : S) (initial : I s) (ran : run step s actions = .ok final) :
    actions.length + left final ≤ left s + actions.countP free := by
  induction actions generalizing s with
  | nil =>
    cases ran
    simp
  | cons a rest ih =>
    obtain ⟨next, first, later⟩ := bind_ok ran
    obtain ⟨kept, less⟩ := decreases s a next initial first
    have tail := ih next kept later
    rw [List.length_cons, List.countP_cons]
    split at less
    · rename_i isFree
      rw [if_pos isFree]
      omega
    · omega

/-- A run of a step function with a result per action; `none` is a fault. -/
def runs {S A B : Type} (step : S → A → Option (B × S)) : S → List A → Option (List B × S)
  | s, [] => some ([], s)
  | s, a :: rest => do
    let (b, next) ← step s a
    let (bs, final) ← runs step next rest
    return (b :: bs, final)

theorem runs_cons {step : S → A → Option (B × S)} {s next final : S} {a : A} {b : B} {rest : List A} {bs : List B}
    (first : step s a = some (b, next)) (later : runs step next rest = some (bs, final)) :
    runs step s (a :: rest) = some (b :: bs, final) := by
  simp [runs, first, later]

def specRuns {T A B : Type} (step : T → A → B × T) : T → List A → List B × T
  | t, [] => ([], t)
  | t, a :: rest => ((step t a).1 :: (specRuns step (step t a).2 rest).1, (specRuns step (step t a).2 rest).2)

theorem runs_refine {S T A B : Type} {step : S → A → Option (B × S)} {spec : T → A → B × T} (R : S → T → Prop)
    (preserves : ∀ s t a, R s t → ∃ next, step s a = some ((spec t a).1, next) ∧ R next (spec t a).2)
    (actions : List A) (s : S) (t : T) (related : R s t) :
    ∃ final, runs step s actions = some ((specRuns spec t actions).1, final) ∧ R final (specRuns spec t actions).2 := by
  induction actions generalizing s t with
  | nil => exact ⟨s, rfl, related⟩
  | cons a rest ih =>
    obtain ⟨next, first, later⟩ := preserves s t a related
    obtain ⟨final, tail, done⟩ := ih next (spec t a).2 later
    exact ⟨final, runs_cons first tail, done⟩

end TFCommon
