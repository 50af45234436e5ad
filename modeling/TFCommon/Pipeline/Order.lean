import Mathlib.Algebra.BigOperators.Group.Finset.Basic
import TFCommon.Pipeline.Stage

/-! The stages run one after the other, each on the result of the one before, and `FinFn` is called once at
the end. -/
namespace TFCommon.Pipeline
open Function (update)
open QueueTask (Stuck)
open WorkPipeline

variable {T S E : Nat → Type} {cfg : Config T S} {w w' : WorkPipeline T S E} {c i : Nat}

def Chain (cfg : Config T S) (w : WorkPipeline T S E) (c : Nat) : Prop :=
  ∀ i, i < c → ∃ v subs r, Finished (cfg.stage i) v subs r (w.stage i) ∧
    (i + 1 < cfg.stages → (w.stage (i + 1)).inputs = [r])

structure At (cfg : Config T S) (w : WorkPipeline T S E) (c : Nat) (v : T c) : Prop where
  inside : c < cfg.stages
  chain : Chain cfg w c
  active : Active (cfg.stage c) v (w.stage c)
  blank : ∀ i, c < i → w.stage i = {}
  fins : w.fins = 0

structure Over (cfg : Config T S) (w : WorkPipeline T S E) : Prop where
  chain : Chain cfg w cfg.stages
  blank : ∀ i, cfg.stages ≤ i → w.stage i = {}
  fins : w.fins = 1
  res : ∃ i r, i + 1 = cfg.stages ∧ (w.stage i).results = [some r] ∧ w.res = some ⟨i + 1, r⟩

def Inv (cfg : Config T S) (w : WorkPipeline T S E) : Prop :=
  ((∀ i, w.stage i = {}) ∧ w.fins = 0) ∨ (∃ c v, At cfg w c v) ∨ Over cfg w

theorem stage_set {stage : WorkStage (T i) (T (i + 1)) (S i) (E i)} : (w.setStage i stage).stage i = stage := by
  simp [setStage]

theorem stage_set_ne {j : Nat} {stage : WorkStage (T i) (T (i + 1)) (S i) (E i)} (other : j ≠ i) :
    (w.setStage i stage).stage j = w.stage j := by
  simp [setStage, other]

variable {stage : WorkStage (T c) (T (c + 1)) (S c) (E c)} {v : T c} {r : T (c + 1)} {subs : List (S c)}

theorem Chain.set (chain : Chain cfg w c)
    (inputs : stage.inputs = (w.stage c).inputs) : Chain cfg (w.setStage c stage) c := by
  intro i below
  obtain ⟨v, subs, r, finished, next⟩ := chain i below
  refine ⟨v, subs, r, ?_, fun more => ?_⟩
  · rw [stage_set_ne (Nat.ne_of_lt below)]
    exact finished
  · by_cases last : i + 1 = c
    · subst last
      rw [stage_set, inputs]
      exact next more
    · rw [stage_set_ne last]
      exact next more

theorem At.quiet (here : At cfg w c v) (other : i ≠ c) : Quiet (w.stage i) := by
  rcases Nat.lt_or_gt_of_ne other with below | above
  · obtain ⟨_, _, _, finished, _⟩ := here.chain i below
    exact finished.quiet
  · rw [here.blank i above]
    exact quiet_blank

theorem Over.quiet (over_ : Over cfg w) (i : Nat) : Quiet (w.stage i) := by
  by_cases inside : i < cfg.stages
  · obtain ⟨_, _, _, finished, _⟩ := over_.chain i inside
    exact finished.quiet
  · rw [over_.blank i (Nat.le_of_not_lt inside)]
    exact quiet_blank

theorem Chain.extend (chain : Chain cfg w c)
    (finished : Finished (cfg.stage c) v subs r (w.stage c)) (next : c + 1 < cfg.stages → (w.stage (c + 1)).inputs = [r]) :
    Chain cfg w (c + 1) := by
  intro i below
  rcases Nat.lt_succ_iff_lt_or_eq.mp below with earlier | rfl
  · exact chain i earlier
  · exact ⟨v, subs, r, finished, next⟩

theorem Chain.above {stage : WorkStage (T (c + 1)) (T (c + 2)) (S (c + 1)) (E (c + 1))} (chain : Chain cfg w c) :
    Chain cfg (w.setStage (c + 1) stage) c := by
  intro i below
  obtain ⟨v, subs, r, finished, next⟩ := chain i below
  refine ⟨v, subs, r, ?_, fun more => ?_⟩
  · rw [stage_set_ne (by omega)]
    exact finished
  · rw [stage_set_ne (by omega)]
    exact next more

theorem Inv.started (inv : Inv cfg w) (some_ : (w.stage 0).inputs ≠ []) : (∃ c v, At cfg w c v) ∨ Over cfg w := by
  rcases inv with ⟨blank, _⟩ | later
  · rw [blank 0] at some_
    exact absurd rfl some_
  · exact later

theorem Inv.unstarted (inv : Inv cfg w) (none_ : (w.stage 0).inputs = []) : (∀ i, w.stage i = {}) ∧ w.fins = 0 := by
  have chained : ∀ c, 0 < c → Chain cfg w c → False := by
    intro c positive chain
    obtain ⟨v, _, _, finished, _⟩ := chain 0 positive
    have inputs := finished.inputs
    rw [none_] at inputs
    cases inputs
  rcases inv with blank | ⟨c, v, here⟩ | over_
  · exact blank
  · cases c with
    | zero =>
      have inputs := here.active.inputs
      rw [none_] at inputs
      cases inputs
    | succ c => exact (chained (c + 1) (Nat.succ_pos c) here.chain).elim
  · exact (chained cfg.stages cfg.stages_pos over_.chain).elim

def Action.yields : Action T S E → Bool
  | .start _ => false
  | .stage _ action => action.yields

def WorkPipeline.left (cfg : Config T S) (w : WorkPipeline T S E) : Nat :=
  ∑ i ∈ Finset.range cfg.stages, (w.stage i).left (cfg.stage i)

theorem left_setStage (inside : c < cfg.stages) (stage : WorkStage (T c) (T (c + 1)) (S c) (E c)) :
    (w.setStage c stage).left cfg + (w.stage c).left (cfg.stage c) = w.left cfg + stage.left (cfg.stage c) := by
  have member : c ∈ Finset.range cfg.stages := Finset.mem_range.mpr inside
  have others : ∀ i ∈ (Finset.range cfg.stages).erase c,
      ((w.setStage c stage).stage i).left (cfg.stage i) = (w.stage i).left (cfg.stage i) := by
    intro i other
    rw [stage_set_ne (Finset.ne_of_mem_erase other)]
  unfold WorkPipeline.left
  rw [← Finset.sum_erase_add _ _ member, ← Finset.sum_erase_add _ _ member, Finset.sum_congr rfl others, stage_set]
  omega

def Goes (cfg : Config T S) (w : WorkPipeline T S E) (yields : Bool) (w' : WorkPipeline T S E) : Prop :=
  Inv cfg w' ∧ w'.left cfg + (if yields then 0 else 1) ≤ w.left cfg

section run
variable [∀ i, Inhabited (T i)] [∀ i, Inhabited (S i)]

omit [∀ i, Inhabited (T i)] in
theorem startStage_blank (inp : T c) (inside : c < cfg.stages) (blank : w.stage c = {}) :
    ∃ first, w.startStage cfg c (some inp) = .ok (w.setStage c first) ∧ Executing (cfg.stage c) inp first ∧
      0 < first.remainingInst ∧ (w.setStage c first).left cfg + 1 = w.left cfg := by
  obtain ⟨first, started, executing, waits, less⟩ := Executing.start (cfg.stage c) blank inp
  have moved := left_setStage (w := w) inside first
  exact ⟨first, by rw [startStage, started]; rfl, executing, waits, by omega⟩

omit [∀ i, Inhabited (T i)] in
theorem At.called
    (here : At cfg w c v) (ready : Ready (cfg.stage c) v subs r stage) :
    ∃ over_ : WorkStage (T c) (T (c + 1)) (S c) (E c), over_.left (cfg.stage c) = workersLeft stage.workers ∧
      Finished (cfg.stage c) v subs r over_ ∧ Chain cfg (w.setStage c over_) c ∧
      (w.setStage c stage).workStageCb cfg c =
        if c + 1 < cfg.stages then startStage cfg { w.setStage c over_ with res := none } (c + 1) (some r)
        else .ok { w.setStage c over_ with res := some ⟨c + 1, r⟩, finished := true, fins := 1 } := by
  obtain ⟨result, released, release, workers, finished⟩ := ready.release
  refine ⟨{ released with results := released.results ++ [some r] }, ?_, finished,
    here.chain.set (finished.inputs.trans here.active.inputs.symm), ?_⟩
  · have inputs : released.inputs = [v] := finished.inputs
    simp [WorkStage.left, inputs, workers]
  unfold workStageCb
  rw [stage_set, result, release]
  simp only [bind, Except.bind, setStage, Function.update_idem, here.fins]
  rfl

omit [∀ i, Inhabited (T i)] [∀ i, Inhabited (S i)] in
theorem At.blank_set (here : At cfg w c v) (later : c < i) :
    (w.setStage c stage).stage i = {} :=
  (stage_set_ne (Nat.ne_of_gt later)).trans (here.blank i later)

omit [∀ i, Inhabited (T i)] [∀ i, Inhabited (S i)] in
theorem At.left (here : At cfg w c v) : (w.stage c).left (cfg.stage c) = workersLeft (w.stage c).workers + 1 := by
  simp [WorkStage.left, here.active.inputs, here.active.fresh]

omit [∀ i, Inhabited (T i)] in
theorem At.next {yields : Bool} (here : At cfg w c v) (ready : Ready (cfg.stage c) v subs r stage)
    (less : workersLeft stage.workers + (if yields then 0 else 1) ≤ workersLeft (w.stage c).workers + 1) :
    ∃ w', (w.setStage c stage).workStageCb cfg c = .ok w' ∧ Goes cfg w yields w' := by
  obtain ⟨over_, left, finished, below, called⟩ := here.called ready
  have now := here.left
  have moved := left_setStage (w := w) here.inside over_
  have mine : Finished (cfg.stage c) v subs r ((w.setStage c over_).stage c) := by
    rw [stage_set]
    exact finished
  rw [called]
  by_cases more : c + 1 < cfg.stages
  · obtain ⟨first, started, executing, waits, less'⟩ :=
      startStage_blank (w := { w.setStage c over_ with res := none }) r more (here.blank_set (Nat.lt_succ_self c))
    rw [if_pos more]
    have same : WorkPipeline.left cfg { w.setStage c over_ with res := none } = (w.setStage c over_).left cfg := rfl
    refine ⟨_, started, .inr (.inl ⟨c + 1, r, more, ?_, ?_, fun i later => ?_, here.fins⟩), by omega⟩
    · rw [← stage_set_ne (w := w.setStage c over_) (j := c) (i := c + 1) (Nat.ne_of_lt (Nat.lt_succ_self c))] at mine
      refine Chain.extend (Chain.above below) mine fun _ => ?_
      rw [stage_set]
      exact executing.inputs
    · rw [stage_set]
      exact .inl ⟨executing, waits⟩
    · rw [stage_set_ne (Nat.ne_of_gt later)]
      exact here.blank_set (by omega)
  · have last : c + 1 = cfg.stages := Nat.le_antisymm here.inside (Nat.le_of_not_lt more)
    rw [if_neg more]
    refine ⟨_, rfl, .inr (.inr ⟨?_, fun i later => here.blank_set (by omega), rfl, c, r, last, mine.results, rfl⟩), ?_⟩
    · rw [← last]
      exact Chain.extend below mine fun impossible => absurd impossible more
    · show (w.setStage c over_).left cfg + _ ≤ _
      omega

theorem At.goes {action : StageAction (T (c + 1)) (S c) (E c)} {next : Bool × WorkStage (T c) (T (c + 1)) (S c) (E c)}
    (here : At cfg w c v) (advances : Advances (cfg.stage c) v (w.stage c) action.yields next)
    (stepped : (w.stage c).step (cfg.stage c) action = .ok next) :
    ∃ w', w.step cfg (.stage c action) = .ok w' ∧ Goes cfg w action.yields w' := by
  rw [WorkPipeline.step, stepped]
  obtain ⟨fin, stage⟩ := next
  obtain ⟨moves, less⟩ := advances
  cases fin with
  | true =>
    obtain ⟨subs, r, ready⟩ := moves
    exact here.next ready less
  | false =>
    have active : Active (cfg.stage c) v stage := moves
    have now := here.left
    have moved := left_setStage (w := w) here.inside stage
    have after_ : stage.left (cfg.stage c) = workersLeft stage.workers + 1 := by
      simp [WorkStage.left, active.inputs, active.fresh]
    simp only [Bool.false_eq_true, if_false] at less
    refine ⟨_, rfl, .inr (.inl ⟨c, v, here.inside, here.chain.set (active.inputs.trans here.active.inputs.symm), ?_,
      fun j later => ?_, here.fins⟩), by omega⟩
    · rw [stage_set]
      exact active
    · rw [stage_set_ne (Nat.ne_of_gt later)]
      exact here.blank j later

omit [∀ i, Inhabited (T i)] in
theorem start_goes (cfg : Config T S) (inp : T 0) (blank : ∀ i, w.stage i = {}) (fins : w.fins = 0) :
    ∃ w', w.startStage cfg 0 (some inp) = .ok w' ∧ Goes cfg w false w' := by
  obtain ⟨first, started, executing, waits, less⟩ := startStage_blank inp cfg.stages_pos (blank 0)
  refine ⟨_, started, .inr (.inl ⟨0, inp, cfg.stages_pos, fun i below => by omega, ?_, fun i later => ?_, fins⟩), Nat.le_of_eq less⟩
  · rw [stage_set]
    exact .inl ⟨executing, waits⟩
  · rw [stage_set_ne (Nat.ne_of_gt later)]
    exact blank i

theorem Inv.step (inv : Inv cfg w) (action : Action T S E) :
    Verdict (Goes cfg w action.yields) (· = .failed) (w.step cfg action) := by
  cases action with
  | start inp =>
    simp only [WorkPipeline.step]
    split
    · rename_i none_
      obtain ⟨blank, fins⟩ := inv.unstarted (List.isEmpty_iff.mp none_)
      obtain ⟨w₁, started, inv₁⟩ := start_goes cfg inp blank fins
      rw [started]
      exact inv₁
    · exact nofun
  | stage i action =>
    have quiet (quiet : Quiet (w.stage i)) :
        Verdict (Goes cfg w action.yields) (· = .failed) (w.step cfg (.stage i action)) := by
      rw [WorkPipeline.step, quiet.step]
      exact nofun
    rcases inv with ⟨blank, _⟩ | ⟨c, v, here⟩ | over_
    · exact quiet (by rw [blank i]; exact quiet_blank)
    · by_cases mine : i = c
      · subst mine
        have verdict := here.active.step action
        cases stepped : (w.stage i).step (cfg.stage i) action with
        | error e =>
          rw [stepped] at verdict
          rw [WorkPipeline.step, stepped]
          exact verdict
        | ok next =>
          obtain ⟨w₁, ran, inv₁⟩ := here.goes (verdict.of_ok stepped) stepped
          rw [ran]
          exact inv₁
      · exact quiet (here.quiet mine)
    · exact quiet (over_.quiet i)

end run

end TFCommon.Pipeline
