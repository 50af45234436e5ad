import TFCommon.Lib.Token
import TFCommon.QueueTask.Model

/-! Where the threads and the runners are: who is inside the mutex, and which runner the queue has. -/
namespace TFCommon.QueueTask
open Function (update)
open WorkQueue

variable {α : Type}

def Thread.holds : Thread α → Bool
  | .testQueue _ | .testAbort _ | .start _ | .unlock _ | .shutdown _ _ | .drain _ | .clear => true
  | _ => false

def Thread.looking : Thread α → Bool
  | .rereadDisabled | .lock _ | .testQueue _ | .testAbort _ | .start _ => true
  | _ => false

def Thread.pending : Thread α → Bool
  | .unlock _ => true
  | pc => pc.looking

def Thread.starting : Thread α → Bool
  | .testAbort _ | .start _ => true
  | _ => false

def Thread.shutting : Thread α → Bool
  | .lockShutdown _ _ | .shutdown _ _ | .drain _ | .clear => true
  | _ => false

def RunnerPc.holds : RunnerPc α → Bool
  | .testQueue | .testAbort | .finish | .resume | .drain | .clear => true
  | _ => false

def RunnerPc.live : RunnerPc α → Bool
  | .drain | .clear | .returned true => false
  | _ => true

def RunnerPc.watching : RunnerPc α → Bool
  | .finish => false
  | pc => pc.live

def RunnerPc.shutting : RunnerPc α → Bool
  | .drain | .clear => true
  | _ => false

def RunnerPc.inflight : RunnerPc α → List α
  | .decrement _ entry | .callback _ entry => [entry]
  | _ => []

def Call.shuts : Call α → Bool
  | .scheduleShutdown _ | .shutdown _ => true
  | _ => false

def Action.shuts : Action α → Bool
  | .call _ c => c.shuts
  | _ => false

def WorkQueue.owns (q : WorkQueue α) (r : RunnerId) : Prop :=
  ∃ runner, q.runners r = some runner ∧ runner.pc.live = true

def WorkQueue.holding (q : WorkQueue α) : Holder → Prop
  | .thread t => (q.threads t).holds = true
  | .runner r => ∃ runner, q.runners r = some runner ∧ runner.pc.holds = true

def WorkQueue.inflight (q : WorkQueue α) : List α :=
  match q.currentRunner.bind q.runners with
  | some runner => runner.pc.inflight
  | none => []

def WorkQueue.watched (q : WorkQueue α) : Prop :=
  ∃ r runner, q.currentRunner = some r ∧ q.runners r = some runner ∧ runner.pc.watching = true

theorem mutex_init : Token ({} : WorkQueue α).mutex ({} : WorkQueue α).holding := by
  intro h
  cases h <;> simp [holding, Thread.holds]

variable {q q' : WorkQueue α} {t : ThreadId} {r : RunnerId} {runner : QueueTaskRunner α} {pc : Thread α}
  {v : Option (QueueTaskRunner α)} {dest : RunnerPc α}

section
variable (threads : q'.threads = update q.threads t pc)
include threads

theorem holding_goto_ne (runners : q'.runners = q.runners) (h : Holder)
    (other : h ≠ .thread t) : q'.holding h ↔ q.holding h := by
  cases h with
  | thread u =>
    have differ : u ≠ t := fun same => other (by rw [same])
    simp [holding, threads, differ]
  | runner _ => simp [holding, runners]

theorem holding_goto_self : q'.holding (.thread t) ↔ pc.holds = true := by
  simp [holding, threads]

theorem not_holding_goto (out : pc.holds = false) : ¬ q'.holding (.thread t) := by
  simp [holding, threads, out]

theorem holding_goto {old : Thread α} (now : q.threads t = old) (same : pc.holds = old.holds)
    (runners : ∀ r, q'.holding (.runner r) ↔ q.holding (.runner r)) (h : Holder) : q'.holding h ↔ q.holding h := by
  cases h with
  | thread u =>
    by_cases here : u = t
    · subst here
      rw [holding_goto_self threads, same, ← now]
      rfl
    · simp [holding, threads, here]
  | runner r => exact runners r

end

theorem exists_update_iff {runners : RunnerId → Option (QueueTaskRunner α)}
    (P : RunnerPc α → Prop) (same : (∃ runner, v = some runner ∧ P runner.pc) ↔ ∃ runner, runners r = some runner ∧ P runner.pc)
    (r' : RunnerId) : (∃ runner, update runners r v r' = some runner ∧ P runner.pc) ↔ ∃ runner, runners r' = some runner ∧ P runner.pc := by
  by_cases here : r' = r
  · subst here
    simpa using same
  · simp [here]

theorem inflight_none (none_ : q.currentRunner = none) : q.inflight = [] := by
  simp [WorkQueue.inflight, none_]

theorem inflight_some (current : q.currentRunner = some r) (here : q.runners r = some runner) :
    q.inflight = runner.pc.inflight := by
  simp [WorkQueue.inflight, current, here]

theorem holding_advance_ne (threads : q'.threads = q.threads)
    (runners : q'.runners = update q.runners r v) (h : Holder) (other : h ≠ .runner r) : q'.holding h ↔ q.holding h := by
  cases h with
  | thread _ => simp [holding, threads]
  | runner r' =>
    have differ : r' ≠ r := fun same => other (by rw [same])
    simp [holding, runners, differ]

theorem holding_advance_self (runners : q'.runners = update q.runners r (some { runner with pc := dest })) :
    q'.holding (.runner r) ↔ dest.holds = true := by
  simp [holding, runners]

theorem not_holding_advance (runners : q'.runners = update q.runners r (some { runner with pc := dest }))
    (out : dest.holds = false) : ¬ q'.holding (.runner r) := by
  simp [holding, runners, out]

theorem holding_advance (here : q.runners r = some runner) (threads : q'.threads = q.threads)
    (runners : q'.runners = update q.runners r (some { runner with pc := dest })) (same : dest.holds = runner.pc.holds) (h : Holder) :
    q'.holding h ↔ q.holding h := by
  by_cases mine : h = .runner r
  · subst mine
    rw [holding_advance_self runners, same]
    simp [holding, here]
  · exact holding_advance_ne threads runners h mine

theorem owns_advance (here : q.runners r = some runner) (same : dest.live = runner.pc.live) (r' : RunnerId) :
    (q.advance r runner dest).owns r' ↔ q.owns r' :=
  exists_update_iff (·.live = true) (by simp [here, same]) r'

theorem acquire_ok {h : Holder} (ran : q.acquire h = .ok q') : q.mutex = none ∧ { q with mutex := some h } = q' :=
  of_guard ran

end TFCommon.QueueTask
