import TFCommon.Lib.Run
import TFCommon.Scheduler.Model

/-! `WorkQueue` and its `QueueTaskRunner` of `base/queue_task.h`, with any number of threads that call
the queue. There is one step for each access to `queue_`, `count_` or `disabled_`, which other threads
touch at the same time; what is touched under `mutex_` only is read and written within one step.
There is no `start_runner_`. -/
namespace TFCommon.QueueTask
open Function (update)
open Scheduler.TaskScheduler (CancelReturnCode)

abbrev ThreadId := Nat

abbrev RunnerId := Nat

structure Config (α : Type) where
  size : UInt64 := 1024
  maxIterations : Nat := 32
  bounded : Bool := false
  -- what `AtomicIncrementQueueCount` adds
  weight : α → UInt64 := fun _ => 1
  -- `WorkQueueDelete` has entries to delete
  pointers : Bool := true

inductive Thread (α : Type) where
  | idle (result : Option Bool)
  -- `EnqueueInternal` and `EnqueueBounded`
  | increment (entry : α)
  | push (entry : α) (ncount : UInt64)
  | decrement (entry : α)
  -- `MayBeStartRunner`, with what its caller returns afterwards
  | lock (result : Option Bool)
  | testQueue (result : Option Bool)
  | testAbort (result : Option Bool)
  | start (result : Option Bool)
  | unlock (result : Option Bool)
  -- `set_disable`
  | readDisabled (disabled : Bool)
  | writeDisabled (disabled : Bool)
  | rereadDisabled
  -- `ScheduleShutdown` and `Shutdown`, with the `ShutdownLocked` that both call
  | lockShutdown (scheduled : Bool) (deleteEntries : Bool)
  | shutdown (scheduled : Bool) (deleteEntries : Bool)
  | drain (deleteEntries : Bool)
  | clear

inductive RunnerPc (α : Type) where
  | queued
  | onEntry
  | abort
  | dequeue (count : Nat)
  | decrement (count : Nat) (entry : α)
  | callback (count : Nat) (entry : α)
  -- `RunnerDone`
  | lockDone
  | testQueue
  | testAbort
  | finish
  | resume
  | drain
  | clear
  -- `Run()` has returned, `OnTaskExit` is still to come
  | returned (done : Bool)

structure QueueTaskRunner (α : Type) where
  pc : RunnerPc α := .queued
  taskCancel : Bool := false

inductive Holder where
  | thread (t : ThreadId)
  | runner (r : RunnerId)
deriving DecidableEq, Repr

structure WorkQueue (α : Type) where
  queue : List α := []
  count : UInt64 := 0
  mutex : Option Holder := none
  running : Bool := false
  currentRunner : Option RunnerId := none
  disabled : Bool := false
  deleted : Bool := false
  shutdownScheduled : Bool := false
  deleteEntriesOnShutdown : Bool := true
  threads : ThreadId → Thread α := fun _ => .idle none
  runners : RunnerId → Option (QueueTaskRunner α) := fun _ => none
  -- the entries pushed, those handed to the callback, and those deleted, in this order
  pushed : List α := []
  delivered : List α := []
  freed : List α := []

/-- Why a step is not taken: it has to wait or is not there, or an assertion fails. -/
inductive Stuck where
  | blocked
  | failed
deriving DecidableEq, Repr

inductive Call (α : Type) where
  | enqueue (entry : α)
  | setDisable (disabled : Bool)
  | scheduleShutdown (deleteEntries : Bool)
  | shutdown (deleteEntries : Bool)

def Call.begin {α : Type} : Call α → Thread α
  | .enqueue entry => .increment entry
  | .setDisable disabled => .readDisabled disabled
  | .scheduleShutdown deleteEntries => .lockShutdown true deleteEntries
  | .shutdown deleteEntries => .lockShutdown false deleteEntries

/-- What happens next: `fresh` is the address that `new` returns, `answer` that of the client's callback. -/
inductive Action (α : Type) where
  | call (t : ThreadId) (c : Call α)
  | thread (t : ThreadId) (fresh : RunnerId)
  | dispatch (r : RunnerId)
  | runner (r : RunnerId) (answer : Bool)
  | exit (r : RunnerId)

namespace WorkQueue
variable {α : Type}

def goto (q : WorkQueue α) (t : ThreadId) (pc : Thread α) : WorkQueue α :=
  { q with threads := update q.threads t pc }

def advance (q : WorkQueue α) (r : RunnerId) (runner : QueueTaskRunner α) (pc : RunnerPc α) : WorkQueue α :=
  { q with runners := update q.runners r (some { runner with pc := pc }) }

def acquire (q : WorkQueue α) (h : Holder) : Except Stuck (WorkQueue α) :=
  if q.mutex = none then .ok { q with mutex := some h } else .error .blocked

def runnerAbortLocked (q : WorkQueue α) : Bool := q.disabled || q.shutdownScheduled

def cancelRunner (q : WorkQueue α) : Except Stuck (CancelReturnCode × WorkQueue α) :=
  match q.currentRunner with
  | none => .error .failed
  | some r =>
    match q.runners r with
    | none => .error .failed
    | some ⟨.queued, _⟩ => .ok (.cancelled, { q with runners := update q.runners r none })
    | some runner => .ok (.queued, { q with runners := update q.runners r (some { runner with taskCancel := true }) })

/-- `ScheduleShutdown` under the lock, up to `ShutdownLocked` if it comes to that. -/
def scheduleShutdown (q : WorkQueue α) (deleteEntries : Bool) : Except Stuck (Bool × WorkQueue α) :=
  if q.shutdownScheduled then .ok (false, q)
  else do
    let q := { q with shutdownScheduled := true, deleteEntriesOnShutdown := deleteEntries }
    if q.running then
      match ← q.cancelRunner with
      | (.cancelled, q) => return (true, { q with running := false, currentRunner := none })
      | (.queued, q) => return (false, q)
      | (.failed, _) => .error .failed
    else return (true, q)

def shutdownLocked (q : WorkQueue α) : Except Stuck (WorkQueue α) :=
  if q.deleted then .error .failed
  else if q.running then do
    match ← { q with running := false }.cancelRunner with
    | (.cancelled, q) => return { q with currentRunner := none }
    | _ => .error .failed
  else .ok q

def deleteTurn (cfg : Config α) (q : WorkQueue α) (deleteEntries : Bool) : Option (WorkQueue α) :=
  match q.queue with
  | entry :: rest =>
    if cfg.pointers then
      some { q with queue := rest, freed := if deleteEntries then q.freed ++ [entry] else q.freed }
    else none
  | [] => none

def clearQueue (q : WorkQueue α) : WorkQueue α :=
  { q with queue := [], count := 0, deleted := true, mutex := none }

def stepThread (cfg : Config α) (q : WorkQueue α) (t : ThreadId) (fresh : RunnerId) : Except Stuck (WorkQueue α) :=
  match q.threads t with
  | .idle _ => .error .blocked
  | .increment entry =>
    let ncount := q.count + cfg.weight entry
    let q := { q with count := ncount }
    .ok (q.goto t (if cfg.bounded && !(ncount < cfg.size) then .decrement entry else .push entry ncount))
  | .push entry ncount =>
    let q := { q with queue := q.queue ++ [entry], pushed := q.pushed ++ [entry] }
    .ok (q.goto t (.lock (some (cfg.bounded || ncount < cfg.size))))
  | .decrement entry => .ok ({ q with count := q.count - cfg.weight entry }.goto t (.idle (some false)))
  | .lock result => do return (← q.acquire (.thread t)).goto t (.testQueue result)
  | .testQueue result =>
    .ok (q.goto t (if q.running || q.queue.isEmpty || q.deleted then .unlock result else .testAbort result))
  | .testAbort result => .ok (q.goto t (if q.runnerAbortLocked then .unlock result else .start result))
  | .start result =>
    if q.currentRunner ≠ none then .error .failed
    else if (q.runners fresh).isSome then .error .blocked
    else .ok ({ q with
      running := true, currentRunner := some fresh
      runners := update q.runners fresh (some {}) }.goto t (.unlock result))
  | .unlock result => .ok ({ q with mutex := none }.goto t (.idle result))
  | .readDisabled disabled => .ok (q.goto t (if q.disabled ≠ disabled then .writeDisabled disabled else .idle none))
  | .writeDisabled disabled => .ok ({ q with disabled := disabled }.goto t .rereadDisabled)
  | .rereadDisabled => .ok (q.goto t (if q.disabled then .idle none else .lock none))
  | .lockShutdown scheduled deleteEntries => do
    return (← q.acquire (.thread t)).goto t (.shutdown scheduled deleteEntries)
  | .shutdown true deleteEntries => do
    let (now, q) ← q.scheduleShutdown deleteEntries
    if now then return (← q.shutdownLocked).goto t (.drain deleteEntries)
    else return q.goto t (.unlock none)
  | .shutdown false deleteEntries => do return (← q.shutdownLocked).goto t (.drain deleteEntries)
  | .drain deleteEntries =>
    match q.deleteTurn cfg deleteEntries with
    | some q => .ok q
    | none => .ok (q.goto t .clear)
  | .clear => .ok (q.clearQueue.goto t (.idle none))

def stepRunner (cfg : Config α) (q : WorkQueue α) (r : RunnerId) (answer : Bool) : Except Stuck (WorkQueue α) :=
  match q.runners r with
  | none => .error .blocked
  | some runner =>
    match runner.pc with
    | .queued => .error .blocked
    | .onEntry => .ok (q.advance r runner (if answer then .abort else .returned false))
    | .abort =>
      if q.mutex = none then .ok (q.advance r runner (if q.runnerAbortLocked then .lockDone else .dequeue 0))
      else .error .blocked
    | .dequeue count =>
      match q.queue with
      | [] => .ok (q.advance r runner .lockDone)
      | entry :: rest => .ok ({ q with queue := rest }.advance r runner (.decrement count entry))
    | .decrement count entry =>
      .ok ({ q with count := q.count - cfg.weight entry }.advance r runner (.callback count entry))
    | .callback count entry =>
      let q := { q with delivered := q.delivered ++ [entry] }
      .ok (q.advance r runner
        (if !answer then .lockDone else if count + 1 = cfg.maxIterations then .lockDone else .dequeue (count + 1)))
    | .lockDone => do return (← q.acquire (.runner r)).advance r runner .testQueue
    | .testQueue => .ok (q.advance r runner (if q.queue.isEmpty then .finish else .testAbort))
    | .testAbort => .ok (q.advance r runner (if q.runnerAbortLocked then .finish else .resume))
    | .finish =>
      let q := { q with currentRunner := none, running := false }
      if q.shutdownScheduled then do return (← q.shutdownLocked).advance r runner .drain
      else .ok ({ q with mutex := none }.advance r runner (.returned true))
    | .resume => .ok ({ q with running := true, mutex := none }.advance r runner (.returned false))
    | .drain =>
      match q.deleteTurn cfg q.deleteEntriesOnShutdown with
      | some q => .ok q
      | none => .ok (q.advance r runner .clear)
    | .clear => .ok (q.clearQueue.advance r runner (.returned true))
    | .returned _ => .error .blocked

def dispatch (q : WorkQueue α) (r : RunnerId) : Except Stuck (WorkQueue α) :=
  match q.runners r with
  | some ⟨.queued, cancel⟩ => .ok (q.advance r ⟨.queued, cancel⟩ .onEntry)
  | _ => .error .blocked

/-- `OnTaskExit` deletes a runner that is done or cancelled, and enqueues it again otherwise. -/
def taskExit (q : WorkQueue α) (r : RunnerId) : Except Stuck (WorkQueue α) :=
  match q.runners r with
  | some ⟨.returned done, cancel⟩ =>
    if done || cancel then .ok { q with runners := update q.runners r none }
    else .ok (q.advance r ⟨.returned done, cancel⟩ .queued)
  | _ => .error .blocked

def step (cfg : Config α) (q : WorkQueue α) : Action α → Except Stuck (WorkQueue α)
  | .call t c =>
    match q.threads t with
    | .idle _ => .ok (q.goto t c.begin)
    | _ => .error .blocked
  | .thread t fresh => q.stepThread cfg t fresh
  | .dispatch r => q.dispatch r
  | .runner r answer => q.stepRunner cfg r answer
  | .exit r => q.taskExit r

end WorkQueue

end TFCommon.QueueTask
