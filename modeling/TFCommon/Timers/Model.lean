import TFCommon.QueueTask.Model

/-! `Timer` and its `TimerTask` of `base/timer.cc`: the calls of the users, the expiries that ASIO reports
and the scheduler's handling of the tasks. A critical section under `mutex_` is one step, and so is what a
task does between two of them. -/
namespace TFCommon.Timers
open Scheduler.TaskScheduler (CancelReturnCode)
open QueueTask (Stuck)

inductive TimerState where
  | init
  | running
  | fired
  | cancelled
deriving DecidableEq, Repr

/-- A `boost::function`; 0 is the empty one. -/
abbrev Handler := Nat

/-- A task is known by its place among all that were created. -/
abbrev TaskId := Nat

inductive ErrorCode where
  | success
  | operationAborted
  | other
deriving DecidableEq, Repr

inductive TaskPc where
  | wait
  | start
  | callback
  | completed (restart : Bool)
  -- the arguments of `Start` are read outside of the mutex
  | restart
  | rearm (time : Int) (handler errorHandler : Handler)
  -- `TimerManager::DeleteTimer`
  | deleteTimer
  | cancelTimer
  | eraseTimer
  | returned
  | deleted
deriving DecidableEq, Repr

structure TimerTask where
  ec : ErrorCode
  pc : TaskPc := .wait
  taskCancel : Bool := false
  -- `timer_` is not NULL
  hasTimer : Bool := true
deriving DecidableEq, Repr

structure Timer where
  state : TimerState := .init
  timerTask : Option TaskId := none
  time : Int := 0
  handler : Handler := 0
  errorHandler : Handler := 0
  seqNo : UInt32 := 0
  -- the `seq_no` of each wait that ASIO has still to report
  waits : List UInt32 := []
  tasks : List TimerTask := []
  -- the timer is in `timer_ref_`
  inSet : Bool := true
  -- the functions that tasks have called, in this order
  invoked : List Handler := []
deriving DecidableEq, Repr

/-- `ok` and `answer` are what `expires_from_now` and a handler return. -/
inductive Action where
  | start (time : Int) (handler errorHandler : Handler) (ok : Bool)
  | cancel
  | reschedule (time : Int)
  | expire (wait : Nat) (ec : ErrorCode)
  | dispatch (t : TaskId)
  | task (t : TaskId) (answer : Bool)
  | exit (t : TaskId)
deriving DecidableEq, Repr

def Action.isStart : Action → Bool
  | .start .. => true
  | _ => false

namespace Timer

def modifyTask (timer : Timer) (t : TaskId) (f : TimerTask → TimerTask) : Timer :=
  { timer with tasks := timer.tasks.modify t f }

def goto (timer : Timer) (t : TaskId) (pc : TaskPc) : Timer := timer.modifyTask t fun task => { task with pc := pc }

def start (timer : Timer) (time : Int) (handler errorHandler : Handler) (ok : Bool) : Bool × Timer :=
  if time < 0 then (true, timer)
  else if timer.state = .running ∨ timer.state = .fired then (true, timer)
  else
    let timer :=
      { timer with time := time, handler := handler, seqNo := timer.seqNo + 1, errorHandler := errorHandler }
    if ok then (true, { timer with state := .running, waits := timer.waits ++ [timer.seqNo] })
    else (false, timer)

def reschedule (timer : Timer) (time : Int) : Bool × Timer :=
  if timer.state ≠ .fired then (false, timer)
  else if time < 0 then (false, timer)
  else (true, { timer with time := time })

def cancelTask (timer : Timer) (t : TaskId) : Except Stuck (CancelReturnCode × Timer) :=
  match timer.tasks[t]? with
  | none => .error .failed
  | some task =>
    match task.pc with
    | .wait => .ok (.cancelled, timer.goto t .deleted)
    | .deleted => .ok (.failed, timer)
    | _ => .ok (.queued, timer.modifyTask t fun task => { task with taskCancel := true })

def cancel (timer : Timer) : Except Stuck (Bool × Timer) :=
  if timer.state = .fired then .ok (false, timer)
  else
    match timer.timerTask with
    | none => .ok (true, { timer with state := .cancelled })
    | some t => do
      let (rc, timer) ← timer.cancelTask t
      if rc = .failed then .error .failed
      else return (true, { timer with timerTask := none, state := .cancelled })

def startTimerTask (timer : Timer) (seqNo : UInt32) (ec : ErrorCode) : Except Stuck Timer :=
  if timer.state = .cancelled then .ok timer
  else if ec = .operationAborted then .ok timer
  else if timer.seqNo ≠ seqNo then .ok timer
  else if timer.timerTask ≠ none then .error .failed
  else .ok { timer with timerTask := some timer.tasks.length, tasks := timer.tasks ++ [{ ec := ec }] }

def onTaskCancel (timer : Timer) (t : TaskId) (task : TimerTask) : Except Stuck Timer :=
  if task.hasTimer = false then .ok timer
  else if timer.timerTask ≠ some t ∧ timer.timerTask ≠ none then .error .failed
  else .ok { timer with timerTask := none, state := .init }

def stepTask (deleteOnCompletion : Bool) (timer : Timer) (t : TaskId) (answer : Bool) : Except Stuck Timer :=
  match timer.tasks[t]? with
  | none => .error .blocked
  | some task =>
    match task.pc with
    | .wait => .error .blocked
    | .start =>
      if task.taskCancel then .ok (timer.modifyTask t fun task => { task with hasTimer := false, pc := .returned })
      else .ok ({ timer with state := .fired }.goto t .callback)
    | .callback =>
      if task.ec ≠ .success ∧ timer.errorHandler ≠ 0 then
        .ok ({ timer with invoked := timer.invoked ++ [timer.errorHandler] }.goto t (.completed false))
      else .ok ({ timer with invoked := timer.invoked ++ [timer.handler] }.goto t (.completed answer))
    | .completed restart => do
      let timer ← timer.onTaskCancel t task
      return timer.goto t (if restart then .restart else if deleteOnCompletion then .deleteTimer else .returned)
    | .restart => .ok (timer.goto t (.rearm timer.time timer.handler timer.errorHandler))
    | .rearm time handler errorHandler => .ok ((timer.start time handler errorHandler answer).2.goto t .returned)
    | .deleteTimer => .ok (timer.goto t (if timer.state = .fired then .returned else .cancelTimer))
    | .cancelTimer => do
      let (cancelled, timer) ← timer.cancel
      return timer.goto t (if !cancelled && deleteOnCompletion then .returned else .eraseTimer)
    | .eraseTimer => .ok ({ timer with inSet := false }.goto t .returned)
    | .returned => .error .blocked
    | .deleted => .error .blocked

def dispatch (timer : Timer) (t : TaskId) : Except Stuck Timer :=
  match timer.tasks[t]? with
  | some task => if task.pc = .wait then .ok (timer.goto t .start) else .error .blocked
  | none => .error .blocked

def taskExit (timer : Timer) (t : TaskId) : Except Stuck Timer :=
  match timer.tasks[t]? with
  | some task =>
    if task.pc = .returned then do
      let timer ← if task.taskCancel then timer.onTaskCancel t task else .ok timer
      return timer.goto t .deleted
    else .error .blocked
  | none => .error .blocked

def step (deleteOnCompletion : Bool) (timer : Timer) : Action → Except Stuck Timer
  | .start time handler errorHandler ok => .ok (timer.start time handler errorHandler ok).2
  | .cancel => do return (← timer.cancel).2
  | .reschedule time => .ok (timer.reschedule time).2
  | .expire wait ec =>
    match timer.waits[wait]? with
    | some seqNo => { timer with waits := timer.waits.eraseIdx wait }.startTimerTask seqNo ec
    | none => .error .blocked
  | .dispatch t => timer.dispatch t
  | .task t answer => timer.stepTask deleteOnCompletion t answer
  | .exit t => timer.taskExit t

end Timer

end TFCommon.Timers
