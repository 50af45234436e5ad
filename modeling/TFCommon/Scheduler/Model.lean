import TFCommon.Lib.KeyedList
import TFCommon.Lib.Loop
import Mathlib.Logic.Function.Basic
import Mathlib.Order.WithBot

/-! `TaskScheduler` of `base/task.cc`. `none` is a failed assertion, an access through `NULL`, or an
intrusive hook that is linked twice. Every member function runs under `mutex_`. -/
namespace TFCommon.Scheduler
open Function (update)

abbrev TaskId := Nat

/-- `none` is the instance -1. -/
abbrev Instance := Option Nat

abbrev TaskPtr := Nat

/-- A `TaskEntry`: the one of `GetTaskEntry(id, inst)`, the `disable_entry_` of a group, the `stop_entry_`. -/
inductive EntryId where
  | task (id : TaskId) (inst : Instance)
  | disable (id : TaskId)
  | stop
deriving DecidableEq, Repr

inductive Owner where
  | group (id : TaskId)
  | entry (e : EntryId)
deriving DecidableEq, Repr

/-- `task_id_`; the stop entry's is -1. -/
def EntryId.taskId : EntryId → Option TaskId
  | .task id _ => some id
  | .disable id => some id
  | .stop => none

def EntryId.taskInstance : EntryId → Instance
  | .task _ inst => inst
  | .disable _ => none
  | .stop => none

inductive TaskState where
  | init
  | wait
  | run
deriving DecidableEq, Repr

structure Task where
  taskId : TaskId
  taskInstance : Instance
  state : TaskState := .init
  seqno : Nat := 0
  taskRecycle : Bool := false
  taskCancel : Bool := false
  -- `task_impl_ != NULL`
  taskImpl : Bool := false
deriving DecidableEq, Repr

def Task.entry (task : Task) : EntryId := .task task.taskId task.taskInstance

structure TaskExclusion where
  matchId : TaskId
  matchInstance : Instance
deriving DecidableEq, Repr

abbrev TaskPolicy := List TaskExclusion

/-- `policyq_` of a new entry: only one task of an instance runs at a time. -/
def implicitPolicy : EntryId → List EntryId
  | .task id (some n) => [.task id (some n)]
  | _ => []

/-- The scheduler with its groups and entries, one map for each of their fields. A group or entry that
is not in `groupDb` or `entryDb` is still to be constructed and has the values of its constructor. -/
structure TaskScheduler where
  running : Bool := true
  seqno : Nat := 0
  enqueueCount : Nat := 0
  doneCount : Nat := 0
  cancelCount : Nat := 0
  tasks : TaskPtr → Option Task := fun _ => none
  groupDb : List TaskId := []
  entryDb : List (TaskId × Nat) := []
  policySet : TaskId → Bool := fun _ => false
  policy : TaskId → List TaskId := fun _ => []
  groupDisable : TaskId → Bool := fun _ => false
  runTask : EntryId → Option TaskPtr := fun _ => none
  waitq : EntryId → List TaskPtr := fun _ => []
  policyq : EntryId → List EntryId := implicitPolicy
  deferqTaskEntry : EntryId → Option EntryId := fun _ => none
  deferqTaskGroup : EntryId → Option TaskId := fun _ => none
  -- `task_defer_node.is_linked()`
  deferNode : EntryId → Bool := fun _ => false
  disable : EntryId → Bool := fun _ => false
  runCount : Owner → Int := fun _ => 0
  deferq : Owner → List EntryId := fun _ => []
  -- the started `TaskImpl`s that have not been destroyed
  tbb : List TaskPtr := []

namespace TaskScheduler

section database

def getTaskGroup (s : TaskScheduler) (id : TaskId) : TaskScheduler :=
  if id ∈ s.groupDb then s else { s with groupDb := id :: s.groupDb }

def getTaskEntry (s : TaskScheduler) (id : TaskId) : Instance → TaskScheduler
  | none => s.getTaskGroup id
  | some n =>
    let s := s.getTaskGroup id
    if (id, n) ∈ s.entryDb then s else { s with entryDb := (id, n) :: s.entryDb }

def queryTaskGroup (s : TaskScheduler) (id : TaskId) : Bool := decide (id ∈ s.groupDb)

def queryTaskEntry (s : TaskScheduler) (id : TaskId) : Instance → Bool
  | none => s.queryTaskGroup id
  | some n => s.queryTaskGroup id && decide ((id, n) ∈ s.entryDb)

end database

section policy

def addGroupPolicy (s : TaskScheduler) (id other : TaskId) : TaskScheduler :=
  { s with policy := update s.policy id (s.policy id ++ [other]) }

def addPolicy (s : TaskScheduler) (e other : EntryId) : TaskScheduler :=
  { s with policyq := update s.policyq e (s.policyq e ++ [other]) }

def addRule (s : TaskScheduler) (id : TaskId) (rule : TaskExclusion) : TaskScheduler :=
  match rule.matchInstance with
  | none => ((s.getTaskGroup rule.matchId).addGroupPolicy id rule.matchId).addGroupPolicy rule.matchId id
  | some n =>
    let s := (s.getTaskEntry id (some n)).getTaskEntry rule.matchId (some n)
    let s := (s.addPolicy (.task id (some n)) (.task rule.matchId (some n))).addPolicy
      (.task rule.matchId (some n)) (.task id (some n))
    (s.addPolicy (.task id none) (.task rule.matchId (some n))).addPolicy
      (.task rule.matchId (some n)) (.task id none)

def setPolicy (s : TaskScheduler) (id : TaskId) (policy : TaskPolicy) : Option TaskScheduler :=
  let s := s.getTaskGroup id
  if s.policySet id then none
  else some (policy.foldl (fun s rule => s.addRule id rule) { s with policySet := update s.policySet id true })

end policy

section queues

def headSeqno (s : TaskScheduler) (e : EntryId) : WithBot Nat :=
  match s.waitq e with
  | [] => ⊥
  | t :: _ =>
    match s.tasks t with
    | none => ⊥
    | some task => WithBot.some task.seqno

def setTask (s : TaskScheduler) (t : TaskPtr) (task : Task) : TaskScheduler :=
  { s with tasks := update s.tasks t (some task) }

def addToWaitQ (s : TaskScheduler) (e : EntryId) (t : TaskPtr) : Option TaskScheduler := do
  let task ← s.tasks t
  if t ∈ s.waitq e then none
  else some { s.setTask t { task with state := .wait } with waitq := update s.waitq e (s.waitq e ++ [t]) }

def deleteFromWaitQ (s : TaskScheduler) (e : EntryId) (t : TaskPtr) : Option TaskScheduler :=
  if t ∈ s.waitq e then some { s with waitq := update s.waitq e ((s.waitq e).erase t) } else none

/-- The back pointer of `e` that an owner of this kind sets. -/
def backPointer (s : TaskScheduler) (e : EntryId) : Owner → Option Owner
  | .group _ => (s.deferqTaskGroup e).map .group
  | .entry _ => (s.deferqTaskEntry e).map .entry

def setBackPointer (s : TaskScheduler) (e : EntryId) : Owner → TaskScheduler
  | .group g => { s with deferqTaskGroup := update s.deferqTaskGroup e (some g) }
  | .entry x => { s with deferqTaskEntry := update s.deferqTaskEntry e (some x) }

def clearBackPointer (s : TaskScheduler) (e : EntryId) : Owner → TaskScheduler
  | .group _ => { s with deferqTaskGroup := update s.deferqTaskGroup e none }
  | .entry _ => { s with deferqTaskEntry := update s.deferqTaskEntry e none }

def addToDeferQ (s : TaskScheduler) (o : Owner) (e : EntryId) : Option TaskScheduler :=
  if s.deferNode e = false ∧ s.backPointer e o = none then
    some ({ s with
      deferq := update s.deferq o (KeyedList.insert s.headSeqno e (s.deferq o))
      deferNode := update s.deferNode e true }.setBackPointer e o)
  else none

def deleteFromDeferQ (s : TaskScheduler) (o : Owner) (e : EntryId) : Option TaskScheduler :=
  if s.backPointer e o = some o ∧ e ∈ s.deferq o then
    some ({ s with
      deferq := update s.deferq o ((s.deferq o).erase e)
      deferNode := update s.deferNode e false }.clearBackPointer e o)
  else none

end queues

section run

def activeGroupInPolicy (s : TaskScheduler) (id : TaskId) : Option TaskId :=
  (s.policy id).find? fun g => s.runCount (.group g) ≠ 0

def activeEntryInPolicy (s : TaskScheduler) (e : EntryId) : Option EntryId :=
  (s.policyq e).find? fun x => s.runCount (.entry x) ≠ 0

/-- `DeferOnPolicyFail` behind the owner that is active, if one is. -/
def deferOn (s : TaskScheduler) (active : Option Owner) (e : EntryId) (t : TaskPtr) : Option (Bool × TaskScheduler) :=
  match active with
  | none => some (false, s)
  | some o => do
    let s ← if (s.waitq e).length = 0 then s.addToWaitQ e t else some s
    let s ← s.addToDeferQ o e
    return (true, s)

def groupDeferOnPolicyFail (s : TaskScheduler) (id : TaskId) (e : EntryId) (t : TaskPtr) :
    Option (Bool × TaskScheduler) :=
  s.deferOn ((s.activeGroupInPolicy id).map .group) e t

def deferOnPolicyFail (s : TaskScheduler) (e : EntryId) (t : TaskPtr) : Option (Bool × TaskScheduler) :=
  s.deferOn ((s.activeEntryInPolicy e).map .entry) e t

def startTask (s : TaskScheduler) (t : TaskPtr) : Option TaskScheduler := do
  let task ← s.tasks t
  if task.taskImpl then none
  else some { s.setTask t { task with state := .run, taskImpl := true } with tbb := t :: s.tbb }

def addRunCount (s : TaskScheduler) (o : Owner) (d : Int) : TaskScheduler :=
  { s with runCount := update s.runCount o (s.runCount o + d) }

def setRunTask (s : TaskScheduler) (e : EntryId) (t : TaskPtr) (inst : Instance) : Option TaskScheduler :=
  if inst = none then some s
  else if s.runTask e = none ∧ s.runCount (.entry e) = 0 then some { s with runTask := update s.runTask e (some t) }
  else none

def runTaskOf (s : TaskScheduler) (e : EntryId) (t : TaskPtr) : Option TaskScheduler := do
  let task ← s.tasks t
  let s ← s.setRunTask e t task.taskInstance
  let s := s.addRunCount (.entry e) 1
  if s.queryTaskGroup task.taskId then (s.addRunCount (.group task.taskId) 1).startTask t else none

/-- One turn of the loop that runs every task of an entry without instance. -/
def runAllTurn (e : EntryId) (s : TaskScheduler) : Option (Turn TaskScheduler TaskScheduler) :=
  match s.waitq e with
  | [] => some (.exit s)
  | t :: _ => do
    let s ← s.deleteFromWaitQ e t
    let s ← s.runTaskOf e t
    return .again s

def runWaitQ (s : TaskScheduler) (e : EntryId) : Option TaskScheduler :=
  match s.waitq e with
  | [] => some s
  | t :: rest =>
    if e.taskInstance = none then loop (runAllTurn e) (rest.length + 2) s
    else do
      let s ← s.deleteFromWaitQ e t
      let s ← s.runTaskOf e t
      if (s.waitq e).length ≠ 0 then s.addToDeferQ (.entry e) e else return s

def runDeferEntry (s : TaskScheduler) (e : EntryId) : Option TaskScheduler := do
  let id ← e.taskId
  let s := s.getTaskGroup id
  let t ← (s.waitq e).head?
  let (deferred, s) ← s.groupDeferOnPolicyFail id e t
  if deferred then return s
  let (deferred, s) ← s.deferOnPolicyFail e t
  if deferred then return s
  s.runWaitQ e

def visit (s : TaskScheduler) (o : Owner) (e : EntryId) : Option TaskScheduler := do
  (← s.deleteFromDeferQ o e).runDeferEntry e

/-- A bound on the turns of a deferq loop: each turn is at a later head task. -/
def turns (s : TaskScheduler) : Nat := s.seqno + 2

def runDeferQTurn (o : Owner) :
    Option EntryId × TaskScheduler → Option (Turn (Option EntryId × TaskScheduler) TaskScheduler)
  | (none, s) => some (.exit s)
  | (some e, s) => do
    let next := KeyedList.next e (s.deferq o)
    let s ← s.visit o e
    return .again (next, s)

def runDeferQ (s : TaskScheduler) (o : Owner) : Option TaskScheduler :=
  loop (runDeferQTurn o) s.turns ((s.deferq o).head?, s)

/-- The merging loop of `RunCombinedDeferQ` on `(group_it, entry_it)`. -/
def combinedTurn (g e : Owner) : (Option EntryId × Option EntryId) × TaskScheduler →
    Option (Turn ((Option EntryId × Option EntryId) × TaskScheduler) ((Option EntryId × Option EntryId) × TaskScheduler))
  | ((some x, some y), s) =>
    if s.headSeqno x < s.headSeqno y then do
      let next := KeyedList.next x (s.deferq g)
      let s ← s.visit g x
      return .again ((next, some y), s)
    else do
      let next := KeyedList.next y (s.deferq e)
      let s ← s.visit e y
      return .again ((some x, next), s)
  | ended => some (.exit ended)

def runCombinedDeferQ (s : TaskScheduler) (id : TaskId) (e : EntryId) : Option TaskScheduler := do
  let ((x, y), s) ← loop (combinedTurn (.group id) (.entry e)) s.turns
    (((s.deferq (.group id)).head?, (s.deferq (.entry e)).head?), s)
  if x ≠ none then s.runDeferQ (.group id)
  else if y ≠ none then s.runDeferQ (.entry e)
  else return s

/-- `run_task_ = NULL`, for an entry with an instance. -/
def clearRunTask (s : TaskScheduler) (e : EntryId) (t : TaskPtr) : Option TaskScheduler :=
  if e.taskInstance = none then some s
  else if s.runTask e = some t ∧ s.runCount (.entry e) = 1 then some { s with runTask := update s.runTask e none }
  else none

def taskExited (s : TaskScheduler) (e : EntryId) (t : TaskPtr) (id : TaskId) : Option TaskScheduler := do
  let s ← s.clearRunTask e t
  let s := (s.addRunCount (.entry e) (-1)).addRunCount (.group id) (-1)
  if s.runCount (.group id) = 0 ∧ s.runCount (.entry e) = 0 then s.runCombinedDeferQ id e
  else if s.runCount (.group id) = 0 then s.runDeferQ (.group id)
  else if s.runCount (.entry e) = 0 then s.runDeferQ (.entry e)
  else return s

end run

section interface

/-- The second part of `EnqueueUnLocked`, with the entry of the task at hand. -/
def enqueueEntry (s : TaskScheduler) (id : TaskId) (e : EntryId) (t : TaskPtr) : Option TaskScheduler :=
  if s.groupDisable id ∨ s.disable e then do
    let s ← s.addToWaitQ e t
    if s.groupDisable id then s.addToDeferQ (.entry (.disable id)) e else return s
  else if (s.waitq e).length ≠ 0 then s.addToWaitQ e t
  else if s.running = false then do
    let s ← s.addToWaitQ e t
    s.addToDeferQ (.entry .stop) e
  else do
    let (deferred, s) ← s.groupDeferOnPolicyFail id e t
    if deferred then return s
    let (deferred, s) ← s.deferOnPolicyFail e t
    if deferred then return s
    s.runTaskOf e t

def enqueue (s : TaskScheduler) (t : TaskPtr) : Option TaskScheduler := do
  let task ← s.tasks t
  if task.seqno ≠ 0 then none
  let s := { s with enqueueCount := s.enqueueCount + 1, seqno := s.seqno + 1 }
  let s := s.setTask t { task with seqno := s.seqno }
  let id := task.taskId
  ((s.getTaskGroup id).getTaskEntry id task.taskInstance).enqueueEntry id task.entry t

inductive CancelReturnCode where
  | cancelled
  | failed
  | queued
deriving DecidableEq, Repr

/-- The owner whose deferq `Cancel` takes `e` to be in; `none` fails the `assert(0)`, `some none` is an
entry that is disabled itself. -/
def cancelOwner (s : TaskScheduler) (id : TaskId) (e : EntryId) : Option (Option Owner) :=
  match s.deferqTaskGroup e with
  | some g => if s.deferqTaskEntry e = none then some (some (.group g)) else none
  | none =>
    match s.deferqTaskEntry e with
    | some x => some (some (.entry x))
    | none =>
      if s.groupDisable id then some (some (.entry (.disable id)))
      else if s.disable e then some none
      else none

def cancelLast (s : TaskScheduler) (id : TaskId) (e : EntryId) : Option TaskScheduler := do
  match ← s.cancelOwner id e with
  | some o => s.deleteFromDeferQ o e
  | none => return s

/-- `Cancel` has removed the first task of the waitq of `e`, by which deferqs are sorted. -/
def cancelFirst (s : TaskScheduler) (id : TaskId) (e : EntryId) : Option TaskScheduler := do
  match ← s.cancelOwner id e with
  | some o => (← s.deleteFromDeferQ o e).addToDeferQ o e
  | none => return s

def cancel (s : TaskScheduler) (t : TaskPtr) : Option (CancelReturnCode × TaskScheduler) := do
  let task ← s.tasks t
  match task.state with
  | .run => return (.queued, s.setTask t { task with taskCancel := true })
  | .init => return (.failed, s)
  | .wait =>
    let e := task.entry
    if s.queryTaskEntry task.taskId task.taskInstance = false then none
    let first ← (s.waitq e).head?
    let s ← s.deleteFromWaitQ e t
    let s ← if (s.waitq e).length = 0 then s.cancelLast task.taskId e
      else if t = first then s.cancelFirst task.taskId e
      else some s
    return (.cancelled, { s with tasks := update s.tasks t none, cancelCount := s.cancelCount + 1 })

def onTaskExit (s : TaskScheduler) (t : TaskPtr) : Option TaskScheduler := do
  let s := { s with tbb := s.tbb.erase t, doneCount := s.doneCount + 1 }
  let task ← s.tasks t
  if s.queryTaskEntry task.taskId task.taskInstance = false then none
  let s ← (s.getTaskGroup task.taskId).taskExited task.entry t task.taskId
  let task ← s.tasks t
  if task.taskRecycle = false ∨ task.taskCancel = true then
    return { s with tasks := update s.tasks t none }
  else (s.setTask t { task with taskImpl := false, seqno := 0, state := .init }).enqueue t

def stop (s : TaskScheduler) : TaskScheduler := { s with running := false }

def start (s : TaskScheduler) : Option TaskScheduler := { s with running := true }.runDeferQ (.entry .stop)

def newTask (s : TaskScheduler) (t : TaskPtr) (id : TaskId) (inst : Instance) : TaskScheduler :=
  s.setTask t { taskId := id, taskInstance := inst }

def setRecycle (s : TaskScheduler) (t : TaskPtr) (recycle : Bool) : Option TaskScheduler := do
  let task ← s.tasks t
  return s.setTask t { task with taskRecycle := recycle }

end interface

end TaskScheduler

end TFCommon.Scheduler
