import TFCommon.QueueTask.Model

/-! `LifetimeActor` and `LifetimeManager` of `base/lifetime.cc`, with any number of actors that one manager
deletes. A critical section under an actor's `mutex_` is one step; `PropagateDelete` holds the mutex while
it deletes the dependents one by one. The `WorkQueue` runs one `DeleteExecutor` at a time. -/
namespace TFCommon.Lifetime
open Function (update)
open QueueTask (Stuck)

abbrev ActorId := Nat

structure LifetimeActor where
  deleted : Bool := false
  refcount : Int := 0
  shutdownInvoked : Bool := false
  deletePaused : Bool := false
  -- the actors of the objects that have a `LifetimeRef` to this one
  dependents : List ActorId := []
  -- the actors that the `LifetimeRef`s of this one's object refer to
  refs : List ActorId := []
  -- what `MayDelete()` returns
  mayDelete : Bool := true
  -- `MayDelete()` was false at the last `ReferenceDecrementAndTest` or has been since
  refused : Bool := false
  -- how often `PropagateDelete`, `Shutdown` and `Destroy` have been called
  propagations : Nat := 0
  shutdowns : Nat := 0
  destroys : Nat := 0
deriving DecidableEq, Repr

inductive Phase where
  | test
  | propagate
  | propagating (rest : List ActorId)
  | shutdown
  | mayDestroy
  | requeue
  | decrement
  | destroy
  -- `Destroy` deletes the `LifetimeRef`s of the object
  | release
deriving DecidableEq, Repr

structure LifetimeManager where
  actors : ActorId → LifetimeActor := fun _ => {}
  queue : List ActorId := []
  executor : Option (ActorId × Phase) := none
  -- the calls of `Enqueue` between `ReferenceIncrement` and `queue_.Enqueue`
  retries : List ActorId := []
  deferCount : Nat := 0

/-- The steps of the callers; `setMayDelete` is what makes `MayDelete()` return `open_`, and `answer` is what
`MayDestroy()` returns. -/
inductive Action where
  | delete (a : ActorId)
  | retryDelete (a : ActorId)
  | retryEnqueue (a : ActorId)
  | pauseDelete (a : ActorId)
  | resumeDelete (a : ActorId)
  | dependencyAdd (p d : ActorId)
  | dependencyRemove (p d : ActorId)
  | setMayDelete (a : ActorId) (open_ : Bool)
  | execute (answer : Bool)
deriving DecidableEq, Repr

namespace LifetimeManager

def phase (m : LifetimeManager) (a : ActorId) : Option Phase :=
  match m.executor with
  | some (b, phase) => if b = a then some phase else none
  | none => none

def locked (m : LifetimeManager) (a : ActorId) : Bool :=
  match m.phase a with
  | some (.propagating _) => true
  | _ => false

/-- Whoever takes the mutex of an actor that is destroyed uses freed memory. -/
def lock (m : LifetimeManager) (a : ActorId) : Except Stuck LifetimeActor :=
  if 0 < (m.actors a).destroys then .error .failed
  else if m.locked a then .error .blocked
  else .ok (m.actors a)

def modifyActor (m : LifetimeManager) (a : ActorId) (f : LifetimeActor → LifetimeActor) : LifetimeManager :=
  { m with actors := update m.actors a (f (m.actors a)) }

def enqueueNoIncrement (m : LifetimeManager) (a : ActorId) : LifetimeManager := { m with queue := m.queue ++ [a] }

def increment (m : LifetimeManager) (a : ActorId) : LifetimeManager :=
  m.modifyActor a fun actor => { actor with refcount := actor.refcount + 1 }

def delete (m : LifetimeManager) (a : ActorId) : Except Stuck LifetimeManager := do
  let actor ← m.lock a
  if actor.deleted then return m
  else return ((m.modifyActor a fun actor => { actor with deleted := true }).increment a).enqueueNoIncrement a

/-- `RetryDelete`, up to `queue_.Enqueue`. The caller holds a dependency or what `MayDelete()` looks at. -/
def retryDelete (m : LifetimeManager) (a : ActorId) : Except Stuck LifetimeManager := do
  let actor ← m.lock a
  if actor.deleted = false then .error .failed
  else if actor.mayDelete && actor.dependents.isEmpty then .error .blocked
  else return { m.increment a with retries := a :: m.retries }

def retryEnqueue (m : LifetimeManager) (a : ActorId) : Except Stuck LifetimeManager :=
  if a ∈ m.retries then .ok ({ m with retries := m.retries.erase a }.enqueueNoIncrement a) else .error .blocked

def pauseDelete (m : LifetimeManager) (a : ActorId) : Except Stuck LifetimeManager := do
  let actor ← m.lock a
  if actor.deleted then .error .failed
  else return m.modifyActor a fun actor => { actor with deletePaused := true }

/-- The scheduler is stopped when this is called. -/
def resumeDelete (m : LifetimeManager) (a : ActorId) : Except Stuck LifetimeManager := do
  let actor ← m.lock a
  if m.executor ≠ none then .error .blocked
  else if actor.deleted = false then .error .failed
  else return ((m.modifyActor a fun actor => { actor with deletePaused := false }).increment a).enqueueNoIncrement a

def link (m : LifetimeManager) (p d : ActorId) : LifetimeManager :=
  let m := m.modifyActor p fun actor => { actor with dependents := actor.dependents ++ [d] }
  m.modifyActor d fun actor => { actor with refs := actor.refs ++ [p] }

def unlink (m : LifetimeManager) (p d : ActorId) : LifetimeManager :=
  let m := m.modifyActor p fun actor => { actor with dependents := actor.dependents.erase d }
  m.modifyActor d fun actor => { actor with refs := actor.refs.erase p }

def dependencyAdd (m : LifetimeManager) (p d : ActorId) : Except Stuck LifetimeManager := do
  let actor ← m.lock p
  if actor.deleted then .error .failed
  else if 0 < (m.actors d).destroys then .error .failed
  else return m.link p d

def dependencyRemove (m : LifetimeManager) (p d : ActorId) : Except Stuck LifetimeManager := do
  let actor ← m.lock p
  if d ∉ actor.dependents then .error .failed
  else
    let m := m.unlink p d
    if (m.actors p).deleted && (m.actors p).dependents.isEmpty then return (m.increment p).enqueueNoIncrement p
    else return m

/-- Once `MayDelete()` has been found to hold for the destruction of the actor, nobody can take it back. -/
def setMayDelete (m : LifetimeManager) (a : ActorId) (open_ : Bool) : Except Stuck LifetimeManager :=
  if open_ = false ∧ m.phase a = some .destroy then .error .blocked
  else .ok (m.modifyActor a fun actor => { actor with mayDelete := open_, refused := actor.refused || !open_ })

def goto (m : LifetimeManager) (a : ActorId) (phase : Phase) : LifetimeManager := { m with executor := some (a, phase) }

def executorDone (m : LifetimeManager) : LifetimeManager := { m with executor := none }

def decrementAndTest (m : LifetimeManager) (a : ActorId) : Except Stuck (Bool × LifetimeManager) := do
  let actor ← m.lock a
  return (actor.refcount - 1 = 0 && actor.dependents.isEmpty && !actor.deletePaused && actor.mayDelete,
    m.modifyActor a fun actor => { actor with refcount := actor.refcount - 1, refused := !actor.mayDelete })

def stepExecutor (m : LifetimeManager) (answer : Bool) : Except Stuck LifetimeManager :=
  match m.executor with
  | none =>
    match m.queue with
    | [] => .error .blocked
    | a :: rest => .ok ({ m with queue := rest }.goto a .test)
  | some (a, .test) =>
    if 0 < (m.actors a).destroys ∨ (m.actors a).deleted = false then .error .failed
    else .ok (m.goto a (if (m.actors a).shutdownInvoked then .mayDestroy else .propagate))
  | some (a, .propagate) => do
    let actor ← m.lock a
    if actor.deleted = false then .error .failed
    else return m.goto a (.propagating actor.dependents)
  | some (a, .propagating (d :: rest)) => do return (← m.delete d).goto a (.propagating rest)
  | some (a, .propagating []) =>
    .ok ((m.modifyActor a fun actor => { actor with propagations := actor.propagations + 1 }).goto a .shutdown)
  | some (a, .shutdown) =>
    .ok ((m.modifyActor a fun actor =>
      { actor with shutdowns := actor.shutdowns + 1, shutdownInvoked := true }).goto a .mayDestroy)
  | some (a, .mayDestroy) => .ok (m.goto a (if answer then .decrement else .requeue))
  | some (a, .requeue) => .ok { (m.enqueueNoIncrement a).executorDone with deferCount := m.deferCount + 1 }
  | some (a, .decrement) => do
    let (destroy, m) ← m.decrementAndTest a
    return if destroy then m.goto a .destroy else m.executorDone
  | some (a, .destroy) =>
    -- the assertions of `~LifetimeActor`
    if (m.actors a).refcount ≠ 0 ∨ (m.actors a).dependents ≠ [] then .error .failed
    else .ok ((m.modifyActor a fun actor => { actor with destroys := actor.destroys + 1 }).goto a .release)
  | some (a, .release) =>
    match (m.actors a).refs with
    | [] => .ok m.executorDone
    | p :: _ => m.dependencyRemove p a

def step (m : LifetimeManager) : Action → Except Stuck LifetimeManager
  | .delete a => m.delete a
  | .retryDelete a => m.retryDelete a
  | .retryEnqueue a => m.retryEnqueue a
  | .pauseDelete a => m.pauseDelete a
  | .resumeDelete a => m.resumeDelete a
  | .dependencyAdd p d => m.dependencyAdd p d
  | .dependencyRemove p d => m.dependencyRemove p d
  | .setMayDelete a open_ => m.setMayDelete a open_
  | .execute answer => m.stepExecutor answer

end LifetimeManager

end TFCommon.Lifetime
