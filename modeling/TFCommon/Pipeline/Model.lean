import TFCommon.QueueTask.Model

/-! `WorkProcessor`, `WorkStage` and `WorkPipeline` of `base/work_pipeline.h`, for any number of stages, each
with types of its own. What the functions of the client return is part of an action, so they may do anything.
There is a step for each run of a task, for each task that `WorkStage::Start` enqueues, for each response of an
external command and for each decrement of `remainingInst_`. -/
namespace TFCommon.Pipeline
open Function (update)
open QueueTask (Stuck)

/-- What `ExecuteFn` returns: the empty function, `ExternalBase::Incomplete`, or a command with its own answer. -/
inductive Outcome where
  | done
  | incomplete
  | external (accepted : Bool)
deriving DecidableEq, Repr

inductive WorkerPc where
  | created
  | queued
  | external
  -- in `WorkDone`, before `WorkProcCb`
  | finishing
  | done
deriving DecidableEq, Repr

structure WorkProcessor (S E : Type) where
  pc : WorkerPc := .created
  res : Option S
  externals : List E := []
  finished : Bool := false
  running : Bool := false

def WorkProcessor.result {S E : Type} (worker : WorkProcessor S E) : Option S :=
  if worker.finished then worker.res else none

def WorkProcessor.release {S E : Type} (worker : WorkProcessor S E) : WorkProcessor S E := { worker with res := none }

/-- A call of `MergeFn`: what it was given, what it returned and what it left in the result. -/
structure MergeCall (I R S : Type) where
  subs : List (Option S)
  inp : Option I
  complete : Bool
  res : R

/-- The parameters of a stage. `same` is there if `SubResultT` and `ResultT` are the same type. -/
structure StageConfig (R S : Type) where
  instances : Nat
  merger : Bool
  same : Option (S → R)
  instances_pos : 0 < instances
  mergeable : merger = true ∨ same.isSome = true

structure WorkStage (I R S E : Type) where
  inp : Option I := none
  remainingInst : Nat := 0
  workers : List (WorkProcessor S E) := []
  -- how far the loop of `Start` is
  started : Nat := 0
  subRes : List (Option S) := []
  res : Option R := none
  finished : Bool := false
  running : Bool := false
  -- the task of `Runner` is in the scheduler
  merging : Bool := false
  -- the inputs of the calls of `Start`, the ends of the instances, the calls of `MergeFn` and what `finFn_`
  -- finds as the result, each in the order in which they happen
  inputs : List I := []
  ended : List (Nat × S) := []
  merges : List (MergeCall I R S) := []
  results : List (Option R) := []

inductive StageAction (R S E : Type) where
  | startWorker
  | execute (inst : Nat) (outcome : Outcome) (subRes : S)
  | response (inst : Nat) (ext : E)
  | complete (inst : Nat)
  | merge (isComplete : Bool) (res : R)

namespace WorkStage
variable {I R S E : Type} [Inhabited R] [Inhabited S]

def start (cfg : StageConfig R S) (stage : WorkStage I R S E) (inp : Option I) : Except Stuck (WorkStage I R S E) :=
  if stage.running || stage.finished then .error .failed
  else
    match inp with
    | none => .error .failed
    | some v => .ok { stage with
        inp := some v, remainingInst := cfg.instances, started := 0, inputs := stage.inputs ++ [v]
        workers := stage.workers ++ List.replicate cfg.instances { res := some default } }

def startWorker (stage : WorkStage I R S E) : Except Stuck (WorkStage I R S E) :=
  match stage.workers[stage.started]? with
  | none => .error .blocked
  | some worker =>
    if worker.pc = .created then
      .ok { stage with
        workers := stage.workers.set stage.started { worker with pc := .queued }, started := stage.started + 1 }
    else .error .blocked

def execute (stage : WorkStage I R S E) (inst : Nat) (outcome : Outcome) (subRes : S) : Except Stuck (WorkStage I R S E) :=
  match stage.workers[inst]? with
  | none => .error .blocked
  | some worker =>
    if worker.pc = .queued then
      let worker := { worker with res := some subRes, running := false }
      let finish := .ok { stage with
        workers := stage.workers.set inst { worker with finished := true, pc := .finishing }
        ended := stage.ended ++ [(inst, subRes)] }
      match outcome with
      | .done => finish
      | .incomplete => .ok { stage with workers := stage.workers.set inst worker }
      | .external true => .ok { stage with workers := stage.workers.set inst { worker with pc := .external } }
      | .external false => finish
    else .error .blocked

def response (stage : WorkStage I R S E) (inst : Nat) (ext : E) : Except Stuck (WorkStage I R S E) :=
  match stage.workers[inst]? with
  | none => .error .blocked
  | some worker =>
    if worker.pc = .external then
      if worker.running then .error .failed
      else .ok { stage with
        workers := stage.workers.set inst { worker with externals := worker.externals ++ [ext], pc := .queued } }
    else .error .blocked

/-- What `WorkProcCb` does for the last instance; the answer is whether it calls `finFn_`. -/
def collect (cfg : StageConfig R S) (stage : WorkStage I R S E) : Except Stuck (Bool × WorkStage I R S E) :=
  if stage.workers.length ≠ cfg.instances then .error .failed
  else if stage.workers.any (fun worker => !worker.finished) then .error .failed
  else
    let subRes := stage.subRes ++ stage.workers.map WorkProcessor.result
    let stage := { stage with subRes := subRes, workers := stage.workers.map WorkProcessor.release }
    -- `StageProceed`
    match cfg.same, cfg.merger with
    | none, false => .error .failed
    | _, true => .ok (false, { stage with res := some default, merging := true })
    | some convert, false => .ok (true, { stage with res := (subRes.head?.join).map convert, finished := true })

def complete (cfg : StageConfig R S) (stage : WorkStage I R S E) (inst : Nat) : Except Stuck (Bool × WorkStage I R S E) :=
  match stage.workers[inst]? with
  | none => .error .blocked
  | some worker =>
    if worker.pc = .finishing then
      let prev := stage.remainingInst
      let stage := { stage with
        workers := stage.workers.set inst { worker with pc := .done }, remainingInst := prev - 1 }
      if prev = 1 then stage.collect cfg else .ok (false, stage)
    else .error .blocked

def runner (stage : WorkStage I R S E) (isComplete : Bool) (res : R) : Except Stuck (Bool × WorkStage I R S E) :=
  if stage.merging then
    let stage := { stage with
      running := true, res := some res
      merges := stage.merges ++ [⟨stage.subRes, stage.inp, isComplete, res⟩] }
    if isComplete then .ok (true, { stage with running := false, finished := true, merging := false })
    else .ok (false, stage)
  else .error .blocked

def step (cfg : StageConfig R S) (stage : WorkStage I R S E) : StageAction R S E → Except Stuck (Bool × WorkStage I R S E)
  | .startWorker => do return (false, ← stage.startWorker)
  | .execute inst outcome subRes => do return (false, ← stage.execute inst outcome subRes)
  | .response inst ext => do return (false, ← stage.response inst ext)
  | .complete inst => stage.complete cfg inst
  | .merge isComplete res => stage.runner isComplete res

def result (stage : WorkStage I R S E) : Option R := if stage.finished then stage.res else none

def release (cfg : StageConfig R S) (stage : WorkStage I R S E) : Except Stuck (WorkStage I R S E) :=
  if stage.finished = false ∨ stage.subRes.length ≠ cfg.instances then .error .failed
  else .ok { stage with inp := none, subRes := stage.subRes.map fun _ => none, res := none }

end WorkStage

structure Config (T S : Nat → Type) where
  stages : Nat
  stage : (i : Nat) → StageConfig (T (i + 1)) (S i)
  stages_pos : 0 < stages

structure WorkPipeline (T S E : Nat → Type) where
  stage : (i : Nat) → WorkStage (T i) (T (i + 1)) (S i) (E i) := fun _ => {}
  finished : Bool := false
  res : Option (Sigma T) := none
  -- how often `finFn_` has been called
  fins : Nat := 0

inductive Action (T S E : Nat → Type) where
  | start (inp : T 0)
  | stage (i : Nat) (action : StageAction (T (i + 1)) (S i) (E i))

namespace WorkPipeline
variable {T S E : Nat → Type} [∀ i, Inhabited (T i)] [∀ i, Inhabited (S i)]

def setStage (w : WorkPipeline T S E) (i : Nat) (stage : WorkStage (T i) (T (i + 1)) (S i) (E i)) : WorkPipeline T S E :=
  { w with stage := update w.stage i stage }

def startStage (cfg : Config T S) (w : WorkPipeline T S E) (i : Nat) (inp : Option (T i)) :
    Except Stuck (WorkPipeline T S E) := do
  return w.setStage i (← (w.stage i).start (cfg.stage i) inp)

def workStageCb (cfg : Config T S) (w : WorkPipeline T S E) (i : Nat) : Except Stuck (WorkPipeline T S E) := do
  let res := (w.stage i).result
  let released ← (w.stage i).release (cfg.stage i)
  let w := w.setStage i { released with results := released.results ++ [res] }
  if i + 1 < cfg.stages then startStage cfg { w with res := none } (i + 1) res
  else return { w with res := res.map fun r => ⟨i + 1, r⟩, finished := true, fins := w.fins + 1 }

def step (cfg : Config T S) (w : WorkPipeline T S E) : Action T S E → Except Stuck (WorkPipeline T S E)
  | .start inp => if (w.stage 0).inputs.isEmpty then w.startStage cfg 0 (some inp) else .error .blocked
  | .stage i action => do
    let (fin, stage) ← (w.stage i).step (cfg.stage i) action
    if fin then (w.setStage i stage).workStageCb cfg i else return w.setStage i stage

end WorkPipeline

end TFCommon.Pipeline
