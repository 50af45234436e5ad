import TFCommon.Pipeline.Model
import TFCommon.Lib.Run

/-! The return codes of a pipeline. `WorkDone` passes on whether the external command of an instance failed, but neither
`WorkProcCb` nor `WorkStageCb` reads the code that it is called with. -/
namespace TFCommon.Pipeline
open Function (update)
open QueueTask (Stuck)

structure Coded (T S E : Nat → Type) where
  pipeline : WorkPipeline T S E := {}
  -- the argument of `WorkDone`, by stage and instance
  codes : Nat → Nat → Bool := fun _ _ => true
  -- the arguments of the calls of `FinFn`
  told : List Bool := []

/-- What `WorkProcCb` passes to `finFn_` of the stage, and `WorkStageCb` to that of the pipeline. -/
def workProcCbCode (_retCode : Bool) : Bool := true
def workStageCbCode (_retCode : Bool) : Bool := true

namespace Coded
variable {T S E : Nat → Type} [∀ i, Inhabited (T i)] [∀ i, Inhabited (S i)]

def workDone (t : Coded T S E) : Action T S E → Nat → Nat → Bool
  | .stage i (.execute inst outcome _) => update t.codes i (update (t.codes i) inst (outcome != .external false))
  | _ => t.codes

/-- The argument of `WorkStageCb`, which is called in `WorkProcCb` or in `WorkStage::Runner`. -/
def stageCode (t : Coded T S E) : Action T S E → Bool
  | .stage i (.complete inst) => workProcCbCode (t.codes i inst)
  | _ => true

def step (cfg : Config T S) (t : Coded T S E) (action : Action T S E) : Except Stuck (Coded T S E) := do
  let next ← t.pipeline.step cfg action
  let calls := List.replicate (next.fins - t.pipeline.fins) (workStageCbCode (t.stageCode action))
  return ⟨next, t.workDone action, t.told ++ calls⟩

def Succeeded (t : Coded T S E) : Prop := ∀ i inst, t.codes i inst = true

/-- After any run, `FinFn` has been told the truth about the external commands. -/
def Truthful (cfg : Config T S) (actions : List (Action T S E)) : Prop :=
  ∀ t, run (step cfg) {} actions = .ok t → ∀ code ∈ t.told, (code = true ↔ t.Succeeded)

theorem told_true (cfg : Config T S) (actions : List (Action T S E)) (t : Coded T S E)
    (ran : run (step cfg) {} actions = .ok t) : ∀ code ∈ t.told, code = true := by
  refine run_invariant (fun t => ∀ code ∈ t.told, code = true) (fun _ => True) ?_ actions {} t nofun (fun _ _ => trivial) ran
  intro t action t' told _ stepped
  obtain ⟨next, _, done⟩ := bind_ok stepped
  cases done
  exact List.forall_mem_append.mpr ⟨told, fun code now => List.eq_of_mem_replicate now⟩

theorem truthful_iff (cfg : Config T S) (actions : List (Action T S E)) :
    Truthful cfg actions ↔ ∀ t, run (step cfg) {} actions = .ok t → t.told = [] ∨ t.Succeeded := by
  refine forall₂_congr fun t ran => ?_
  have always := told_true cfg actions t ran
  constructor
  · intro truthful
    by_cases called : t.told = []
    · exact .inl called
    · obtain ⟨code, member⟩ := List.exists_mem_of_ne_nil _ called
      exact .inr ((truthful code member).mp (always code member))
  · rintro (none_ | succeeded) code member
    · rw [none_] at member
      exact absurd member List.not_mem_nil
    · exact iff_of_true (always code member) succeeded

end Coded

def oneStage : Config (fun _ => Nat) (fun _ => Nat) where
  stages := 1
  stage := fun _ => ⟨1, false, some id, Nat.one_pos, .inr rfl⟩
  stages_pos := Nat.one_pos

def failedRun : List (Action (fun _ => Nat) (fun _ => Nat) (fun _ => Nat)) :=
  [.start 5, .stage 0 .startWorker, .stage 0 (.execute 0 (.external false) 7), .stage 0 (.complete 0)]

/-- The only external command fails, and `FinFn` is told that all went well. -/
theorem failure_reported_as_success :
    ∃ t, run (Coded.step oneStage) {} failedRun = .ok t ∧ t.told = [true] ∧ t.codes 0 0 = false := by
  have seen : (run (Coded.step oneStage) {} failedRun).toOption.map (fun t => (t.told, t.codes 0 0)) =
      some ([true], false) := by decide +kernel
  obtain ⟨t, ran, same⟩ := ok_of_seen seen
  exact ⟨t, ran, Prod.mk.inj same⟩

end TFCommon.Pipeline
