import TFCommon.Pipeline.Order

/-! A pipeline goes on until `FinFn` has been called: there is always a step to take, unless an external command
has not answered, and each step uses up some of what there is to do, unless a function of the client asks to be
called again. -/
namespace TFCommon.Pipeline
open QueueTask (Stuck)
open WorkPipeline

section run
variable {T S E : Nat → Type} {cfg : Config T S} {w w' : WorkPipeline T S E} {c i : Nat}

variable [∀ i, Inhabited (T i)] [∀ i, Inhabited (S i)]

theorem Inv.progress (inv : Inv cfg w) (started : (w.stage 0).inputs ≠ []) (running : w.fins = 0) :
    (∃ action w', w.step cfg action = .ok w') ∨ ∃ i, Outstanding (w.stage i) := by
  rcases inv.started started with ⟨c, v, here⟩ | over_
  · rcases here.active.progress with ⟨action, next, stepped⟩ | outstanding
    · obtain ⟨w', ran, _⟩ := here.goes ((here.active.step action).of_ok stepped) stepped
      exact .inl ⟨_, w', ran⟩
    · exact .inr ⟨c, outstanding⟩
  · rw [over_.fins] at running
    cases running

structure Ordered (cfg : Config T S) (w : WorkPipeline T S E) : Prop where
  once : ∀ i, (w.stage i).inputs.length ≤ 1
  -- a stage has an input only if the stage before it is over, and then it is that stage's result
  next : ∀ i v, v ∈ (w.stage (i + 1)).inputs → ∃ u subs, Finished (cfg.stage i) u subs v (w.stage i)
  -- `MergeFn` is called with the sub-results of all instances, in their order
  merges : ∀ i, ∀ call ∈ (w.stage i).merges, ∃ u subs,
    (w.stage i).inputs = [u] ∧ AllEnded (cfg.stage i) (w.stage i) subs ∧ call.Fits u subs
  fins : w.fins = 0 ∨ w.fins = 1
  last : w.fins = 1 ↔ ∃ i u subs r, i + 1 = cfg.stages ∧ Finished (cfg.stage i) u subs r (w.stage i) ∧ w.res = some ⟨i + 1, r⟩

omit [∀ i, Inhabited (T i)] [∀ i, Inhabited (S i)] in
theorem Inv.stage (inv : Inv cfg w) (i : Nat) : w.stage i = {} ∨ (∃ v, Active (cfg.stage i) v (w.stage i)) ∨
    ∃ v subs r, Finished (cfg.stage i) v subs r (w.stage i) := by
  rcases inv with ⟨blank, _⟩ | ⟨c, v, here⟩ | over_
  · exact .inl (blank i)
  · rcases Nat.lt_trichotomy i c with below | rfl | above
    · obtain ⟨u, subs, r, finished, _⟩ := here.chain i below
      exact .inr (.inr ⟨u, subs, r, finished⟩)
    · exact .inr (.inl ⟨v, here.active⟩)
    · exact .inl (here.blank i above)
  · rcases Nat.lt_or_ge i cfg.stages with inside | outside
    · obtain ⟨u, subs, r, finished, _⟩ := over_.chain i inside
      exact .inr (.inr ⟨u, subs, r, finished⟩)
    · exact .inl (over_.blank i outside)

omit [∀ i, Inhabited (T i)] [∀ i, Inhabited (S i)] in
theorem Chain.input {v : T (i + 1)} (chain : Chain cfg w c) (below : i < c) (inside : i + 1 < cfg.stages)
    (member : v ∈ (w.stage (i + 1)).inputs) : ∃ u subs, Finished (cfg.stage i) u subs v (w.stage i) := by
  obtain ⟨u, subs, r, finished, next⟩ := chain i below
  rw [next inside, List.mem_singleton] at member
  exact ⟨u, subs, member ▸ finished⟩

section fits
variable {I R S E : Type} {cfg : StageConfig R S} {stage : WorkStage I R S E} {call : MergeCall I R S} {v : I}

theorem Merged.fits {subs : List S} {r : R} {merges : List (MergeCall I R S)} (merged : Merged cfg v subs r merges)
    (member : call ∈ merges) : call.Fits v subs := by
  unfold Merged at merged
  split at merged
  · obtain ⟨earlier, last, rfl, before_, fits, _⟩ := merged
    rcases List.mem_append.mp member with member | member
    · exact (before_ call member).1
    · rw [List.mem_singleton.mp member]
      exact fits
  · rw [merged.1] at member
    cases member

theorem Active.fits (active : Active cfg v stage) (member : call ∈ stage.merges) :
    ∃ subs, AllEnded cfg stage subs ∧ call.Fits v subs := by
  rcases active with ⟨ex, _⟩ | ⟨subs, merging⟩
  · rw [ex.blank.2.2.2.2.1] at member
    cases member
  · exact ⟨subs, merging.all, (merging.calls call member).1⟩

end fits

omit [∀ i, Inhabited (T i)] [∀ i, Inhabited (S i)] in
theorem Inv.ordered (inv : Inv cfg w) : Ordered cfg w where
  once i := by
    rcases inv.stage i with blank | ⟨v, active⟩ | ⟨v, subs, r, finished⟩
    · simp [blank]
    · simp [active.inputs]
    · simp [finished.inputs]
  next i v member := by
    rcases inv with ⟨blank, _⟩ | ⟨c, u, here⟩ | over_
    · simp [blank] at member
    · rcases Nat.lt_or_ge i c with below | above
      · exact here.chain.input below (Nat.lt_of_le_of_lt below here.inside) member
      · simp [here.blank (i + 1) (Nat.lt_succ_of_le above)] at member
    · rcases Nat.lt_or_ge (i + 1) cfg.stages with inside | outside
      · exact over_.chain.input (Nat.lt_of_succ_lt inside) inside member
      · simp [over_.blank (i + 1) outside] at member
  merges i call member := by
    rcases inv.stage i with blank | ⟨v, active⟩ | ⟨v, subs, r, finished⟩
    · simp [blank] at member
    · obtain ⟨subs, all, fits⟩ := active.fits member
      exact ⟨v, subs, active.inputs, all, fits⟩
    · exact ⟨v, subs, finished.inputs, finished.all, finished.merged.fits member⟩
  fins := by
    rcases inv with ⟨_, fins⟩ | ⟨c, u, here⟩ | over_
    · exact .inl fins
    · exact .inl here.fins
    · exact .inr over_.fins
  last := by
    constructor
    · intro called
      rcases inv with ⟨_, fins⟩ | ⟨c, u, here⟩ | over_
      · rw [fins] at called
        cases called
      · rw [here.fins] at called
        cases called
      · obtain ⟨i, r, last, results, res⟩ := over_.res
        obtain ⟨u, subs, r', finished, _⟩ := over_.chain i (by omega)
        have same : r' = r := by simpa using finished.results.symm.trans results
        exact ⟨i, u, subs, r, last, same ▸ finished, res⟩
    · rintro ⟨i, u, subs, r, last, finished, _⟩
      rcases inv with ⟨blank, _⟩ | ⟨c, v, here⟩ | over_
      · have results := finished.results
        simp [blank] at results
      · -- the active stage is the last one or comes before it, and has no result
        have results := finished.results
        have inside := here.inside
        rcases Nat.lt_or_ge c i with below | above
        · simp [here.blank i below] at results
        · obtain rfl : c = i := by omega
          rw [here.active.fresh] at results
          cases results
      · exact over_.fins

/-- For every pipeline, whatever the functions of the client return and however the scheduler runs the tasks: the
stages run in order, each on the result of the one before and with all its instances at their end, each once;
`MergeFn` gets the sub-results in the order of the instances, and is called until it is complete; no assertion
fails; and a pipeline that was started goes on until `FinFn` has been called, once, after the last stage. -/
theorem pipeline_runs_in_order (cfg : Config T S) (actions : List (Action T S E)) (w : WorkPipeline T S E)
    (ran : run (step cfg) {} actions = .ok w) :
    Ordered cfg w ∧ (∀ action, w.step cfg action ≠ .error .failed) ∧
    actions.length ≤ ∑ i ∈ Finset.range cfg.stages, (3 * (cfg.stage i).instances + 2) + actions.countP Action.yields ∧
    ((w.stage 0).inputs ≠ [] → (∀ action w', w.step cfg action ≠ .ok w') → (∀ i, ¬ Outstanding (w.stage i)) → w.fins = 1) := by
  have initial : Inv cfg ({} : WorkPipeline T S E) := .inl ⟨fun _ => rfl, rfl⟩
  have inv : Inv cfg w := run_invariant (Inv cfg) (fun _ => True) (fun _ action _ inv _ stepped => ((inv.step action).of_ok stepped).1)
    actions {} w initial (fun _ _ => trivial) ran
  have bounded := run_bounded (Inv cfg) (WorkPipeline.left cfg) Action.yields
    (fun _ action _ inv => (inv.step action).of_ok) actions {} w initial ran
  refine ⟨inv.ordered, fun action fails => ?_, ?_, fun started stuck answered => ?_⟩
  · have verdict := inv.step action
    rw [fails] at verdict
    exact verdict rfl
  · have all : WorkPipeline.left cfg ({} : WorkPipeline T S E) =
        ∑ i ∈ Finset.range cfg.stages, (3 * (cfg.stage i).instances + 2) := rfl
    omega
  · rcases inv.ordered.fins with running | called
    · rcases inv.progress started running with ⟨action, w', stepped⟩ | ⟨i, outstanding⟩
      · exact absurd stepped (stuck action w')
      · exact absurd outstanding (answered i)
    · exact called

end run

def twoStages : Config (fun _ => Nat) (fun _ => Nat) where
  stages := 2
  stage := fun _ => ⟨2, true, none, Nat.zero_lt_two, .inl rfl⟩
  stages_pos := Nat.zero_lt_two

def twoStagesRun : List (Action (fun _ => Nat) (fun _ => Nat) (fun _ => Nat)) :=
  [.start 5, .stage 0 .startWorker, .stage 0 .startWorker, .stage 0 (.execute 1 .done 20), .stage 0 (.complete 1),
    .stage 0 (.execute 0 (.external true) 9), .stage 0 (.response 0 7), .stage 0 (.execute 0 .done 10),
    .stage 0 (.complete 0), .stage 0 (.merge false 10), .stage 0 (.merge true 30),
    .stage 1 .startWorker, .stage 1 (.execute 0 .done 1), .stage 1 .startWorker, .stage 1 (.execute 1 .incomplete 0),
    .stage 1 (.execute 1 .done 2), .stage 1 (.complete 1), .stage 1 (.complete 0), .stage 1 (.merge true 3)]

theorem twoStagesRun_seen :
    (run (step twoStages) {} twoStagesRun).toOption.map (fun w => (w.fins, (w.stage 0).merges.map MergeCall.subs)) =
      some (1, [[some 10, some 20], [some 10, some 20]]) := by decide +kernel

theorem twoStagesRun_ordered : ∃ w, run (step twoStages) {} twoStagesRun = .ok w ∧ w.fins = 1 ∧ Ordered twoStages w := by
  obtain ⟨w, ran, seen⟩ := ok_of_seen twoStagesRun_seen
  exact ⟨w, ran, (Prod.mk.inj seen).1, (pipeline_runs_in_order twoStages twoStagesRun w ran).1⟩

/-- `MergeFn` of the first stage is called twice, with the sub-results in the order of the instances. -/
theorem mergeFn_called_twice : ∃ w, run (step twoStages) {} twoStagesRun = .ok w ∧ w.fins = 1 ∧
    (w.stage 0).merges.map MergeCall.subs = [[some 10, some 20], [some 10, some 20]] := by
  obtain ⟨w, ran, seen⟩ := ok_of_seen twoStagesRun_seen
  exact ⟨w, ran, Prod.mk.inj seen⟩

end TFCommon.Pipeline
