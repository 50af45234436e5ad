import TFCommon.Pipeline.Model
import TFCommon.Lib.Run
import Mathlib.Algebra.GroupWithZero.Nat

/-! One stage: its instances run in any order and for any number of steps, the last one to end collects the
sub-results in the order of the instances, and `MergeFn` sees exactly those until it is complete. -/
namespace TFCommon.Pipeline
open QueueTask (Stuck)

section workers
variable {S E : Type} {workers : List (WorkProcessor S E)} {worker worker' : WorkProcessor S E} {inst k : Nat}

theorem get_set (here : (workers.set inst worker')[k]? = some worker) :
    k = inst ∧ worker = worker' ∨ k ≠ inst ∧ workers[k]? = some worker := by
  by_cases same : inst = k
  · subst same
    rw [List.getElem?_set_self'] at here
    cases old : workers[inst]? with
    | none => simp [old] at here
    | some _ =>
      simp only [old, Option.map_eq_map, Option.map_some, Option.some.injEq] at here
      exact .inl ⟨rfl, here.symm⟩
  · rw [List.getElem?_set_ne same] at here
    exact .inr ⟨Ne.symm same, here⟩

theorem on_worker {β : Type} {P : β → Prop} {found : Option (WorkProcessor S E)} {pc : WorkerPc}
    {f : WorkProcessor S E → Except Stuck β}
    (good : ∀ worker, found = some worker → worker.pc = pc → Verdict P (· = .failed) (f worker)) :
    Verdict P (· = .failed) (match found with
      | none => .error .blocked
      | some worker => if worker.pc = pc then f worker else .error .blocked) := by
  cases found with
  | none => exact nofun
  | some worker =>
    simp only
    split
    · exact good worker rfl ‹_›
    · exact nofun

def unfinished (workers : List (WorkProcessor S E)) : Nat := workers.countP fun worker => worker.pc ≠ .done

theorem unfinished_set (worker' : WorkProcessor S E) (here : workers[inst]? = some worker) (open_ : worker.pc ≠ .done) :
    unfinished (workers.set inst worker') + 1 = unfinished workers + if worker'.pc = .done then 0 else 1 := by
  obtain ⟨inside, rfl⟩ := List.getElem?_eq_some_iff.mp here
  have positive : 0 < unfinished workers := List.countP_pos_iff.mpr ⟨_, List.getElem_mem inside, by simpa using open_⟩
  have mine : decide (workers[inst].pc ≠ .done) = true := by simpa using open_
  have counted := List.countP_set (p := fun worker : WorkProcessor S E => decide (worker.pc ≠ .done)) (a := worker') inside
  rw [if_pos mine] at counted
  unfold unfinished at positive ⊢
  by_cases last : worker'.pc = .done
  · rw [if_neg (by simpa using last)] at counted
    rw [if_pos last]
    omega
  · rw [if_pos (by simpa using last)] at counted
    rw [if_neg last]
    omega

def WorkerPc.left : WorkerPc → Nat
  | .created => 3
  | .queued => 2
  | .external => 2
  | .finishing => 1
  | .done => 0

def workersLeft (workers : List (WorkProcessor S E)) : Nat := (workers.map fun worker => worker.pc.left).sum

theorem workersLeft_set (worker' : WorkProcessor S E) (here : workers[inst]? = some worker) :
    workersLeft (workers.set inst worker') + worker.pc.left = workersLeft workers + worker'.pc.left := by
  unfold workersLeft
  induction workers generalizing inst with
  | nil => simp at here
  | cons first rest ih =>
    cases inst with
    | zero =>
      simp only [List.getElem?_cons_zero, Option.some.injEq] at here
      simp only [List.set_cons_zero, List.map_cons, List.sum_cons, here]
      omega
    | succ inst =>
      have tail := ih (show rest[inst]? = some worker from here)
      simp only [List.set_cons_succ, List.map_cons, List.sum_cons]
      omega

theorem workersLeft_done (done : ∀ worker ∈ workers, worker.pc = .done) : workersLeft workers = 0 :=
  List.sum_eq_zero_iff_forall_eq_nat.mpr (List.forall_mem_map.mpr fun worker member => by rw [done worker member]; rfl)

end workers

variable {I R S E : Type} {cfg : StageConfig R S} {stage stage' : WorkStage I R S E}
  {worker worker' : WorkProcessor S E} {v : I} {inst k : Nat}

def StageAction.yields : StageAction R S E → Bool
  | .execute _ .incomplete _ => true
  | .execute _ (.external accepted) _ => accepted
  | .response _ _ => true
  | .merge isComplete _ => !isComplete
  | _ => false

structure WorkerOK (started : Nat) (ended : List (Nat × S)) (k : Nat) (worker : WorkProcessor S E) : Prop where
  finished : worker.finished = true ↔ worker.pc = .finishing ∨ worker.pc = .done
  stopped : worker.running = false
  res : ∃ sub, worker.res = some sub
  created : worker.pc = .created ↔ started ≤ k
  ended : ∀ sub, (k, sub) ∈ ended ↔ worker.finished = true ∧ worker.res = some sub

structure Executing (cfg : StageConfig R S) (v : I) (stage : WorkStage I R S E) : Prop where
  inputs : stage.inputs = [v]
  inp : stage.inp = some v
  size : stage.workers.length = cfg.instances
  remaining : stage.remainingInst = unfinished stage.workers
  workers : ∀ k worker, stage.workers[k]? = some worker → WorkerOK stage.started stage.ended k worker
  bound : ∀ entry ∈ stage.ended, entry.1 < cfg.instances
  nodup : (stage.ended.map Prod.fst).Nodup
  blank : stage.subRes = [] ∧ stage.finished = false ∧ stage.running = false ∧ stage.merging = false ∧
    stage.merges = [] ∧ stage.results = []

structure AllEnded (cfg : StageConfig R S) (stage : WorkStage I R S E) (subs : List S) : Prop where
  length : subs.length = cfg.instances
  ended : ∀ k sub, (k, sub) ∈ stage.ended ↔ subs[k]? = some sub
  nodup : (stage.ended.map Prod.fst).Nodup
  done : ∀ worker ∈ stage.workers, worker.pc = .done

def MergeCall.Fits (call : MergeCall I R S) (v : I) (subs : List S) : Prop :=
  call.subs = subs.map some ∧ call.inp = some v

structure Merging (cfg : StageConfig R S) (v : I) (subs : List S) (stage : WorkStage I R S E) : Prop where
  inputs : stage.inputs = [v]
  inp : stage.inp = some v
  all : AllEnded cfg stage subs
  subRes : stage.subRes = subs.map some
  merger : cfg.merger = true
  flags : stage.merging = true ∧ stage.finished = false ∧ stage.results = []
  calls : ∀ call ∈ stage.merges, call.Fits v subs ∧ call.complete = false

def Merged (cfg : StageConfig R S) (v : I) (subs : List S) (r : R) (merges : List (MergeCall I R S)) : Prop :=
  if cfg.merger then ∃ earlier last, merges = earlier ++ [last] ∧
    (∀ call ∈ earlier, call.Fits v subs ∧ call.complete = false) ∧ last.Fits v subs ∧ last.complete = true ∧ last.res = r
  else merges = [] ∧ ∃ convert sub, cfg.same = some convert ∧ subs.head? = some sub ∧ convert sub = r

structure Ready (cfg : StageConfig R S) (v : I) (subs : List S) (r : R) (stage : WorkStage I R S E) : Prop where
  inputs : stage.inputs = [v]
  all : AllEnded cfg stage subs
  merged : Merged cfg v subs r stage.merges
  flags : stage.merging = false ∧ stage.finished = true ∧ stage.results = []
  res : stage.res = some r
  subRes : stage.subRes.length = cfg.instances

structure Finished (cfg : StageConfig R S) (v : I) (subs : List S) (r : R) (stage : WorkStage I R S E) : Prop where
  inputs : stage.inputs = [v]
  all : AllEnded cfg stage subs
  merged : Merged cfg v subs r stage.merges
  merging : stage.merging = false
  results : stage.results = [some r]

def Quiet (stage : WorkStage I R S E) : Prop := (∀ worker ∈ stage.workers, worker.pc = .done) ∧ stage.merging = false

def Active (cfg : StageConfig R S) (v : I) (stage : WorkStage I R S E) : Prop :=
  Executing cfg v stage ∧ 0 < stage.remainingInst ∨ ∃ subs, Merging cfg v subs stage

def Moves (cfg : StageConfig R S) (v : I) (next : Bool × WorkStage I R S E) : Prop :=
  if next.1 then ∃ subs r, Ready cfg v subs r next.2 else Active cfg v next.2

def Advances (cfg : StageConfig R S) (v : I) (stage : WorkStage I R S E) (yields : Bool)
    (next : Bool × WorkStage I R S E) : Prop :=
  Moves cfg v next ∧
    workersLeft next.2.workers + (if next.1 then 0 else 1) + (if yields then 0 else 1) ≤ workersLeft stage.workers + 1

section
variable (ex : Executing cfg v stage) (waits : 0 < stage.remainingInst)
include ex

theorem Executing.set {started : Nat} {yields : Bool} (waits : 0 < stage.remainingInst) (here : stage.workers[inst]? = some worker)
    (open_ : worker.pc ≠ .done) (open' : worker'.pc ≠ .done) (ok : WorkerOK started stage.ended inst worker')
    (others : ∀ k, k ≠ inst → (started ≤ k ↔ stage.started ≤ k))
    (less : worker'.pc.left + (if yields then 0 else 1) ≤ worker.pc.left) :
    Advances cfg v stage yields (false, { stage with workers := stage.workers.set inst worker', started := started }) := by
  have counted := unfinished_set worker' here open_
  have moved := workersLeft_set worker' here
  rw [if_neg open'] at counted
  refine ⟨.inl ⟨{ ex with
    size := by simpa using ex.size
    remaining := ex.remaining.trans (Nat.add_right_cancel counted).symm
    workers := fun k other there => ?_ }, waits⟩, by simp only [Bool.false_eq_true, if_false]; omega⟩
  rcases get_set there with ⟨rfl, rfl⟩ | ⟨differ, there⟩
  · exact ok
  · have before_ := ex.workers k other there
    exact { before_ with created := before_.created.trans (others k differ).symm }

include waits

theorem Executing.startWorker :
    Verdict (fun stage' => Advances cfg v stage false (false, stage')) (· = .failed) stage.startWorker := by
  refine on_worker fun worker here created => ?_
  have ok := ex.workers _ worker here
  refine ex.set waits here (by simp [created]) (by simp) ?_ (fun k other => by omega) (by simp [created, WorkerPc.left])
  exact { ok with
    finished := by simpa [created] using ok.finished
    created := by simp }

theorem Executing.response (ext : E) :
    Verdict (fun stage' => Advances cfg v stage true (false, stage')) (· = .failed) (stage.response inst ext) := by
  refine on_worker fun worker here external => ?_
  have ok := ex.workers _ worker here
  rw [if_neg (by simp [ok.stopped])]
  refine ex.set waits here (by simp [external]) (by simp) ?_ (fun k other => Iff.rfl) (by simp [external, WorkerPc.left])
  exact { ok with
    finished := by simpa [external] using ok.finished
    created := by simpa [external] using ok.created }

theorem Executing.finish (sub : S) (here : stage.workers[inst]? = some worker) (queued : worker.pc = .queued) :
    Advances cfg v stage false (false, { stage with
      workers := stage.workers.set inst { worker with res := some sub, running := false, finished := true, pc := .finishing }
      ended := stage.ended ++ [(inst, sub)] }) := by
  have ok := ex.workers _ worker here
  have fresh : worker.finished = false := by simpa [queued] using ok.finished
  obtain ⟨inside, _⟩ := List.getElem?_eq_some_iff.mp here
  have absent : inst ∉ stage.ended.map Prod.fst := by
    intro member
    obtain ⟨⟨k, sub'⟩, entry, rfl⟩ := List.mem_map.mp member
    have ended := ((ok.ended sub').mp entry).1
    simp [fresh] at ended
  have counted := unfinished_set
    { worker with res := some sub, running := false, finished := true, pc := .finishing } here (by simp [queued])
  have moved := workersLeft_set
    { worker with res := some sub, running := false, finished := true, pc := .finishing } here
  refine ⟨.inl ⟨⟨ex.inputs, ex.inp, by simpa using ex.size, ex.remaining.trans (Nat.add_right_cancel counted).symm,
    fun k other there => ?_, List.forall_mem_append.mpr ⟨ex.bound, by simpa [← ex.size] using inside⟩,
    by simpa using ex.nodup.concat absent, ex.blank⟩, waits⟩, ?_⟩
  · rcases get_set there with ⟨rfl, rfl⟩ | ⟨differ, there⟩
    · refine ⟨by simp, rfl, ⟨sub, rfl⟩, by simpa [queued] using ok.created, fun sub' => ?_⟩
      simp only [List.mem_append, List.mem_singleton, Prod.mk.injEq, true_and, Option.some.injEq]
      constructor
      · rintro (member | rfl)
        · exact absurd (List.mem_map_of_mem (f := Prod.fst) member) absent
        · rfl
      · rintro rfl
        exact .inr rfl
    · have before_ := ex.workers k other there
      exact { before_ with ended := fun sub' => by simpa [differ] using before_.ended sub' }
  · simp only [queued, WorkerPc.left] at moved
    simp only [Bool.false_eq_true, if_false]
    omega

theorem Executing.execute (outcome : Outcome) (subRes : S) :
    Verdict (fun stage' => Advances cfg v stage (StageAction.execute (R := R) (E := E) inst outcome subRes).yields (false, stage'))
      (· = .failed) (stage.execute inst outcome subRes) := by
  refine on_worker fun worker here queued => ?_
  have ok := ex.workers _ worker here
  have fresh : worker.finished = false := by simpa [queued] using ok.finished
  have ended : ∀ sub, (inst, sub) ∉ stage.ended := fun sub member => by
    have finished := ((ok.ended sub).mp member).1
    simp [fresh] at finished
  cases outcome with
  | done =>
    have finished := ex.finish waits subRes here queued
    exact finished
  | incomplete =>
    refine ex.set waits here (by simp [queued]) (by simp [queued]) ?_ (fun k other => Iff.rfl) (Nat.le_refl _)
    exact ⟨ok.finished, rfl, ⟨subRes, rfl⟩, ok.created, fun sub => by simp [ended, fresh]⟩
  | external accepted =>
    cases accepted with
    | true =>
      refine ex.set waits here (by simp [queued]) (by simp) ?_ (fun k other => Iff.rfl) (by rw [queued]; exact Nat.le_refl _)
      exact ⟨by simp [fresh], rfl, ⟨subRes, rfl⟩, by simpa [queued] using ok.created,
        fun sub => by simp [ended, fresh]⟩
    | false =>
      have finished := ex.finish waits subRes here queued
      exact finished

end

def subResults [Inhabited S] (workers : List (WorkProcessor S E)) : List S :=
  workers.map fun worker => worker.res.getD default

theorem Executing.results [Inhabited S] (ex : Executing cfg v stage) (all : ∀ worker ∈ stage.workers, worker.finished = true) :
    stage.workers.map WorkProcessor.result = (subResults stage.workers).map some := by
  unfold subResults
  rw [List.map_map]
  refine List.map_congr_left fun worker member => ?_
  obtain ⟨k, inside, rfl⟩ := List.getElem_of_mem member
  obtain ⟨sub, res⟩ := (ex.workers k _ (List.getElem?_eq_getElem inside)).res
  simp [WorkProcessor.result, all _ member, res]

theorem Executing.ended_iff [Inhabited S] (ex : Executing cfg v stage)
    (all : ∀ worker ∈ stage.workers, worker.finished = true) (k : Nat) (sub : S) :
    (k, sub) ∈ stage.ended ↔ (subResults stage.workers)[k]? = some sub := by
  unfold subResults
  rw [List.getElem?_map]
  cases here : stage.workers[k]? with
  | none =>
    have outside : ¬ k < cfg.instances := by
      rw [← ex.size]
      exact Nat.not_lt.mpr (List.getElem?_eq_none_iff.mp here)
    simp only [Option.map_none, reduceCtorEq, iff_false]
    exact fun member => outside (ex.bound _ member)
  | some worker =>
    have ok := ex.workers k worker here
    obtain ⟨sub', res⟩ := ok.res
    rw [ok.ended sub]
    simp [all worker (List.mem_of_getElem? here), res]

theorem unfinished_zero {workers : List (WorkProcessor S E)} (none_ : unfinished workers = 0) :
    ∀ worker ∈ workers, worker.pc = .done := by
  intro worker member
  have counted := List.countP_eq_zero.mp none_ worker member
  simpa using counted

theorem Executing.done (ex : Executing cfg v stage) (here : stage.workers[inst]? = some worker)
    (finishing : worker.pc = .finishing) :
    Executing cfg v { stage with
      workers := stage.workers.set inst { worker with pc := .done }, remainingInst := stage.remainingInst - 1 } := by
  have ok := ex.workers _ worker here
  refine ⟨ex.inputs, ex.inp, by simpa using ex.size, ?_, fun k other there => ?_, ex.bound, ex.nodup, ex.blank⟩
  · have counted := unfinished_set { worker with pc := .done } here (by simp [finishing])
    rw [if_pos rfl] at counted
    have before_ := ex.remaining
    show stage.remainingInst - 1 = unfinished (stage.workers.set inst { worker with pc := .done })
    omega
  · rcases get_set there with ⟨rfl, rfl⟩ | ⟨differ, there⟩
    · exact { ok with
        finished := by simpa [finishing] using ok.finished
        created := by simpa [finishing] using ok.created }
    · exact ex.workers k other there

section collect
variable [Inhabited R] [Inhabited S]

theorem Executing.collect (ex : Executing cfg v stage) (none_ : stage.remainingInst = 0) :
    (∃ stage', stage.collect cfg = .ok (false, stage') ∧ Merging cfg v (subResults stage.workers) stage') ∨
    ∃ stage' r, stage.collect cfg = .ok (true, stage') ∧ Ready cfg v (subResults stage.workers) r stage' := by
  have done := unfinished_zero (ex.remaining.symm.trans none_)
  have all : ∀ worker ∈ stage.workers, worker.finished = true := by
    intro worker member
    obtain ⟨k, inside, rfl⟩ := List.getElem_of_mem member
    exact (ex.workers k _ (List.getElem?_eq_getElem inside)).finished.mpr (.inr (done _ member))
  have results := ex.results all
  obtain ⟨subRes, unfinished, stopped, idle, merges, fresh⟩ := ex.blank
  have ended : ∀ stage' : WorkStage I R S E, stage'.ended = stage.ended →
      stage'.workers = stage.workers.map WorkProcessor.release → AllEnded cfg stage' (subResults stage.workers) := by
    intro stage' same workers
    refine ⟨by simpa [subResults] using ex.size, fun k sub => ?_, by rw [same]; exact ex.nodup, fun worker member => ?_⟩
    · rw [same]
      exact ex.ended_iff all k sub
    · rw [workers] at member
      obtain ⟨old, inside, rfl⟩ := List.mem_map.mp member
      exact done old inside
  have whole : ¬ (stage.workers.any fun worker => !worker.finished) = true := by
    simpa using all
  unfold WorkStage.collect
  rw [if_neg (by simpa using ex.size), if_neg whole]
  cases merger : cfg.merger with
  | true =>
    left
    cases cfg.same with
    | none | some convert =>
      refine ⟨_, rfl, ex.inputs, ex.inp, ended _ rfl rfl, ?_, merger, ⟨rfl, unfinished, fresh⟩, by simp [merges]⟩
      simp [subRes, results]
  | false =>
    right
    cases same : cfg.same with
    | none =>
      have mergeable := cfg.mergeable
      simp [merger, same] at mergeable
    | some convert =>
      have some_ : (subResults stage.workers).length ≠ 0 := by
        have positive := cfg.instances_pos
        simp only [subResults, List.length_map, ex.size]
        omega
      obtain ⟨sub, rest, subs⟩ := List.exists_cons_of_length_pos (Nat.pos_of_ne_zero some_)
      refine ⟨_, convert sub, rfl, ex.inputs, ended _ rfl rfl, ?_, ⟨idle, rfl, fresh⟩, ?_, ?_⟩
      · rw [Merged, if_neg (by simp [merger])]
        exact ⟨merges, convert, sub, same, by simp [subs], rfl⟩
      · simp [subRes, results, subs]
      · simp [subRes, ex.size]

theorem Executing.complete (ex : Executing cfg v stage) (waits : 0 < stage.remainingInst) :
    Verdict (Advances cfg v stage false) (· = .failed) (stage.complete cfg inst) := by
  refine on_worker fun worker here finishing => ?_
  have after_ := ex.done here finishing
  have moved := workersLeft_set { worker with pc := .done } here
  simp only [finishing, WorkerPc.left] at moved
  simp only
  split
  · rename_i last
    rcases after_.collect (by simp [last]) with ⟨stage', collected, merging⟩ | ⟨stage', r, collected, ready⟩
    · rw [collected]
      refine ⟨.inr ⟨_, merging⟩, ?_⟩
      simp only [workersLeft_done merging.all.done, Bool.false_eq_true, if_false]
      omega
    · rw [collected]
      refine ⟨⟨_, r, ready⟩, ?_⟩
      simp only [workersLeft_done ready.all.done, Bool.false_eq_true, if_false, if_true]
      omega
  · refine ⟨.inl ⟨after_, ?_⟩, ?_⟩
    · show 0 < stage.remainingInst - 1
      omega
    · simp only [Bool.false_eq_true, if_false]
      omega

end collect

theorem Merging.runner {subs : List S} (merging : Merging cfg v subs stage) (isComplete : Bool) (res : R) :
    Verdict (Advances cfg v stage !isComplete) (· = .failed) (stage.runner isComplete res) := by
  obtain ⟨on, unfinished, fresh⟩ := merging.flags
  have all : ∀ stage' : WorkStage I R S E, stage'.ended = stage.ended → stage'.workers = stage.workers →
      AllEnded cfg stage' subs := by
    intro stage' same workers
    exact ⟨merging.all.length, by rw [same]; exact merging.all.ended, by rw [same]; exact merging.all.nodup,
      by rw [workers]; exact merging.all.done⟩
  unfold WorkStage.runner
  rw [if_pos on]
  cases isComplete with
  | true =>
    refine ⟨⟨subs, res, merging.inputs, all _ rfl rfl, ?_, ⟨rfl, rfl, fresh⟩, rfl, by simp [merging.subRes, merging.all.length]⟩,
      Nat.le_refl _⟩
    rw [Merged, if_pos merging.merger]
    exact ⟨stage.merges, _, rfl, merging.calls, ⟨merging.subRes, merging.inp⟩, rfl, rfl⟩
  | false =>
    exact ⟨.inr ⟨subs, merging.inputs, merging.inp, all _ rfl rfl, merging.subRes, merging.merger, ⟨on, unfinished, fresh⟩,
      List.forall_mem_append.mpr ⟨merging.calls, List.forall_mem_singleton.mpr ⟨⟨merging.subRes, merging.inp⟩, rfl⟩⟩⟩,
      Nat.le_refl _⟩

theorem Ready.release {subs : List S} {r : R} (ready : Ready cfg v subs r stage) :
    stage.result = some r ∧ ∃ released, stage.release cfg = .ok released ∧ released.workers = stage.workers ∧
      Finished cfg v subs r { released with results := released.results ++ [some r] } := by
  obtain ⟨idle, finished, fresh⟩ := ready.flags
  refine ⟨by simp [WorkStage.result, finished, ready.res],
    { stage with inp := none, subRes := stage.subRes.map fun _ => none, res := none }, ?_, rfl, ready.inputs, ?_, ready.merged,
    idle, ?_⟩
  · rw [WorkStage.release, if_neg (by simp [finished, ready.subRes])]
  · exact { ready.all with }
  · simp [fresh]

def WorkStage.left (cfg : StageConfig R S) (stage : WorkStage I R S E) : Nat :=
  if stage.inputs.isEmpty then 3 * cfg.instances + 2
  else workersLeft stage.workers + if stage.results.isEmpty then 1 else 0

theorem Executing.start [Inhabited S] (cfg : StageConfig R S) (blank : stage = {}) (v : I) :
    ∃ stage', stage.start cfg (some v) = .ok stage' ∧ Executing cfg v stage' ∧ 0 < stage'.remainingInst ∧
      stage'.left cfg + 1 = stage.left cfg := by
  subst blank
  refine ⟨_, rfl, ⟨rfl, rfl, by simp, ?_, fun k worker here => ?_, by simp, by simp, rfl, rfl, rfl, rfl, rfl, rfl⟩,
    cfg.instances_pos, by simp [WorkStage.left, workersLeft, WorkerPc.left, Nat.mul_comm]⟩
  · simp [unfinished, List.countP_replicate]
  · simp only [List.nil_append] at here
    obtain ⟨inside, rfl⟩ := List.getElem?_eq_some_iff.mp here
    rw [List.getElem_replicate]
    exact ⟨by simp, rfl, ⟨default, rfl⟩, by simp, by simp⟩

theorem quiet_blank : Quiet ({} : WorkStage I R S E) := ⟨by simp, rfl⟩

theorem Finished.quiet {subs : List S} {r : R} (finished : Finished cfg v subs r stage) : Quiet stage :=
  ⟨finished.all.done, finished.merging⟩

theorem Active.inputs (active : Active cfg v stage) : stage.inputs = [v] := by
  rcases active with ⟨ex, _⟩ | ⟨subs, merging⟩
  · exact ex.inputs
  · exact merging.inputs

theorem Active.fresh (active : Active cfg v stage) : stage.results = [] := by
  rcases active with ⟨ex, _⟩ | ⟨subs, merging⟩
  · exact ex.blank.2.2.2.2.2
  · exact merging.flags.2.2

section steps
variable {action : StageAction R S E} [Inhabited R]

theorem blocked_of_done (done : ∀ worker ∈ stage.workers, worker.pc = .done) (cfg : StageConfig R S)
    (other : ∀ isComplete res, action ≠ .merge isComplete res) : stage.step cfg action = .error .blocked := by
  have nobody : ∀ {β : Type} (k : Nat) {pc : WorkerPc} (f : WorkProcessor S E → Except Stuck β), pc ≠ .done →
      (match stage.workers[k]? with
        | none => Except.error Stuck.blocked
        | some worker => if worker.pc = pc then f worker else .error .blocked) = .error .blocked := by
    intro β k pc f open_
    cases here : stage.workers[k]? with
    | none => rfl
    | some worker => exact if_neg fun now => open_ (now.symm.trans (done worker (List.mem_of_getElem? here)))
  cases action with
  | startWorker => exact congrArg (· >>= _) (nobody stage.started _ (by decide))
  | execute inst outcome subRes => exact congrArg (· >>= _) (nobody inst _ (by decide))
  | response inst ext => exact congrArg (· >>= _) (nobody inst _ (by decide))
  | complete inst => exact nobody inst _ (by decide)
  | merge isComplete res => exact absurd rfl (other isComplete res)

theorem blocked_merge {isComplete : Bool} {res : R} (idle : stage.merging = false) (cfg : StageConfig R S) :
    stage.step cfg (.merge isComplete res) = .error .blocked := by
  simp [WorkStage.step, WorkStage.runner, idle]

theorem Quiet.step (quiet : Quiet stage) (cfg : StageConfig R S) : stage.step cfg action = .error .blocked := by
  cases action with
  | merge isComplete res => exact blocked_merge quiet.2 cfg
  | _ => exact blocked_of_done quiet.1 cfg nofun

theorem Active.step [Inhabited S] (active : Active cfg v stage) (action : StageAction R S E) :
    Verdict (Advances cfg v stage action.yields) (· = .failed) (stage.step cfg action) := by
  rcases active with ⟨ex, waits⟩ | ⟨subs, merging⟩
  · cases action with
    | startWorker => exact (ex.startWorker waits).bind fun _ => id
    | execute inst outcome subRes => exact (ex.execute waits outcome subRes).bind fun _ => id
    | response inst ext => exact (ex.response waits ext).bind fun _ => id
    | complete inst => exact ex.complete waits
    | merge isComplete res =>
      rw [blocked_merge ex.blank.2.2.2.1]
      exact nofun
  · cases action with
    | merge isComplete res => exact merging.runner isComplete res
    | _ =>
      rw [blocked_of_done merging.all.done cfg fun _ _ impossible => by cases impossible]
      exact nofun

def Outstanding (stage : WorkStage I R S E) : Prop := ∃ worker ∈ stage.workers, worker.pc = .external

theorem Active.progress [Inhabited S] (active : Active cfg v stage) :
    (∃ action next, stage.step cfg action = .ok next) ∨ Outstanding stage := by
  rcases active with ⟨ex, waits⟩ | ⟨subs, merging⟩
  · rw [ex.remaining] at waits
    obtain ⟨worker, member, open_⟩ := List.countP_pos_iff.mp waits
    obtain ⟨k, inside, rfl⟩ := List.getElem_of_mem member
    have here : stage.workers[k]? = some stage.workers[k] := List.getElem?_eq_getElem inside
    have ok := ex.workers k _ here
    cases now : stage.workers[k].pc with
    | created =>
      -- the loop of `Start` is not over, and the worker it is at has not been started
      have late : stage.started ≤ k := ok.created.mp now
      have there : stage.workers[stage.started]? = some stage.workers[stage.started] := List.getElem?_eq_getElem (by omega)
      have created := (ex.workers _ _ there).created.mpr (Nat.le_refl _)
      refine .inl ⟨.startWorker, ?_⟩
      simp only [WorkStage.step, WorkStage.startWorker, there, created]
      exact ⟨_, rfl⟩
    | queued =>
      refine .inl ⟨.execute k .done default, ?_⟩
      simp only [WorkStage.step, WorkStage.execute, here, now]
      exact ⟨_, rfl⟩
    | external => exact .inr ⟨_, member, now⟩
    | finishing =>
      refine .inl ⟨.complete k, ?_⟩
      simp only [WorkStage.step, WorkStage.complete, here, now, if_true]
      split
      · rename_i last
        rcases (ex.done here now).collect (by simp [last]) with ⟨_, collected, _⟩ | ⟨_, _, collected, _⟩
        · exact ⟨_, collected⟩
        · exact ⟨_, collected⟩
      · exact ⟨_, rfl⟩
    | done => simp [now] at open_
  · refine .inl ⟨.merge true default, ?_⟩
    simp only [WorkStage.step, WorkStage.runner, merging.flags.1]
    exact ⟨_, rfl⟩

end steps

end TFCommon.Pipeline
