import TFCommon.Scheduler.Reachable
import Mathlib.Data.Finset.Card
import Mathlib.Algebra.BigOperators.Ring.Finset

/-! The counters of the scheduler, and what `IsEmpty` makes of them. -/
namespace TFCommon.Scheduler
open Function (update)

namespace TaskScheduler

def isWaitQEmpty (s : TaskScheduler) (id : TaskId) : Bool :=
  (s.waitq (.task id none)).isEmpty && s.entryDb.all fun p =>
    p.1 != id || s.disable (.task id (some p.2)) || (s.waitq (.task id (some p.2))).isEmpty

def isEmpty (s : TaskScheduler) (runningOnly : Bool) : Bool :=
  s.groupDb.all fun id =>
    s.runCount (.group id) == 0 && (s.groupDisable id || runningOnly || s.isWaitQEmpty id)

/-- The entries of a group: `task_entry_`, `disable_entry_` and those of `task_entry_db_`. -/
def entriesOf (s : TaskScheduler) (id : TaskId) : List EntryId :=
  .task id none :: .disable id :: (s.entryDb.dedup.filter (·.1 = id)).map fun p => .task id (some p.2)

def Active (s : TaskScheduler) (t : TaskPtr) : Prop := ∃ task, s.tasks t = some task ∧ task.state ≠ .init

end TaskScheduler

open TaskScheduler

def Counts (P : TaskPtr → Prop) (n : Int) : Prop := ∃ those : Finset TaskPtr, (∀ t, t ∈ those ↔ P t) ∧ n = those.card

section counts
variable {P Q : TaskPtr → Prop} {n m : Int} {t : TaskPtr}

theorem Counts.congr (counts : Counts P n) (same : ∀ u, Q u ↔ P u) (equal : m = n) : Counts Q m := by
  obtain ⟨those, member, size⟩ := counts
  exact ⟨those, fun u => (member u).trans (same u).symm, equal.trans size⟩

theorem Counts.insert (counts : Counts P n) (new : ¬ P t) (more : ∀ u, Q u ↔ u = t ∨ P u) (next : m = n + 1) : Counts Q m := by
  obtain ⟨those, member, size⟩ := counts
  refine ⟨Insert.insert t those, fun u => by rw [Finset.mem_insert, member, more], ?_⟩
  rw [Finset.card_insert_of_notMem (mt (member t).mp new), next, size]
  rfl

theorem Counts.erase (counts : Counts P n) (old : P t) (fewer : ∀ u, Q u ↔ u ≠ t ∧ P u) (next : m + 1 = n) : Counts Q m := by
  obtain ⟨those, member, size⟩ := counts
  refine ⟨those.erase t, fun u => by rw [Finset.mem_erase, member, fewer], ?_⟩
  have one := Finset.card_erase_add_one ((member t).mpr old)
  omega

end counts

variable {s s' s₀ : TaskScheduler} {t u : TaskPtr} {task : Task} {D : Owner → Prop} {moving starts : List TaskPtr}

section active

theorem active_update {v : Option Task} (tasks : s'.tasks = update s.tasks t v) :
    s'.Active u ↔ (u = t ∧ ∃ task, v = some task ∧ task.state ≠ .init) ∨ (u ≠ t ∧ s.Active u) := by
  by_cases same : u = t
  · subst same
    simp [Active, tasks]
  · simp [Active, tasks, same]

theorem Visits.active (visits : Visits D moving starts s s') : s'.Active u ↔ s.Active u := by
  rw [Active, visits.tasks]
  split
  · rename_i member
    obtain ⟨a, here, waits⟩ := visits.waited member
    simp [Active, here, waits, Task.started]
  · rfl

end active

def Balanced (s : TaskScheduler) : Prop := Counts s.Active (s.enqueueCount - s.doneCount - s.cancelCount)

theorem ledger_counts (ledger : s'.ledger = s.ledger) : s'.enqueueCount = s.enqueueCount ∧ s'.doneCount = s.doneCount ∧
    s'.cancelCount = s.cancelCount := by
  simp only [TaskScheduler.ledger, Prod.mk.injEq] at ledger
  exact ledger.1

theorem Placed.balanced {old : Task} (placed : Placed (s.numbered t old) t task s') (idle : ¬ s.Active t)
    (ok : Balanced s) : Balanced s' := by
  obtain ⟨task', tasks, busy, ledger⟩ := placed.retasked
  rw [numbered_tasks, Function.update_idem] at tasks
  obtain ⟨enqueued, done, cancelled⟩ := ledger_counts ledger
  rw [numbered_fields] at enqueued done cancelled
  refine ok.insert idle (fun u => ?_) (by rw [enqueued, done, cancelled]; push_cast; omega)
  rw [active_update tasks]
  by_cases same : u = t
  · simp [same, busy]
  · simp [same]

theorem Balanced.mark (ok : Balanced s) (here : s.tasks t = some task) {task' : Task} (state : task'.state = task.state) :
    Balanced (s.setTask t task') := by
  refine Counts.congr ok (fun u => ?_) rfl
  rw [active_update rfl]
  by_cases same : u = t
  · subst same
    simp [Active, here, state]
  · simp [same]

theorem Exits.balanced (exits : Exits s t task s') (here : s.tasks t = some task) (runs : task.state = .run)
    (ok : Balanced s) : Balanced s' := by
  have off (after : TaskScheduler) (v : Option Task) {runTask' : EntryId → Option TaskPtr} {mid : TaskScheduler}
      {starts : List TaskPtr} (visits : Visits (Freed (s.exited t task runTask') task) [t] starts (s.exited t task runTask') mid)
      (tasks : after.tasks = update mid.tasks t v) (idle : ∀ task', v = some task' → task'.state = .init)
      (ledger : after.ledger = mid.ledger) : ¬ after.Active t ∧ Balanced after := by
    obtain ⟨enqueued, done, cancelled⟩ := ledger_counts (ledger.trans visits.ledger)
    have others (u : TaskPtr) : after.Active u ↔ u ≠ t ∧ s.Active u := by
      rw [active_update tasks, visits.active]
      refine ⟨?_, .inr⟩
      rintro (⟨_, task', now, busy⟩ | still)
      · exact absurd (idle task' now) busy
      · exact still
    refine ⟨fun active => ((others t).mp active).1 rfl, ok.erase ⟨task, here, by simp [runs]⟩ others ?_⟩
    rw [enqueued, done, cancelled]
    simp only [exited, addRunCount]
    omega
  cases exits with
  | @gone _ mid _ _ _ visits => exact (off { mid with tasks := update mid.tasks t none } none visits rfl (by rintro _ ⟨⟩) rfl).2
  | recycled _ visits _ _ _ placed =>
    obtain ⟨idle, balanced⟩ := off (setTask _ t task.reset) (some task.reset) visits rfl (by rintro _ ⟨⟩; rfl) rfl
    exact placed.balanced idle balanced

theorem Cancels.balanced {code : CancelReturnCode} (cancels : Cancels s t task code s') (here : s.tasks t = some task)
    (ok : Balanced s) : Balanced s' := by
  cases cancels with
  | failed => exact ok
  | queued => exact ok.mark here rfl
  | @cancelled waits v mid relinked =>
    obtain ⟨enqueued, done, cancelled⟩ := ledger_counts (relinked.ran task.entry).ledger
    refine ok.erase ⟨task, here, by simp [waits]⟩ (fun u => ?_) ?_
    · rw [active_update (s := s) (by rw [relinked.tasks]; rfl)]
      simp
    · simp only [enqueued, done, cancelled, dequeued]
      omega

theorem Call.balanced {event : Event} (call : Call s event s') (ok : Balanced s) : Balanced s' := by
  cases call with
  | @create t unused id inst =>
    refine Counts.congr ok (fun u => ?_) rfl
    rw [active_update rfl]
    by_cases same : u = t
    · subst same
      simp [Active, unused]
    · simp [same]
  | enqueue here fresh placed => exact placed.balanced (by simp [Active, here, fresh]) ok
  | cancel here _ cancels => exact cancels.balanced here ok
  | exit here runs _ exits => exact exits.balanced (Function.update_self ..) runs (ok.mark here rfl)
  | stop => exact ok
  | start visits =>
    obtain ⟨enqueued, done, cancelled⟩ := ledger_counts visits.ledger
    exact Counts.congr ok (fun u => visits.active) (by rw [enqueued, done, cancelled])

section entries

theorem query_instance {id : TaskId} {n : Nat} (known : s.queryTaskEntry id (some n) = true) : (id, n) ∈ s.entryDb := by
  simp only [queryTaskEntry, Bool.and_eq_true, decide_eq_true_eq] at known
  exact known.2

theorem mem_entriesOf (known : s.queryTaskEntry task.taskId task.taskInstance = true) :
    task.entry ∈ s.entriesOf task.taskId := by
  cases inst : task.taskInstance with
  | none => simp [entriesOf, Task.entry, inst]
  | some n => simp [entriesOf, Task.entry, inst, query_instance (inst ▸ known)]

theorem nodup_entriesOf (s : TaskScheduler) (id : TaskId) : (s.entriesOf id).Nodup := by
  have instances : ((s.entryDb.dedup.filter (·.1 = id)).map fun p => EntryId.task id (some p.2)).Nodup := by
    refine List.Nodup.map_on ?_ ((List.nodup_dedup _).filter _)
    intro p hp q hq same
    simp only [List.mem_filter, decide_eq_true_eq] at hp hq
    simp only [EntryId.task.injEq, Option.some.injEq, true_and] at same
    exact Prod.ext (hp.2.trans hq.2.symm) same
  simp [entriesOf, instances]

theorem taskId_of_mem_entriesOf {id : TaskId} {e : EntryId} (member : e ∈ s.entriesOf id) : e.taskId = some id := by
  simp only [entriesOf, List.mem_cons, List.mem_map] at member
  obtain rfl | rfl | ⟨p, _, rfl⟩ := member <;> rfl

theorem sum_countP {α β : Type} {p : α → Bool} (q : β → α → Bool) (parts : List β) {l : List α}
    (one : ∀ a ∈ l, parts.countP (q · a) = if p a then 1 else 0) :
    (parts.map fun e => l.countP (q e)).sum = l.countP p := by
  induction l with
  | nil => simp
  | cons a l ih =>
    have single : (parts.map fun e => if q e a then 1 else 0).sum = parts.countP (q · a) := by
      rw [List.countP_eq_length_filter, List.sum_map_ite]
      simp
    simp only [List.countP_cons, List.sum_map_add, single]
    rw [ih fun b member => one b (List.mem_cons_of_mem a member), one a (by simp)]

theorem Core.group_count (core : Core s none []) (id : TaskId) :
    s.runCount (.group id) = ((s.entriesOf id).map fun e => s.runCount (.entry e)).sum := by
  simp only [core.counts.count]
  rw [← sum_countP (fun e => belongs s.tasks (.entry e)) (s.entriesOf id), Nat.cast_list_sum, List.map_map]
  · rfl
  · intro t member
    obtain ⟨_, task, here, runs⟩ := (core.tasks.started t).mp member
    have own := mem_entriesOf (core.known t task here (by simp) (by simp [runs]))
    have same (e : EntryId) : belongs s.tasks (.entry e) t = true ↔ e = task.entry := by simp [belongs_iff here]
    by_cases mine : id = task.taskId
    · subst mine
      rw [if_pos ((belongs_iff here _).mpr (.inl rfl)), ← List.count_eq_one_of_mem (nodup_entriesOf s _) own]
      exact List.countP_congr fun e _ => (same e).trans beq_iff_eq.symm
    · rw [if_neg fun counted => mine (by simpa [belongs_iff here] using counted), List.countP_eq_zero]
      intro e member counted
      have other := taskId_of_mem_entriesOf member
      rw [(same e).mp counted] at other
      exact mine (Option.some.inj other).symm

theorem Core.entry_count (core : Core s none []) (e : EntryId) :
    Counts (fun t => ∃ task, s.tasks t = some task ∧ task.state = .run ∧ task.entry = e) (s.runCount (.entry e)) := by
  refine ⟨(s.tbb.filter (belongs s.tasks (.entry e))).toFinset, fun t => ?_, ?_⟩
  · rw [List.mem_toFinset, List.mem_filter, core.tasks.started]
    constructor
    · rintro ⟨⟨_, task, here, runs⟩, mine⟩
      exact ⟨task, here, runs, by simpa [belongs_iff here, eq_comm] using mine⟩
    · rintro ⟨task, here, runs, rfl⟩
      exact ⟨⟨by simp, task, here, runs⟩, (belongs_iff here _).mpr (.inr rfl)⟩
  · rw [core.counts.count, List.toFinset_card_of_nodup (core.tasks.once.filter _), List.countP_eq_length_filter]

end entries

theorem Inv.isEmpty_iff (idle : Idle s) : s.isEmpty false = true ↔ ∀ t, ¬ s.Active t := by
  constructor
  · rintro empty t ⟨task, here, busy⟩
    have known := idle.core.known t task here (by simp) busy
    have group : task.taskId ∈ s.groupDb := by simpa [queryTaskGroup] using query_group known
    have quiet := List.all_eq_true.mp empty _ group
    simp only [Bool.and_eq_true, beq_iff_eq, idle.core.enabled.1] at quiet
    cases state : task.state with
    | init => exact busy state
    | run => exact (idle.active here state).1 quiet.1
    | wait =>
      have member := (idle.core.tasks.waiting task.entry t).mpr ⟨by simp, task, here, state, rfl⟩
      obtain ⟨single, instances⟩ := Bool.and_eq_true_iff.mp quiet.2
      cases inst : task.taskInstance with
      | none =>
        rw [Task.entry, inst, List.isEmpty_iff.mp single] at member
        simp at member
      | some n =>
        have idle_ := List.all_eq_true.mp instances _ (query_instance (inst ▸ known))
        simp only [bne_self_eq_false, idle.core.enabled.2, Bool.false_or, List.isEmpty_iff] at idle_
        rw [Task.entry, inst, idle_] at member
        simp at member
  · intro none_
    have tbb : s.tbb = [] := List.eq_nil_iff_forall_not_mem.mpr fun t member => by
      obtain ⟨_, task, here, runs⟩ := (idle.core.tasks.started t).mp member
      exact none_ t ⟨task, here, by simp [runs]⟩
    have waitq (e : EntryId) : s.waitq e = [] := List.eq_nil_iff_forall_not_mem.mpr fun t member => by
      obtain ⟨_, task, here, waits, _⟩ := idle.core.tasks.in_waitq member
      exact none_ t ⟨task, here, by simp [waits]⟩
    simp [isEmpty, isWaitQEmpty, waitq, idle.core.counts.count, tbb]

/-- What the counters and `IsEmpty` tell, in every state that calls can reach. -/
theorem accounting (policies : Policies) (distinct : (policies.map Prod.fst).Nodup) :
    ∃ s₀, ({} : TaskScheduler).setPolicies policies = some s₀ ∧ ∀ s, Reachable s₀ s →
      Counts s.Active (s.enqueueCount - s.doneCount - s.cancelCount) ∧
      (∀ id, s.runCount (.group id) = ((s.entriesOf id).map fun e => s.runCount (.entry e)).sum) ∧
      (∀ e, Counts (fun t => ∃ task, s.tasks t = some task ∧ task.state = .run ∧ task.entry = e) (s.runCount (.entry e))) ∧
      (s.isEmpty false = true ↔ ∀ t, ¬ s.Active t) := by
  obtain ⟨s₀, installed, initial, _, _, unused⟩ := setPolicies_idle policies distinct
  refine ⟨s₀, installed, fun s reach => ?_⟩
  have balanced : Balanced s := by
    induction reach with
    | start =>
      obtain ⟨_, _, _, _, _, rfl⟩ := unused
      exact ⟨∅, by simp [Active], by simp⟩
    | step event earlier enabled run ih =>
      obtain ⟨idle, _⟩ := earlier.idle initial
      exact (call_of_exec idle enabled run).2.2.2.balanced ih
  obtain ⟨idle, _⟩ := reach.idle initial
  exact ⟨balanced, idle.core.group_count, idle.core.entry_count, idle.isEmpty_iff⟩

/-- A task is cancelled, one is recycled and one waits. -/
theorem mixedRules_accounting :
    (∃ s₀, ({} : TaskScheduler).setPolicies mixedRules = some s₀ ∧ ∀ s, Reachable s₀ s →
      Counts s.Active (s.enqueueCount - s.doneCount - s.cancelCount) ∧
      (∀ id, s.runCount (.group id) = ((s.entriesOf id).map fun e => s.runCount (.entry e)).sum) ∧
      (∀ e, Counts (fun t => ∃ task, s.tasks t = some task ∧ task.state = .run ∧ task.entry = e) (s.runCount (.entry e))) ∧
      (s.isEmpty false = true ↔ ∀ t, ¬ s.Active t)) ∧
    ((({} : TaskScheduler).setPolicies mixedRules).bind
      ([Event.create 1 0 (some 3), .create 2 0 (some 3), .create 3 1 none, .enqueue 1, .enqueue 2, .enqueue 3, .cancel 2,
        .exit 1 false].foldlM exec)).map
        (fun s => (s.enqueueCount, s.doneCount, s.cancelCount, s.runCount (.group 0), s.isEmpty false)) =
      some (4, 1, 1, 0, false) :=
  ⟨accounting mixedRules (by decide), by decide⟩

end TFCommon.Scheduler
