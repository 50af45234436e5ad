import TFCommon.Scheduler.DeferQ
import Mathlib.Data.List.Nodup

/-! Every call of the interface keeps the invariant and fails no assertion. -/
namespace TFCommon.Scheduler
open Function (update)
open TaskScheduler

variable {s s' : TaskScheduler} {hand : Option EntryId} {moving : List TaskPtr} {e x : EntryId} {t : TaskPtr} {o : Owner}
  {X : EntryId → Prop} {task : Task}

abbrev Idle (s : TaskScheduler) : Prop := Inv s none [] fun _ => False

def Safe (s : TaskScheduler) (r : Option TaskScheduler) : Prop :=
  ∃ s', r = some s' ∧ Idle s' ∧ s'.policy = s.policy ∧ s'.policyq = s.policyq

section tasks

theorem head_update (v : Option Task) (absent : t ∉ s.waitq x) :
    { s with tasks := update s.tasks t v }.headSeqno x = s.headSeqno x := by
  refine headSeqno_congr rfl fun u hu => ?_
  have other : u ≠ t := fun same => absent (same ▸ hu)
  simp only [Function.update_of_ne other]

theorem Core.take (core : Core s hand moving) (idle : ∀ task, s.tasks t = some task → task.state = .init) :
    Core s hand (t :: moving) :=
  { core with
    tasks := core.tasks.take idle
    known := fun u task there still => core.known u task there fun h => still (List.mem_cons_of_mem _ h) }

theorem Core.retask (core : Core s hand (t :: moving)) (v : Option Task) {seqno' : Nat} (later : s.seqno ≤ seqno')
    (bound : ∀ task, v = some task → task.seqno ≤ seqno')
    (unused : ∀ task, v = some task → task.seqno ≠ 0 → ∀ u b, u ≠ t → s.tasks u = some b → b.seqno ≠ task.seqno) :
    Core { s with tasks := update s.tasks t v, seqno := seqno' } hand (t :: moving) where
  tasks := core.tasks.replace v later bound unused
  counts := by
    refine core.counts.congr fun u running o => ?_
    have other : u ≠ t := fun same => ((core.tasks.started u).mp running).1 (by simp [same])
    simp only [belongs, Function.update_of_ne other]
  links := by
    refine core.links.congr (fun x _ => ?_) fun _ _ => Iff.rfl
    exact head_update v fun h => (core.tasks.in_waitq h).1 (by simp)
  known u other there still := by
    have differ : u ≠ t := fun same => still (by simp [same])
    simp only [Function.update_of_ne differ] at there
    exact core.known u other there still
  enabled := core.enabled

theorem Core.toRest (core : Core s hand (t :: moving)) (still : t ∉ moving)
    (rest : ∀ task, s.tasks t = some task → task.state = .init ∧ task.seqno = 0 ∧ task.taskImpl = false) :
    Core s hand moving :=
  { core with
    tasks := core.tasks.toRest still rest
    known := fun u task there away state => by
      by_cases same : u = t
      · subst same
        exact absurd (rest task there).1 state
      · exact core.known u task there (by simp [same, away]) state }

theorem Inv.rest (inv : Inv s hand (t :: moving) X) (still : t ∉ moving) (v : Option Task)
    (fresh : ∀ task, v = some task → task.state = .init ∧ task.seqno = 0 ∧ task.taskImpl = false) :
    Inv { s with tasks := update s.tasks t v } hand moving X := by
  have core := inv.core.retask v (Nat.le_refl _) (fun task here => by simp [(fresh task here).2.1])
    fun task here given => absurd (fresh task here).2.1 given
  refine inv.carry (core.toRest still fun task here => fresh task ?_) rfl rfl rfl rfl rfl
  simpa using here

theorem Inv.mark (inv : Inv s hand moving X) (here : s.tasks t = some task) (task' : Task)
    (state : task'.state = task.state) (number : task'.seqno = task.seqno) (impl : task'.taskImpl = task.taskImpl)
    (id : task'.taskId = task.taskId) (inst : task'.taskInstance = task.taskInstance) :
    Inv (s.setTask t task') hand moving X := by
  have entry : task'.entry = task.entry := by rw [Task.entry, Task.entry, id, inst]
  refine inv.carry ⟨inv.core.tasks.mark here state number impl entry, ?_, ?_, inv.core.known.update rfl rfl ?_ fun _ _ away => away,
    inv.core.enabled⟩ rfl rfl rfl rfl rfl
  · exact inv.core.counts.congr fun u _ o => belongs_update here task' id inst o u
  · refine inv.core.links.congr (fun x _ => headSeqno_congr rfl fun u _ => ?_) fun _ _ => Iff.rfl
    by_cases same : u = t
    · subst same
      simp [setTask, here, number]
    · simp [setTask, same]
  · rw [id, inst, state]
    exact inv.core.known t task here

end tasks

section enqueue

theorem getTaskGroup_eq (s : TaskScheduler) (id : TaskId) :
    s.getTaskGroup id = { s with groupDb := s.groupDb.insert id } := by
  by_cases present : id ∈ s.groupDb <;> simp [getTaskGroup, present]

theorem constructed (s : TaskScheduler) (id : TaskId) (inst : Instance) : ∃ groups entries,
    (s.getTaskGroup id).getTaskEntry id inst = { s with groupDb := groups, entryDb := entries } ∧
    { s with groupDb := groups, entryDb := entries }.queryTaskEntry id inst = true ∧
    ∀ id' inst', s.queryTaskEntry id' inst' = true →
      { s with groupDb := groups, entryDb := entries }.queryTaskEntry id' inst' = true := by
  refine ⟨s.groupDb.insert id, inst.elim s.entryDb fun n => s.entryDb.insert (id, n), ?_, ?_, fun id' inst' => ?_⟩
  · cases inst with
    | none => simp [getTaskEntry, getTaskGroup_eq]
    | some n => by_cases there : (id, n) ∈ s.entryDb <;> simp [getTaskEntry, getTaskGroup_eq, there]
  · cases inst <;> simp [queryTaskEntry, queryTaskGroup]
  · cases inst <;> cases inst' <;> simp +contextual [queryTaskEntry, queryTaskGroup]

structure Ready (s : TaskScheduler) (t : TaskPtr) (task : Task) : Prop where
  here : s.tasks t = some task
  newest : task.seqno = s.seqno
  given : task.seqno ≠ 0
  idle : task.taskImpl = false
  known : s.queryTaskEntry task.taskId task.taskInstance = true

theorem Inv.queue (inv : Inv s hand [t] X) (ready : Ready s t task)
    (safe : hand = some task.entry ∨ s.waitq task.entry ≠ []) :
    s.addToWaitQ task.entry t = some (s.queued t task) ∧ Inv (s.queued t task) hand [] X ∧
      (s.queued t task).waitq task.entry ≠ [] := by
  obtain ⟨run, core⟩ :=
    addToWaitQ_spec inv.core (by simp) ready.here ready.newest ready.given ready.idle ready.known safe
  exact ⟨run, inv.carry core rfl rfl rfl rfl rfl, by simp [queued]⟩

theorem Inv.hold (inv : Inv s none moving X) (empty : s.waitq x = []) : Inv s (some x) moving X :=
  { inv with core := { inv.core with links := inv.core.links.hold empty } }

theorem Inv.idle (inv : Inv s none [] fun y => False ∧ y ≠ x) : Idle s :=
  inv.weaken fun _ _ _ h => h.1

/-- The task comes to wait as the last of its entry, or it is started since nothing keeps it waiting. -/
inductive Placed (s : TaskScheduler) (t : TaskPtr) (task : Task) (s' : TaskScheduler) : Prop
  | queued (tasks : s'.tasks = update s.tasks t (some { task with state := .wait }))
      (waitq : s'.waitq = update s.waitq task.entry (s.waitq task.entry ++ [t])) (tbb : s'.tbb = s.tbb)
      (counts : s'.runCount = s.runCount) (seqno : s'.seqno = s.seqno) (ledger : s'.ledger = s.ledger)
      (running : s'.running = s.running)
  | started (tasks : s'.tasks = update s.tasks t (some task.started)) (waitq : s'.waitq = s.waitq)
      (tbb : s'.tbb = t :: s.tbb) (counts : ∀ o, s'.runCount o = s.runCount o + if task.entry.counts o then 1 else 0)
      (seqno : s'.seqno = s.seqno) (ledger : s'.ledger = s.ledger) (running : s'.running = s.running)
      (empty : s.waitq task.entry = []) (free : ¬ Blocked s task.entry) (runs : s.running = true)

theorem Placed.retasked (placed : Placed s t task s') :
    ∃ task', s'.tasks = update s.tasks t (some task') ∧ task'.state ≠ .init ∧ s'.ledger = s.ledger := by
  cases placed with
  | queued tasks _ _ _ _ ledger | started tasks _ _ _ _ ledger => exact ⟨_, tasks, nofun, ledger⟩

theorem placed_queued (s : TaskScheduler) (t : TaskPtr) (task : Task) : Placed s t task (s.queued t task) :=
  .queued rfl rfl rfl rfl rfl rfl rfl

theorem Relinked.placed {v : Option Owner} (relinked : Relinked (s.queued t task) e v s') : Placed s t task s' := by
  have moved : Moved e [] (s.queued t task) s' := relinked.moved
  have ran := relinked.ran e
  exact .queued relinked.tasks relinked.waitq ran.tbb relinked.runCount moved.seqno ran.ledger moved.running

theorem Launched.placed (launched : Launched s t task s') (empty : s.waitq task.entry = []) (free : ¬ Blocked s task.entry)
    (runs : s.running = true) (here : s.tasks t = some task) : Placed s t task s' := by
  have moved : Moved task.entry [] s s' := launched.moved (by simp) here
  have ledger : s'.ledger = s.ledger := (congrArg TaskScheduler.ledger launched.fields :)
  refine .started launched.tasks launched.waitq launched.tbb (fun o => ?_) moved.seqno ledger moved.running empty free runs
  rw [launched.counts]
  cases o with
  | group g => simp [EntryId.counts, Task.entry, EntryId.taskId, eq_comm]
  | entry y => simp [EntryId.counts]

def Places (s : TaskScheduler) (t : TaskPtr) (task : Task) (r : Option TaskScheduler) : Prop :=
  ∃ s', r = some s' ∧ Idle s' ∧ s'.policy = s.policy ∧ s'.policyq = s.policyq ∧ Placed s t task s'

theorem Inv.wait (inv : Inv s none [t] fun _ => False) (ready : Ready s t task) (empty : s.waitq task.entry = [])
    (justified : Justified s task.entry o) : ∃ s', s.addToWaitQ task.entry t = some (s.queued t task) ∧
      (s.queued t task).addToDeferQ o task.entry = some s' ∧ Idle s' ∧ s'.policy = s.policy ∧ s'.policyq = s.policyq ∧
      Placed s t task s' := by
  obtain ⟨queue, inv', waits⟩ := (inv.hold empty).queue ready (.inl rfl)
  obtain ⟨s', link, inv'', moved, relinked⟩ := inv'.defer waits (justified.keep rfl rfl rfl id)
  exact ⟨s', queue, link, inv''.idle, moved.policy, moved.policyq, relinked.placed⟩

theorem enqueueEntry_spec (inv : Inv s none [t] fun _ => False) (ready : Ready s t task) :
    Places s t task (s.enqueueEntry task.taskId task.entry t) := by
  obtain ⟨groupEnabled, entryEnabled⟩ := inv.core.enabled
  simp only [enqueueEntry, groupEnabled, entryEnabled, Bool.false_eq_true, or_self, if_false]
  by_cases empty : s.waitq task.entry = []
  · rw [if_neg (by simp [empty])]
    by_cases stopped : s.running = false
    · rw [if_pos stopped]
      obtain ⟨s', queue, link, final⟩ := inv.wait ready empty (o := .entry .stop) (.inr ⟨rfl, stopped⟩)
      exact ⟨s', by simp [queue, link], final⟩
    rw [if_neg stopped, groupDeferOnPolicyFail]
    cases group : s.activeGroupInPolicy task.taskId with
    | some g =>
      obtain ⟨inside, active⟩ := activeGroup_spec group
      obtain ⟨s', queue, link, final⟩ := inv.wait ready empty (o := .group g) ⟨⟨task.taskId, rfl, inside⟩, active⟩
      exact ⟨s', by simp [deferOn, empty, queue, link], final⟩
    | none =>
      simp only [Option.map_none, deferOn_none, Option.bind_eq_bind, Option.bind_some, Bool.false_eq_true, if_false,
        deferOnPolicyFail]
      cases entry : s.activeEntryInPolicy task.entry with
      | some y =>
        obtain ⟨s', queue, link, final⟩ := inv.wait ready empty (o := .entry y) (.inl (activeEntry_spec entry))
        exact ⟨s', by simp [deferOn, empty, queue, link], final⟩
      | none =>
        obtain ⟨groups, entries, free⟩ := unblocked group entry
        have alone : task.taskInstance ≠ none → s.runCount (.entry task.entry) = 0 := fun some_ => by
          obtain ⟨n, inst⟩ := Option.ne_none_iff_exists'.mp some_
          refine entries _ ?_
          rw [Task.entry, inst]
          exact inv.policed.self task.taskId n
        obtain ⟨s', run, inv', launched, _⟩ := (inv.hold empty).launch (by simp) ready.here ready.given ready.idle ready.known
          ⟨fun g hg _ => groups g hg, fun y hy _ => entries y hy⟩ alone
        have moved : Moved task.entry [] s s' := launched.moved (by simp) ready.here
        exact ⟨s', run, (inv'.release (by rw [launched.waitq]; exact empty)).idle, moved.policy, moved.policyq,
          launched.placed empty free (by simpa using stopped) ready.here⟩
  · rw [if_pos (by simpa using empty)]
    obtain ⟨queue, inv', _⟩ := inv.queue ready (.inr empty)
    exact ⟨_, queue, inv', rfl, rfl, placed_queued s t task⟩

def TaskScheduler.numbered (s : TaskScheduler) (t : TaskPtr) (task : Task) : TaskScheduler :=
  let s := { s with enqueueCount := s.enqueueCount + 1, seqno := s.seqno + 1 }.setTask t { task with seqno := s.seqno + 1 }
  (s.getTaskGroup task.taskId).getTaskEntry task.taskId task.taskInstance

section
variable (s : TaskScheduler) (t : TaskPtr) (task : Task)

theorem numbered_fields : s.numbered t task = { s with
    enqueueCount := s.enqueueCount + 1, seqno := s.seqno + 1
    tasks := update s.tasks t (some { task with seqno := s.seqno + 1 })
    groupDb := (s.numbered t task).groupDb, entryDb := (s.numbered t task).entryDb } := by
  obtain ⟨groups, entries, made, _⟩ := constructed
    ({ s with enqueueCount := s.enqueueCount + 1, seqno := s.seqno + 1 }.setTask t { task with seqno := s.seqno + 1 })
    task.taskId task.taskInstance
  rw [numbered, made]
  rfl

@[simp] theorem numbered_tasks : (s.numbered t task).tasks = update s.tasks t (some { task with seqno := s.seqno + 1 }) := by
  rw [numbered_fields]

@[simp] theorem numbered_waitq : (s.numbered t task).waitq = s.waitq := by rw [numbered_fields]

@[simp] theorem numbered_tbb : (s.numbered t task).tbb = s.tbb := by rw [numbered_fields]

@[simp] theorem numbered_runCount : (s.numbered t task).runCount = s.runCount := by rw [numbered_fields]

@[simp] theorem numbered_seqno : (s.numbered t task).seqno = s.seqno + 1 := by rw [numbered_fields]

@[simp] theorem numbered_running : (s.numbered t task).running = s.running := by rw [numbered_fields]

@[simp] theorem numbered_policy : (s.numbered t task).policy = s.policy := by rw [numbered_fields]

end

theorem enqueue_spec (idle : Idle s) (here : s.tasks t = some task) (fresh : task.state = .init) :
    Places (s.numbered t task) t { task with seqno := s.seqno + 1 } (s.enqueue t) ∧
      (s.numbered t task).policy = s.policy ∧ (s.numbered t task).policyq = s.policyq := by
  obtain ⟨impl, number⟩ := idle.core.tasks.settled t task here (by simp)
  have zero := number.mpr fresh
  have unstarted : task.taskImpl = false := by simpa [fresh] using impl
  have taken : Core s none [t] := idle.core.take fun other there => by
    rw [here] at there
    cases there
    exact fresh
  have core := taken.retask (some { task with seqno := s.seqno + 1 }) (Nat.le_succ _) (by rintro _ ⟨⟩; exact Nat.le_refl _)
    (by
      rintro _ ⟨⟩ _ u b _ there same
      have older := taken.tasks.young u b there
      simp only at same
      omega)
  let u : TaskScheduler := { s with
    enqueueCount := s.enqueueCount + 1, seqno := s.seqno + 1
    tasks := update s.tasks t (some { task with seqno := s.seqno + 1 }) }
  obtain ⟨groups, entries, made, known, more⟩ := constructed u task.taskId task.taskInstance
  have numbered : s.numbered t task = { u with groupDb := groups, entryDb := entries } := made
  have body : s.enqueue t =
      { u with groupDb := groups, entryDb := entries }.enqueueEntry task.taskId task.entry t := by
    rw [← made]
    simp only [enqueue, here, zero, Option.bind_eq_bind, Option.bind_some]
    rfl
  have inv : Inv { u with groupDb := groups, entryDb := entries } none [t] fun _ => False := by
    refine idle.carry { core with known := ?_ } rfl rfl rfl rfl rfl
    exact fun w other there still state => more _ _ (core.known w other there still state)
  have ready : Ready { u with groupDb := groups, entryDb := entries } t { task with seqno := s.seqno + 1 } :=
    ⟨Function.update_self .., rfl, Nat.succ_ne_zero _, unstarted, known⟩
  rw [numbered, body]
  exact ⟨enqueueEntry_spec inv ready, rfl, rfl⟩

end enqueue

section cancel

theorem cancelOwner_owned (owned : s.owner e = some o) (id : TaskId) : s.cancelOwner id e = some (some o) := by
  cases o with
  | group g =>
    obtain ⟨isGroup, noEntry⟩ := ownerOf_group owned
    simp [cancelOwner, isGroup, noEntry]
  | entry x =>
    obtain ⟨noGroup, isEntry⟩ := ownerOf_entry owned
    simp [cancelOwner, noGroup, isEntry]

theorem deleteFromDeferQ_dequeued (s : TaskScheduler) (o : Owner) (e : EntryId) (t : TaskPtr) :
    (s.dequeued e t).deleteFromDeferQ o e = (s.deleteFromDeferQ o e).map (·.dequeued e t) := by
  unfold deleteFromDeferQ
  by_cases linked : s.backPointer e o = some o ∧ e ∈ s.deferq o
  · rw [if_pos linked, if_pos (by cases o <;> exact linked)]
    cases o <;> rfl
  · rw [if_neg linked, if_neg (by cases o <;> exact linked)]
    rfl

theorem Inv.delete (inv : Inv s none [t] X) :
    Inv { s with tasks := update s.tasks t none, cancelCount := s.cancelCount + 1 } none [] X := by
  have rest := inv.rest (by simp) none (by simp)
  exact rest.carry { rest.core with }
    rfl rfl rfl rfl rfl

theorem cancel_first {rest : List TaskPtr} (idle : Idle s) (owned : s.owner e = some o) (queue : s.waitq e = t :: rest)
    (id : TaskId) : ∃ s', (if ((s.dequeued e t).waitq e).length = 0 then (s.dequeued e t).cancelLast id e
      else (s.dequeued e t).cancelFirst id e) = some s' ∧ Inv s' none [t] (fun _ => False) ∧
      ∃ v, Relinked (s.dequeued e t) e v s' := by
  have justified := idle.held e o owned not_false
  obtain ⟨s₁, unlink, inv₁, moved, relinked⟩ := idle.unlink owned
  obtain ⟨_, inv₂, left⟩ := inv₁.dequeue (by rw [relinked.waitq]; exact queue)
  have unlinked : (s.dequeued e t).deleteFromDeferQ o e = some (s₁.dequeued e t) := by
    rw [deleteFromDeferQ_dequeued, unlink]
    rfl
  have found : (s.dequeued e t).cancelOwner id e = some (some o) := cancelOwner_owned owned id
  have behind : (s.dequeued e t).waitq e = rest := by simp [dequeued, queue]
  rw [behind]
  by_cases empty : rest = []
  · rw [if_pos (by simp [empty])]
    refine ⟨s₁.dequeued e t, by simp [cancelLast, found, unlinked], ?_, none, relinked.dequeued t⟩
    exact (inv₂.release (left.trans empty)).weaken fun _ _ _ h => h.1.1
  · rw [if_neg (by simpa using empty)]
    have justified' : Justified (s₁.dequeued e t) e o :=
      justified.keep moved.policy moved.policyq moved.running (by simp [dequeued, relinked.runCount])
    obtain ⟨s₂, link, inv₃, _, relinked₂⟩ := inv₂.defer (by rw [left]; exact empty) justified'
    exact ⟨s₂, by simp [cancelFirst, found, unlinked, link], inv₃.weaken fun _ _ _ h => h.1.1, some o,
      (relinked.dequeued t).trans relinked₂⟩

inductive Cancels (s : TaskScheduler) (t : TaskPtr) (task : Task) : CancelReturnCode → TaskScheduler → Prop
  | failed (fresh : task.state = .init) : Cancels s t task .failed s
  | queued (runs : task.state = .run) : Cancels s t task .queued (s.setTask t { task with taskCancel := true })
  -- A waiting task leaves the waitq; its entry is linked anew.
  | cancelled (waits : task.state = .wait) {v : Option Owner} {mid : TaskScheduler}
      (relinked : Relinked (s.dequeued task.entry t) task.entry v mid) :
      Cancels s t task .cancelled { mid with tasks := update mid.tasks t none, cancelCount := mid.cancelCount + 1 }

theorem cancel_spec (idle : Idle s) (here : s.tasks t = some task) : ∃ code s', s.cancel t = some (code, s') ∧ Idle s' ∧
    s'.policy = s.policy ∧ s'.policyq = s.policyq ∧ Cancels s t task code s' := by
  cases state : task.state with
  | init => exact ⟨.failed, s, by simp [cancel, here, state], idle, rfl, rfl, .failed state⟩
  | run =>
    exact ⟨.queued, s.setTask t { task with taskCancel := true }, by simp [cancel, here, state],
      idle.mark here { task with taskCancel := true } rfl rfl rfl rfl rfl, rfl, rfl, .queued state⟩
  | wait =>
    have member : t ∈ s.waitq task.entry := (idle.core.tasks.waiting _ t).mpr ⟨by simp, task, here, state, rfl⟩
    have known := idle.core.known t task here (by simp) (by simp [state])
    obtain ⟨first, rest, queue⟩ := List.exists_cons_of_ne_nil (List.ne_nil_of_mem member)
    have linked : s.owner task.entry ≠ none :=
      (idle.core.links.linked task.entry (by simp)).mp (List.ne_nil_of_mem member)
    obtain ⟨o, owned⟩ := Option.ne_none_iff_exists'.mp linked
    have deleted : s.deleteFromWaitQ task.entry t = some (s.dequeued task.entry t) := by
      rw [deleteFromWaitQ, if_pos member]
      rfl
    by_cases same : t = first
    · subst same
      obtain ⟨s', run, inv, v, relinked⟩ := cancel_first idle owned queue task.taskId
      have moved : Moved task.entry [] (s.dequeued task.entry t) s' := relinked.moved
      refine ⟨.cancelled, _, ?_, inv.delete, moved.policy, moved.policyq, .cancelled state relinked⟩
      simp only [cancel, here, state, known, queue, deleted, Option.bind_eq_bind, Option.bind_some, List.head?_cons,
        Bool.true_eq_false, if_false, if_true]
      split at run
      · rename_i last
        rw [if_pos last, run]
        rfl
      · rename_i more
        rw [if_neg more, run]
        rfl
    · have behind : (s.waitq task.entry).head? ≠ some t := by simpa [queue] using Ne.symm same
      obtain ⟨_, core⟩ := deleteFromWaitQ_spec idle.core member (.inr behind)
      have inv : Inv (s.dequeued task.entry t) none [t] fun _ => False := idle.carry core rfl rfl rfl rfl rfl
      have remain : ((s.dequeued task.entry t).waitq task.entry).length ≠ 0 := by
        simp [dequeued, queue, Ne.symm same]
      refine ⟨.cancelled, _, ?_, inv.delete, rfl, rfl, .cancelled state (v := s.owner task.entry) ⟨rfl, fun y => ?_⟩⟩
      · simp only [cancel, here, state, known, queue, deleted, remain, same, Option.bind_eq_bind, Option.bind_some,
          List.head?_cons, Bool.true_eq_false, if_false]
        rfl
      · split
        · rename_i equal
          rw [equal]
          rfl
        · rfl

end cancel

section exit

theorem CountsOK.single {tasks : TaskPtr → Option Task} {tbb : List TaskPtr} {runCount : Owner → Int}
    {runTask : EntryId → Option TaskPtr} (ok : CountsOK tasks tbb runCount runTask) (once : tbb.Nodup) {id n : Nat}
    (running : runTask (.task id (some n)) = some t) : runCount (.entry (.task id (some n))) = 1 := by
  have member := ((ok.only id n t).mp running).1
  have same : tbb.countP (belongs tasks (.entry (.task id (some n)))) = tbb.countP (· == t) := by
    refine List.countP_congr fun u hu => ?_
    rw [beq_iff_eq]
    constructor
    · intro inside
      have also := (ok.only id n u).mpr ⟨hu, inside⟩
      rw [running] at also
      exact (Option.some.inj also).symm
    · rintro rfl
      exact ((ok.only id n u).mp running).2
  have one := List.count_eq_one_of_mem once member
  rw [List.count] at one
  rw [ok.count, same, one]
  rfl

def TaskScheduler.exited (s : TaskScheduler) (t : TaskPtr) (task : Task) (runTask' : EntryId → Option TaskPtr) :
    TaskScheduler :=
  ({ s with tbb := s.tbb.erase t, doneCount := s.doneCount + 1, runTask := runTask' }.addRunCount
    (.entry task.entry) (-1)).addRunCount (.group task.taskId) (-1)

theorem clearRunTask_spec (core : Core s none []) (running : t ∈ s.tbb) (here : s.tasks t = some task) :
    ∃ runTask' : EntryId → Option TaskPtr,
      { s with tbb := s.tbb.erase t, doneCount := s.doneCount + 1 }.clearRunTask task.entry t =
        some { s with tbb := s.tbb.erase t, doneCount := s.doneCount + 1, runTask := runTask' } ∧
      (∀ e, e ≠ task.entry → runTask' e = s.runTask e) ∧ (task.taskInstance ≠ none → runTask' task.entry = none) := by
  have instance_ : task.entry.taskInstance = task.taskInstance := rfl
  cases inst : task.taskInstance with
  | none => exact ⟨s.runTask, by rw [clearRunTask, if_pos (instance_.trans inst)], fun _ _ => rfl, by simp⟩
  | some n =>
    have place : task.entry = .task task.taskId (some n) := by rw [Task.entry, inst]
    have inside := (belongs_iff here (.entry (.task task.taskId (some n)))).mpr (.inr (by rw [place]))
    have set := (core.counts.only task.taskId n t).mpr ⟨running, inside⟩
    have one := core.counts.single core.tasks.once set
    refine ⟨update s.runTask task.entry none, ?_, fun e other => Function.update_of_ne other .., fun _ =>
      Function.update_self ..⟩
    rw [clearRunTask, if_neg (by simp [instance_, inst]), if_pos (by rw [place]; exact ⟨set, one⟩)]

def Freed (s : TaskScheduler) (task : Task) (o : Owner) : Prop :=
  (o = .group task.taskId ∨ o = .entry task.entry) ∧ s.runCount o = 0

theorem exited_inv {runTask' : EntryId → Option TaskPtr} (idle : Idle s) (running : t ∈ s.tbb)
    (here : s.tasks t = some task) (others : ∀ e, e ≠ task.entry → runTask' e = s.runTask e)
    (alone : task.taskInstance ≠ none → runTask' task.entry = none) :
    Inv (s.exited t task runTask') none [t] fun y => ∃ o, s.owner y = some o ∧ Freed (s.exited t task runTask') task o := by
  have counts := addRunCount_both { s with tbb := s.tbb.erase t, doneCount := s.doneCount + 1, runTask := runTask' }
    task.entry task.taskId (-1)
  have counted := idle.core.counts.exit idle.core.tasks.once running here others alone
  have core : Core (s.exited t task runTask') none [t] := by
    refine ⟨idle.core.tasks.exit running, ⟨fun o => ?_, counted.only⟩, ?_, ?_, idle.core.enabled⟩
    · exact (counts o).trans (counted.count o)
    · exact idle.core.links
    · exact fun u other there _ state => idle.core.known u other there (by simp) state
  refine ⟨core, fun y o owned away => ?_, idle.excl.shrink rfl rfl (fun o => ?_) core.nonneg, idle.policed⟩
  · refine (idle.held y o owned not_false).keep rfl rfl rfl fun active zero => away ⟨o, owned, ?_, zero⟩
    by_contra other
    have same := counts o
    rw [if_neg other, Int.add_zero] at same
    exact active (same.symm.trans zero)
  · refine (counts o).le.trans ?_
    simp only
    split <;> omega

theorem Inv.runFreed {u : TaskScheduler} (inv : Inv u none [t] fun y => ∃ o, u.owner y = some o ∧ Freed u task o) :
    ∃ s', (if u.runCount (.group task.taskId) = 0 ∧ u.runCount (.entry task.entry) = 0 then
        u.runCombinedDeferQ task.taskId task.entry
      else if u.runCount (.group task.taskId) = 0 then u.runDeferQ (.group task.taskId)
      else if u.runCount (.entry task.entry) = 0 then u.runDeferQ (.entry task.entry) else some u) = some s' ∧
      Inv s' none [t] (fun _ => False) ∧ ∃ starts, Visits (Freed u task) [t] starts u s' := by
  by_cases group : u.runCount (.group task.taskId) = 0
  · by_cases entry : u.runCount (.entry task.entry) = 0
    · rw [if_pos ⟨group, entry⟩]
      obtain ⟨s', run, inv', starts, visits⟩ := runCombinedDeferQ_spec (inv.weaken fun y _ _ => by
        rintro ⟨o, owned, rfl | rfl, _⟩
        · exact .inl owned
        · exact .inr owned)
      refine ⟨s', run, inv', starts, visits.mono ?_⟩
      rintro o (rfl | rfl)
      · exact ⟨.inl rfl, group⟩
      · exact ⟨.inr rfl, entry⟩
    · rw [if_neg fun both => entry both.2, if_pos group]
      obtain ⟨s', run, inv', starts, visits⟩ := runDeferQ_spec (inv.weaken fun y _ _ => by
        rintro ⟨o, owned, rfl | rfl, zero⟩
        · exact owned
        · exact absurd zero entry)
      exact ⟨s', run, inv', starts, visits.mono fun o same => ⟨.inl same, same ▸ group⟩⟩
  · rw [if_neg fun both => group both.1, if_neg group]
    by_cases entry : u.runCount (.entry task.entry) = 0
    · rw [if_pos entry]
      obtain ⟨s', run, inv', starts, visits⟩ := runDeferQ_spec (inv.weaken fun y _ _ => by
        rintro ⟨o, owned, rfl | rfl, zero⟩
        · exact absurd zero group
        · exact owned)
      exact ⟨s', run, inv', starts, visits.mono fun o same => ⟨.inr same, same ▸ entry⟩⟩
    · rw [if_neg entry]
      refine ⟨_, rfl, inv.weaken ?_, [], .done _⟩
      rintro y _ _ ⟨o, owned, rfl | rfl, zero⟩
      · exact group zero
      · exact entry zero

theorem taskExited_spec (idle : Idle s) (running : t ∈ s.tbb) (here : s.tasks t = some task) :
    ∃ runTask' s', { s with tbb := s.tbb.erase t, doneCount := s.doneCount + 1 }.taskExited task.entry t task.taskId = some s' ∧
      (∃ X, Inv (s.exited t task runTask') none [t] X) ∧ Inv s' none [t] (fun _ => False) ∧
      ∃ starts, Visits (Freed (s.exited t task runTask') task) [t] starts (s.exited t task runTask') s' := by
  obtain ⟨runTask', clear, others, alone⟩ := clearRunTask_spec idle.core running here
  have inv := exited_inv idle running here others alone
  obtain ⟨s', run, inv', visits⟩ := inv.runFreed
  refine ⟨runTask', s', ?_, ⟨_, inv⟩, inv', visits⟩
  rw [← run]
  simp only [taskExited, clear]
  rfl

def Task.reset (task : Task) : Task := { task with taskImpl := false, seqno := 0, state := .init }

def Task.withSeqno (task : Task) (seqno : Nat) : Task := { task with seqno }

inductive Exits (s : TaskScheduler) (t : TaskPtr) (task : Task) : TaskScheduler → Prop
  | gone {runTask' : EntryId → Option TaskPtr} {mid : TaskScheduler} {starts : List TaskPtr} {X : EntryId → Prop}
      (inv : Inv (s.exited t task runTask') none [t] X)
      (visits : Visits (Freed (s.exited t task runTask') task) [t] starts (s.exited t task runTask') mid)
      (inv' : Inv mid none [t] fun _ => False) (last : task.taskRecycle = false ∨ task.taskCancel = true) :
      Exits s t task { mid with tasks := update mid.tasks t none }
  | recycled {runTask' : EntryId → Option TaskPtr} {mid s' : TaskScheduler} {starts : List TaskPtr} {X : EntryId → Prop}
      (inv : Inv (s.exited t task runTask') none [t] X)
      (visits : Visits (Freed (s.exited t task runTask') task) [t] starts (s.exited t task runTask') mid)
      (inv' : Inv mid none [t] fun _ => False) (again : ¬ (task.taskRecycle = false ∨ task.taskCancel = true))
      (fresh : Idle (mid.setTask t task.reset))
      (placed : Placed ((mid.setTask t task.reset).numbered t task.reset) t (task.reset.withSeqno (mid.seqno + 1)) s') :
      Exits s t task s'

theorem onTaskExit_spec (idle : Idle s) (running : t ∈ s.tbb) (here : s.tasks t = some task) (state : task.state = .run) :
    ∃ s', s.onTaskExit t = some s' ∧ Idle s' ∧ s'.policy = s.policy ∧ s'.policyq = s.policyq ∧ Exits s t task s' := by
  have known := idle.core.known t task here (by simp) (by simp [state])
  have created : { s with tbb := s.tbb.erase t, doneCount := s.doneCount + 1 }.getTaskGroup task.taskId =
      { s with tbb := s.tbb.erase t, doneCount := s.doneCount + 1 } := by
    have there := query_group known
    rw [getTaskGroup, if_pos (by simpa [queryTaskGroup] using there)]
  obtain ⟨runTask', s₁, run, ⟨X, inv⟩, inv', starts, visits⟩ := taskExited_spec idle running here
  have grown := visits.grown
  have kept : s₁.tasks t = some task := (grown.kept t (by simp)).trans here
  have known' : { s with tbb := s.tbb.erase t, doneCount := s.doneCount + 1 }.queryTaskEntry task.taskId
      task.taskInstance = true := by
    rw [← known]
    cases task.taskInstance <;> rfl
  simp only [onTaskExit, here, Option.bind_eq_bind, Option.bind_some, known', Bool.true_eq_false, if_false, created, run,
    kept]
  by_cases gone : task.taskRecycle = false ∨ task.taskCancel = true
  · rw [if_pos gone]
    exact ⟨_, rfl, inv'.rest (by simp) none (by simp), grown.policy, grown.policyq, .gone inv visits inv' gone⟩
  · rw [if_neg gone]
    have fresh : Idle (s₁.setTask t task.reset) := by
      refine inv'.rest (by simp) (some task.reset) ?_
      rintro _ ⟨⟩
      exact ⟨rfl, rfl, rfl⟩
    have back : (s₁.setTask t task.reset).tasks t = some task.reset := Function.update_self ..
    obtain ⟨⟨s₂, again, idle', policy, policyq, placed⟩, same, same'⟩ := enqueue_spec fresh back rfl
    exact ⟨s₂, again, idle', policy.trans (same.trans grown.policy), policyq.trans (same'.trans grown.policyq),
      .recycled inv visits inv' gone fresh placed⟩

end exit

theorem stop_spec (idle : Idle s) : Safe s (some s.stop) := by
  refine ⟨_, rfl, ⟨{ idle.core with }, ?_,
    ⟨idle.excl.groups, idle.excl.entries⟩, idle.policed⟩, rfl, rfl⟩
  intro y o owned away
  have justified := idle.held y o owned away
  cases o with
  | group g => exact justified
  | entry x => exact justified.imp id fun h => ⟨h.1, rfl⟩

theorem start_inv (idle : Idle s) :
    Inv { s with running := true } none [] fun y => { s with running := true }.owner y = some (.entry .stop) := by
  refine ⟨{ idle.core with }, ?_,
    ⟨idle.excl.groups, idle.excl.entries⟩, idle.policed⟩
  intro y o owned away
  have justified := idle.held y o owned not_false
  cases o with
  | group g => exact justified
  | entry x =>
    refine .inl (justified.resolve_right fun h => away ?_)
    rw [owned, h.1]

theorem start_spec (idle : Idle s) : ∃ s', s.start = some s' ∧ Idle s' ∧ s'.policy = s.policy ∧ s'.policyq = s.policyq ∧
    ∃ starts, Visits (· = .entry .stop) [] starts { s with running := true } s' := by
  obtain ⟨s', run, idle', starts, visits⟩ := runDeferQ_spec (start_inv idle)
  exact ⟨s', run, idle', visits.grown.policy, visits.grown.policyq, starts, visits⟩

theorem newTask_spec (idle : Idle s) (unused : s.tasks t = none) (id : TaskId) (inst : Instance) :
    Safe s (some (s.newTask t id inst)) := by
  have taken : Inv s none [t] fun _ => False :=
    { idle with core := idle.core.take fun task here => by simp [unused] at here }
  refine ⟨_, rfl, taken.rest (by simp) (some { taskId := id, taskInstance := inst }) ?_, rfl, rfl⟩
  rintro _ ⟨⟩
  exact ⟨rfl, rfl, rfl⟩

end TFCommon.Scheduler
