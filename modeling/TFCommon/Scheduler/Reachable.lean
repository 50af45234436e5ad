import TFCommon.Scheduler.Policy

/-! Mutual exclusion and the justification of every wait, in all states that calls can reach. -/
namespace TFCommon.Scheduler
open TaskScheduler

/-- The calls, each under `mutex_`. `exit` is the end of a started `TaskImpl`: `Run()` has returned
`complete`, and the destructor calls `OnTaskExit`. -/
inductive Event where
  | create (t : TaskPtr) (id : TaskId) (inst : Instance)
  | enqueue (t : TaskPtr)
  | cancel (t : TaskPtr)
  | exit (t : TaskPtr) (complete : Bool)
  | stop
  | start
deriving DecidableEq, Repr

/-- What the callers owe: a task is enqueued once, a cancelled task exists, and TBB runs what was started. -/
def Enabled (s : TaskScheduler) : Event → Prop
  | .create t _ _ => s.tasks t = none
  | .enqueue t => ∃ task, s.tasks t = some task ∧ task.state = .init
  | .cancel t => ∃ task, s.tasks t = some task
  | .exit t _ => t ∈ s.tbb
  | .stop => True
  | .start => True

def TaskScheduler.exec (s : TaskScheduler) : Event → Option TaskScheduler
  | .create t id inst => some (s.newTask t id inst)
  | .enqueue t => s.enqueue t
  | .cancel t => (s.cancel t).map (·.2)
  | .exit t complete => do (← s.setRecycle t (!complete)).onTaskExit t
  | .stop => some s.stop
  | .start => s.start

inductive Reachable (s₀ : TaskScheduler) : TaskScheduler → Prop
  | start : Reachable s₀ s₀
  | step {s s' : TaskScheduler} (event : Event) (earlier : Reachable s₀ s) (enabled : Enabled s event)
      (run : s.exec event = some s') : Reachable s₀ s'

variable {s₀ s s' : TaskScheduler}

inductive Call (s : TaskScheduler) : Event → TaskScheduler → Prop
  | create {t : TaskPtr} (unused : s.tasks t = none) (id : TaskId) (inst : Instance) : Call s (.create t id inst) (s.newTask t id inst)
  | enqueue {t : TaskPtr} {task : Task} {s' : TaskScheduler} (here : s.tasks t = some task) (fresh : task.state = .init)
      (placed : Placed (s.numbered t task) t { task with seqno := s.seqno + 1 } s') : Call s (.enqueue t) s'
  | cancel {t : TaskPtr} {task : Task} {code : CancelReturnCode} {s' : TaskScheduler} (here : s.tasks t = some task)
      (returned : s.cancel t = some (code, s')) (cancels : Cancels s t task code s') : Call s (.cancel t) s'
  | exit {t : TaskPtr} {task : Task} {s' : TaskScheduler} (here : s.tasks t = some task) (runs : task.state = .run)
      (complete : Bool) (exits : Exits (s.setTask t { task with taskRecycle := !complete }) t
        { task with taskRecycle := !complete } s') : Call s (.exit t complete) s'
  | stop : Call s .stop s.stop
  | start {s' : TaskScheduler} {starts : List TaskPtr} (visits : Visits (· = .entry .stop) [] starts { s with running := true } s') :
      Call s .start s'

theorem exec_call (idle : Idle s) (event : Event) (enabled : Enabled s event) : ∃ s', s.exec event = some s' ∧ Idle s' ∧
    s'.policy = s.policy ∧ s'.policyq = s.policyq ∧ Call s event s' := by
  cases event with
  | create t id inst =>
    obtain ⟨s', run, idle', policy, policyq⟩ := newTask_spec idle enabled id inst
    cases run
    exact ⟨_, rfl, idle', policy, policyq, .create enabled id inst⟩
  | enqueue t =>
    obtain ⟨task, here, fresh⟩ := enabled
    obtain ⟨⟨s', run, idle', policy, policyq, placed⟩, same, same'⟩ := enqueue_spec idle here fresh
    exact ⟨s', run, idle', policy.trans same, policyq.trans same', .enqueue here fresh placed⟩
  | cancel t =>
    obtain ⟨task, here⟩ := enabled
    obtain ⟨code, s', run, idle', policy, policyq, cancels⟩ := cancel_spec idle here
    exact ⟨s', by simp [exec, run], idle', policy, policyq, .cancel here run cancels⟩
  | exit t complete =>
    obtain ⟨_, task, here, runs⟩ := (idle.core.tasks.started t).mp enabled
    have marked := idle.mark here { task with taskRecycle := !complete } rfl rfl rfl rfl rfl
    obtain ⟨s', run, idle', policy, policyq, exits⟩ := onTaskExit_spec marked enabled (Function.update_self ..) runs
    exact ⟨s', by simp [exec, setRecycle, here, run], idle', policy, policyq, .exit here runs complete exits⟩
  | stop =>
    obtain ⟨s', run, idle', policy, policyq⟩ := stop_spec idle
    cases run
    exact ⟨_, rfl, idle', policy, policyq, .stop⟩
  | start =>
    obtain ⟨s', run, idle', policy, policyq, starts, visits⟩ := start_spec idle
    exact ⟨s', run, idle', policy, policyq, .start visits⟩

theorem call_of_exec {event : Event} (idle : Idle s) (enabled : Enabled s event) (run : s.exec event = some s') :
    Idle s' ∧ s'.policy = s.policy ∧ s'.policyq = s.policyq ∧ Call s event s' := by
  obtain ⟨_, run', after⟩ := exec_call idle event enabled
  cases run.symm.trans run'
  exact after

theorem Reachable.idle (reach : Reachable s₀ s) (initial : Idle s₀) :
    Idle s ∧ s.policy = s₀.policy ∧ s.policyq = s₀.policyq := by
  induction reach with
  | start => exact ⟨initial, rfl, rfl⟩
  | step event _ enabled run ih =>
    obtain ⟨idle, policy, policyq⟩ := ih
    obtain ⟨idle', policy', policyq', _⟩ := call_of_exec idle enabled run
    exact ⟨idle', policy'.trans policy, policyq'.trans policyq⟩

section exclusion
variable {t u : TaskPtr} {a b : Task}

theorem Inv.running (idle : Idle s) (here : s.tasks t = some a) (runs : a.state = .run) : t ∈ s.tbb :=
  (idle.core.tasks.started t).mpr ⟨by simp, a, here, runs⟩

theorem Inv.active (idle : Idle s) (here : s.tasks t = some a) (runs : a.state = .run) :
    s.runCount (.group a.taskId) ≠ 0 ∧ s.runCount (.entry a.entry) ≠ 0 := by
  have positive : ∀ o, o = .group a.taskId ∨ o = .entry a.entry → s.runCount o ≠ 0 := fun o mine => by
    have counted : 0 < s.tbb.countP (belongs s.tasks o) :=
      List.countP_pos_iff.mpr ⟨t, idle.running here runs, (belongs_iff here o).mpr mine⟩
    rw [idle.core.counts.count]
    omega
  exact ⟨positive _ (.inl rfl), positive _ (.inr rfl)⟩

theorem Inv.alone (idle : Idle s) (ht : s.tasks t = some a) (hu : s.tasks u = some b) (runsT : a.state = .run)
    (runsU : b.state = .run) (same : a.entry = b.entry) (instance_ : a.taskInstance ≠ none) : t = u := by
  obtain ⟨n, inst⟩ := Option.ne_none_iff_exists'.mp instance_
  have place : a.entry = .task a.taskId (some n) := by rw [Task.entry, inst]
  have first := (idle.core.counts.only a.taskId n t).mpr
    ⟨idle.running ht runsT, (belongs_iff ht _).mpr (.inr (by rw [place]))⟩
  have second := (idle.core.counts.only a.taskId n u).mpr
    ⟨idle.running hu runsU, (belongs_iff hu _).mpr (.inr (by rw [← same, place]))⟩
  rw [first] at second
  exact Option.some.inj second

theorem EntryLinked.instance {policies : Policies} (linked : EntryLinked policies a.entry b.entry)
    (same : a.entry = b.entry) : a.taskInstance ≠ none := by
  obtain ⟨p, _, rule, _, n, _, ⟨_, right⟩ | ⟨left, _⟩⟩ := linked
  · exact instance_of_entry (same.trans right).symm
  · exact instance_of_entry left.symm

/-- No two tasks run together in linked groups or linked entries, or in one instance. -/
theorem linked_tasks_exclude (policies : Policies) (distinct : (policies.map Prod.fst).Nodup)
    (others : ∀ p ∈ policies, ∀ rule ∈ p.2, rule.matchInstance = none → rule.matchId ≠ p.1) :
    ∃ s₀, ({} : TaskScheduler).setPolicies policies = some s₀ ∧ ∀ s, Reachable s₀ s →
      ∀ t u a b, s.tasks t = some a → s.tasks u = some b → a.state = .run → b.state = .run → t ≠ u →
        ¬ GroupLinked policies a.taskId b.taskId ∧ ¬ EntryLinked policies a.entry b.entry ∧
        ¬ (a.taskId = b.taskId ∧ a.taskInstance = b.taskInstance ∧ a.taskInstance ≠ none) := by
  obtain ⟨s₀, installed, initial, groups, entries, _⟩ := setPolicies_idle policies distinct
  refine ⟨s₀, installed, fun s reach t u a b ht hu runsT runsU differ => ?_⟩
  obtain ⟨idle, policy, policyq⟩ := reach.idle initial
  obtain ⟨groupT, entryT⟩ := idle.active ht runsT
  obtain ⟨groupU, entryU⟩ := idle.active hu runsU
  refine ⟨fun linked => ?_, fun linked => ?_, fun ⟨id, inst, some_⟩ => ?_⟩
  · have apart : a.taskId ≠ b.taskId := by
      obtain ⟨p, hp, rule, hr, wild, ⟨left, right⟩ | ⟨left, right⟩⟩ := linked
      · rw [left, right]
        exact (others p hp rule hr wild).symm
      · rw [left, right]
        exact others p hp rule hr wild
    rw [← groups, ← policy] at linked
    exact (idle.excl.groups _ _ linked apart).elim groupT groupU
  · by_cases same : a.entry = b.entry
    · exact differ (idle.alone ht hu runsT runsU same (linked.instance same))
    · have rule : b.entry ∈ s.policyq a.entry := by
        rw [policyq, entries]
        exact .inr linked
      exact (idle.excl.entries _ _ rule same).elim entryT entryU
  · exact differ (idle.alone ht hu runsT runsU (by rw [Task.entry, Task.entry, id, inst]) some_)

/-- Group 0 has a wildcard rule for group 1 and an instance rule for group 2. -/
def mixedRules : Policies := [(0, [⟨1, none⟩, ⟨2, some 3⟩])]

/-- The second of two tasks in linked groups waits. -/
theorem mixedRules_exclude :
    (∃ s₀, ({} : TaskScheduler).setPolicies mixedRules = some s₀ ∧ ∀ s, Reachable s₀ s →
      ∀ t u a b, s.tasks t = some a → s.tasks u = some b → a.state = .run → b.state = .run → t ≠ u →
        ¬ GroupLinked mixedRules a.taskId b.taskId ∧ ¬ EntryLinked mixedRules a.entry b.entry ∧
        ¬ (a.taskId = b.taskId ∧ a.taskInstance = b.taskInstance ∧ a.taskInstance ≠ none)) ∧
    ((({} : TaskScheduler).setPolicies mixedRules).bind
      ([Event.create 1 0 none, .create 2 1 none, .enqueue 1, .enqueue 2].foldlM TaskScheduler.exec)).map
        (fun s => ((s.tasks 1).map Task.state, (s.tasks 2).map Task.state)) = some (some .run, some .wait) :=
  ⟨linked_tasks_exclude mixedRules (by decide) (by decide), by decide⟩

end exclusion

section waiting

def Owner.pointers : Owner → Option TaskId × Option EntryId
  | .group g => (some g, none)
  | .entry x => (none, some x)

theorem pointers_of_ownerOf {g : Option TaskId} {x : Option EntryId} {o : Owner} (owned : ownerOf g x = some o) :
    (g, x) = o.pointers := by
  cases o with
  | group id =>
    obtain ⟨rfl, rfl⟩ := ownerOf_group owned
    rfl
  | entry y =>
    obtain ⟨rfl, rfl⟩ := ownerOf_entry owned
    rfl

theorem Inv.justified (idle : Idle s) {e : EntryId} (waits : s.waitq e ≠ []) : ∃ o, s.owner e = some o ∧ Justified s e o := by
  have linked : s.owner e ≠ none := (idle.core.links.linked e (by simp)).mp waits
  obtain ⟨o, owned⟩ := Option.ne_none_iff_exists'.mp linked
  exact ⟨o, owned, idle.held e o owned not_false⟩

theorem Inv.quiescent (idle : Idle s) (running : s.running = true)
    (none_ : ∀ t task, s.tasks t = some task → task.state ≠ .run) (e : EntryId) : s.waitq e = [] := by
  by_contra waits
  obtain ⟨o, _, justified⟩ := idle.justified waits
  have empty : s.tbb = [] := List.eq_nil_iff_forall_not_mem.mpr fun t member => by
    obtain ⟨_, task, here, runs⟩ := (idle.core.tasks.started t).mp member
    exact none_ t task here runs
  have zero : ∀ o, s.runCount o = 0 := fun o => by rw [idle.core.counts.count, empty]; rfl
  cases o with
  | group g => exact justified.2 (zero _)
  | entry x =>
    rcases justified with ⟨_, active⟩ | ⟨_, stopped⟩
    · exact active (zero _)
    · simp [running] at stopped

/-- Every task that waits is behind one owner, which is a reason to wait, and no call fails. -/
theorem no_task_lost (policies : Policies) (distinct : (policies.map Prod.fst).Nodup) :
    ∃ s₀, ({} : TaskScheduler).setPolicies policies = some s₀ ∧ ∀ s, Reachable s₀ s →
      (∀ e, s.waitq e ≠ [] → ∃ o, (∀ o', e ∈ s.deferq o' ↔ o' = o) ∧
        (s.deferqTaskGroup e, s.deferqTaskEntry e) = o.pointers ∧ Justified s e o) ∧
      (∀ e o, e ∈ s.deferq o → s.waitq e ≠ []) ∧
      (∀ o, KeyedList.Sorted s.headSeqno (s.deferq o)) ∧
      (∀ event, Enabled s event → ∃ s', s.exec event = some s') ∧
      (s.running = true → (∀ t task, s.tasks t = some task → task.state ≠ .run) → ∀ e, s.waitq e = []) := by
  obtain ⟨s₀, installed, initial, _⟩ := setPolicies_idle policies distinct
  refine ⟨s₀, installed, fun s reach => ?_⟩
  obtain ⟨idle, _⟩ := reach.idle initial
  refine ⟨fun e waits => ?_, fun e o member => ?_, idle.core.links.sorted, fun event enabled => ?_, idle.quiescent⟩
  · obtain ⟨o, owned, justified⟩ := idle.justified waits
    refine ⟨o, fun o' => ?_, pointers_of_ownerOf owned, justified⟩
    rw [idle.core.links.member, show ownerOf _ _ = some o from owned, Option.some.injEq, eq_comm]
  · exact idle.core.waits ((idle.core.links.member o e).mp member)
  · obtain ⟨s', run, _⟩ := exec_call idle event enabled
    exact ⟨s', run⟩

/-- The task that waited runs after the exit of the other. -/
theorem mixedRules_run_all :
    (∃ s₀, ({} : TaskScheduler).setPolicies mixedRules = some s₀ ∧ ∀ s, Reachable s₀ s → s.running = true →
      (∀ t task, s.tasks t = some task → task.state ≠ .run) → ∀ e, s.waitq e = []) ∧
    ((({} : TaskScheduler).setPolicies mixedRules).bind
      ([Event.create 1 0 none, .create 2 2 (some 3), .enqueue 1, .enqueue 2, .exit 1 true].foldlM
        TaskScheduler.exec)).map
        (fun s => ((s.tasks 1).map Task.state, (s.tasks 2).map Task.state)) = some (none, some .run) := by
  obtain ⟨s₀, installed, all⟩ := no_task_lost mixedRules (by decide)
  exact ⟨⟨s₀, installed, fun s reach => (all s reach).2.2.2.2⟩, by decide⟩

end waiting

end TFCommon.Scheduler
