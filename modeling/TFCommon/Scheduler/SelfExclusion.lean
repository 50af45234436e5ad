import TFCommon.Scheduler.Reachable

/-! A group whose policy names the group itself. Its check is made before a task is started, but an entry without
instance then starts all its waiting tasks. -/
namespace TFCommon.Scheduler
open TaskScheduler

/-- The states after calls that were made only where they are allowed. -/
inductive Guarded (allowed : TaskScheduler → Event → Prop) (s₀ : TaskScheduler) : TaskScheduler → Prop
  | start : Guarded allowed s₀ s₀
  | step {s s' : TaskScheduler} (event : Event) (earlier : Guarded allowed s₀ s) (enabled : Enabled s event)
      (here : allowed s event) (run : s.exec event = some s') : Guarded allowed s₀ s'

/-- At most one task of the id waits without instance when deferqs are run. -/
def Alone (tid : TaskId) (s : TaskScheduler) : Event → Prop
  | .exit _ _ | .start => (s.waitq (.task tid none)).length ≤ 1
  | _ => True

def AtMostOne (tid : TaskId) (s : TaskScheduler) : Prop :=
  ∀ t u a b, s.tasks t = some a → s.tasks u = some b → a.taskId = tid → b.taskId = tid → a.state = .run → b.state = .run → t = u

variable {s s' s₀ : TaskScheduler} {moving starts news : List TaskPtr} {x : EntryId} {t : TaskPtr} {task : Task} {tid : TaskId}
  {D : Owner → Prop} {X : EntryId → Prop}

theorem Guarded.reachable {allowed : TaskScheduler → Event → Prop} (guarded : Guarded allowed s₀ s) : Reachable s₀ s := by
  induction guarded with
  | start => exact .start
  | step event _ enabled _ run ih => exact .step event ih enabled run

theorem idle_of_free (self : tid ∈ s.policy tid) (free : ¬ Blocked s x) (mine : x.counts (.group tid)) :
    s.runCount (.group tid) = 0 := by
  by_contra active
  exact free (.inl ⟨tid, tid, mine, self, active⟩)

theorem Visited.task_entry (inv : Inv s none moving X) (visited : Visited x news s s') (some_ : news ≠ []) :
    ∃ id inst, x = .task id inst := by
  obtain ⟨t, rest, same⟩ := List.exists_cons_of_ne_nil some_
  have member : t ∈ s.waitq x := by simp [visited.waitq, same]
  obtain ⟨_, task, _, _, entry, _⟩ := inv.core.tasks.in_waitq member
  exact ⟨task.taskId, task.taskInstance, entry.symm⟩

theorem Visited.lone (inv : Inv s none moving X) (visited : Visited x news s s') (self : tid ∈ s.policy tid)
    (few : (s.waitq (.task tid none)).length ≤ 1) (before : s.runCount (.group tid) ≤ 1) :
    s'.runCount (.group tid) ≤ 1 := by
  rw [visited.counts]
  split
  · rename_i mine
    by_cases none_ : news = []
    · simpa [none_] using before
    · have zero := idle_of_free self (fun blocked => none_ (visited.blocked.mpr blocked)) mine
      obtain ⟨id, inst, rfl⟩ := visited.task_entry inv none_
      cases mine
      have short : news.length ≤ 1 := by
        cases inst with
        | none => rw [visited.all rfl none_]; exact few
        | some n => exact visited.one (by simp [EntryId.taskInstance])
      omega
  · omega

theorem Visits.lone (visits : Visits D moving starts s s') (self : tid ∈ s.policy tid)
    (few : (s.waitq (.task tid none)).length ≤ 1) (before : s.runCount (.group tid) ≤ 1) :
    s'.runCount (.group tid) ≤ 1 := by
  induction visits with
  | done s => exact before
  | @visit s mid s' x o news starts X drained owned inv moved visited _ ih =>
    refine ih (by rw [moved.policy]; exact self) ?_ (visited.lone inv self few before)
    by_cases same : x = .task tid none
    · have whole := congrArg List.length (same ▸ visited.waitq)
      rw [List.length_append] at whole
      omega
    · rw [visited.others _ (Ne.symm same)]
      exact few

theorem Placed.lone (placed : Placed s t task s') (self : tid ∈ s.policy tid) (before : s.runCount (.group tid) ≤ 1) :
    s'.runCount (.group tid) ≤ 1 := by
  cases placed with
  | queued _ _ _ counts => rw [counts]; exact before
  | started _ _ _ counts _ _ _ _ free =>
    rw [counts]
    split
    · rw [idle_of_free self free ‹_›]
      decide
    · omega

theorem runCount_exited (s : TaskScheduler) (t : TaskPtr) (task : Task) (runTask' : EntryId → Option TaskPtr) (o : Owner) :
    (s.exited t task runTask').runCount o = s.runCount o + if o = .group task.taskId ∨ o = .entry task.entry then -1 else 0 :=
  addRunCount_both { s with tbb := s.tbb.erase t, doneCount := s.doneCount + 1, runTask := runTask' } task.entry task.taskId (-1) o

theorem Exits.lone (exits : Exits s t task s') (self : tid ∈ s.policy tid) (few : (s.waitq (.task tid none)).length ≤ 1)
    (before : s.runCount (.group tid) ≤ 1) : s'.runCount (.group tid) ≤ 1 := by
  have counted (runTask' : EntryId → Option TaskPtr) : (s.exited t task runTask').runCount (.group tid) ≤ 1 := by
    rw [runCount_exited]
    split <;> omega
  cases exits with
  | gone inv visits => exact visits.lone self few (counted _)
  | @recycled runTask' _ _ _ _ inv visits _ _ _ placed =>
    have self' : tid ∈ (s.exited t task runTask').policy tid := self
    rw [← visits.grown.policy] at self'
    refine placed.lone ?_ ?_
    · rw [numbered_policy]
      exact self'
    · rw [numbered_runCount]
      exact visits.lone self few (counted _)

theorem Call.lone {event : Event} (call : Call s event s') (self : tid ∈ s.policy tid) (alone : Alone tid s event)
    (before : s.runCount (.group tid) ≤ 1) : s'.runCount (.group tid) ≤ 1 := by
  cases call with
  | create => exact before
  | enqueue here fresh placed => exact placed.lone (by simpa using self) (by simpa using before)
  | cancel here returned cancels =>
    cases cancels with
    | failed | queued => exact before
    | cancelled waits relinked =>
      rw [relinked.runCount]
      exact before
  | exit here runs complete exits => exact exits.lone self alone before
  | stop => exact before
  | start visits => exact visits.lone self alone before

theorem Inv.atMostOne (idle : Idle s) (few : s.runCount (.group tid) ≤ 1) : AtMostOne tid s := by
  rintro t u a b ht hu rfl same runsT runsU
  rw [idle.core.counts.count, List.countP_eq_length_filter] at few
  have memberT : t ∈ s.tbb.filter (belongs s.tasks (.group a.taskId)) :=
    List.mem_filter.mpr ⟨idle.running ht runsT, (belongs_iff ht _).mpr (.inl rfl)⟩
  have memberU : u ∈ s.tbb.filter (belongs s.tasks (.group a.taskId)) :=
    List.mem_filter.mpr ⟨idle.running hu runsU, (belongs_iff hu _).mpr (.inl (by rw [same]))⟩
  match s.tbb.filter (belongs s.tasks (.group a.taskId)), few, memberT, memberU with
  | [w], _, memberT, memberU => exact (List.mem_singleton.mp memberT).trans (List.mem_singleton.mp memberU).symm
  | _ :: _ :: rest, few, _, _ =>
    rw [List.length_cons, List.length_cons] at few
    omega

/-- With a rule that excludes the id from itself, at most one of its tasks runs, if at most one of them waits without
instance whenever deferqs are run. -/
theorem self_exclusion (policies : Policies) (distinct : (policies.map Prod.fst).Nodup) (tid : TaskId)
    (self : ∃ p ∈ policies, p.1 = tid ∧ ⟨tid, none⟩ ∈ p.2) :
    ∃ s₀, ({} : TaskScheduler).setPolicies policies = some s₀ ∧ ∀ s, Guarded (Alone tid) s₀ s → AtMostOne tid s := by
  obtain ⟨s₀, installed, initial, groups, _, unused⟩ := setPolicies_idle policies distinct
  obtain ⟨p, member, rfl, rule⟩ := self
  have linked : p.1 ∈ s₀.policy p.1 := (groups _ _).mpr ⟨p, member, _, rule, rfl, .inl ⟨rfl, rfl⟩⟩
  refine ⟨s₀, installed, fun s guarded => ?_⟩
  suffices few : s.runCount (.group p.1) ≤ 1 from (guarded.reachable.idle initial).1.atMostOne few
  induction guarded with
  | start =>
    obtain ⟨_, _, _, _, _, rfl⟩ := unused
    exact Int.zero_le_ofNat 1
  | step event earlier enabled alone run ih =>
    obtain ⟨idle, policy, _⟩ := earlier.reachable.idle initial
    exact (call_of_exec idle enabled run).2.2.2.lone (by rw [policy]; exact linked) alone ih

def selfRule : Policies := [(0, [⟨0, none⟩])]

/-- With one task waiting the rule works: the second task runs after the first, and the third waits for it. -/
theorem selfRule_one_waiting :
    (∃ s₀, ({} : TaskScheduler).setPolicies selfRule = some s₀ ∧ ∀ s, Guarded (Alone 0) s₀ s → AtMostOne 0 s) ∧
    ((({} : TaskScheduler).setPolicies selfRule).bind
      ([Event.create 1 0 none, .create 2 0 none, .create 3 0 none, .enqueue 1, .enqueue 2, .exit 1 true, .enqueue 3].foldlM
        TaskScheduler.exec)).map (fun s => ((s.tasks 2).map Task.state, (s.tasks 3).map Task.state)) =
      some (some .run, some .wait) :=
  ⟨self_exclusion selfRule (by decide) 0 ⟨(0, [⟨0, none⟩]), by decide, rfl, by decide⟩, by decide⟩

/-- Two tasks that wait without instance are started together when the first one exits. -/
theorem selfRule_two_run :
    ((({} : TaskScheduler).setPolicies selfRule).bind
      ([Event.create 1 0 none, .create 2 0 none, .create 3 0 none, .enqueue 1, .enqueue 2, .enqueue 3, .exit 1 true].foldlM
        TaskScheduler.exec)).map (fun s => ((s.tasks 2).map Task.state, (s.tasks 3).map Task.state)) =
      some (some .run, some .run) := by
  decide

end TFCommon.Scheduler
