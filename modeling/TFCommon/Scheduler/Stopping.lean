import TFCommon.Scheduler.Reachable

/-! `Stop` and `Start`. A stopped scheduler starts no task that is enqueued, but the exit of a task still runs the
deferqs of its group and of its entry. -/
namespace TFCommon.Scheduler
open Function (update)
open TaskScheduler

variable {s s' s₀ mid : TaskScheduler} {moving starts news : List TaskPtr} {x : EntryId} {t u : TaskPtr} {task a b : Task}
  {o : Owner} {D : Owner → Prop} {X : EntryId → Prop}

def Starts (s s' : TaskScheduler) (u : TaskPtr) : Prop :=
  ∃ a b, s.tasks u = some a ∧ a.state = .wait ∧ s'.tasks u = some b ∧ b.state = .run

def TaskScheduler.discounted (s : TaskScheduler) (task : Task) : TaskScheduler :=
  (s.addRunCount (.entry task.entry) (-1)).addRunCount (.group task.taskId) (-1)

/-- The exit of `t` frees nothing that waits: whatever waited for its group or its entry has something else to wait for. -/
def FreesNothing (s : TaskScheduler) (t : TaskPtr) : Prop :=
  ∀ task, s.tasks t = some task → ∀ o, Freed (s.discounted task) task o → ∀ x ∈ s.deferq o, Blocked (s.discounted task) x

theorem Ran.blocked (ran : Ran x [] s s') (moved : Moved x moving s s') {y : EntryId} : Blocked s' y ↔ Blocked s y := by
  have counts : s'.runCount = s.runCount := funext fun o => by simp [ran.counts]
  rw [Blocked, Blocked, moved.policy, moved.policyq, counts]

theorem Visits.silent (visits : Visits D moving starts s s') (all : ∀ o x, D o → s.owner x = some o → Blocked s x) :
    starts = [] := by
  induction visits with
  | done s => rfl
  | @visit s mid s' x o news starts X drained owned inv moved visited _ ih =>
    have none_ : news = [] := visited.blocked.mpr (all o x drained owned)
    subst none_
    refine ih fun p y drained' owned' => (visited.toRan.blocked moved).mpr ?_
    by_cases same : y = x
    · exact same ▸ all o x drained owned
    · rw [moved.owner y same] at owned'
      exact all p y drained' owned'

theorem Visits.kept (visits : Visits D moving starts s s') (none_ : starts = []) (y : EntryId) :
    s'.owner y = s.owner y ∨ Blocked s y := by
  induction visits with
  | done s => exact .inl rfl
  | @visit s mid s' x o news starts X drained owned inv moved visited _ ih =>
    obtain ⟨rfl, rfl⟩ := List.append_eq_nil_iff.mp none_
    by_cases same : y = x
    · exact .inr (same ▸ visited.blocked.mp rfl)
    · exact (ih rfl).imp (fun kept => kept.trans (moved.owner y same)) (visited.toRan.blocked moved).mp

/-- The deferqs that an exit runs start nothing exactly if everything in them has something else to wait for. -/
theorem Visits.silent_iff (inv : Inv s none moving X) (visits : Visits (Freed s task) moving starts s s')
    (inv' : Inv s' none moving fun _ => False) :
    starts = [] ↔ ∀ o, Freed s task o → ∀ x ∈ s.deferq o, Blocked s x := by
  constructor
  · intro none_ o freed x member
    have owned := (inv.core.links.member o x).mp member
    rcases visits.kept none_ x with kept | blocked
    · have same : s'.owner x = some o := kept.trans owned
      have tasks : s'.tasks = s.tasks := funext fun u => by rw [visits.tasks, none_, if_neg List.not_mem_nil]
      have zero : s'.runCount o = 0 := by
        rw [inv'.core.counts.count, visits.tbb, none_, tasks, ← freed.2, inv.core.counts.count]
        rfl
      have justified := inv'.held x o same not_false
      rcases freed.1 with rfl | rfl
      · exact absurd zero justified.2
      · rcases justified with ⟨_, active⟩ | ⟨stop, _⟩
        · exact absurd zero active
        · cases stop
    · exact blocked
  · intro all
    exact visits.silent fun o x freed owned => all o freed x ((inv.core.links.member o x).mpr owned)

theorem Visits.starts_iff {runTask' : EntryId → Option TaskPtr} (inv : Inv (s.exited t task runTask') none [t] X)
    (visits : Visits (Freed (s.exited t task runTask') task) [t] starts (s.exited t task runTask') mid)
    (inv' : Inv mid none [t] fun _ => False) (others : ∀ u, u ≠ t → s'.tasks u = mid.tasks u) (here : s.tasks t = some task)
    (runs : task.state = .run) :
    (∀ u, ¬ Starts s s' u) ↔ ∀ o, Freed (s.discounted task) task o → ∀ x ∈ s.deferq o, Blocked (s.discounted task) x := by
  have other {u : TaskPtr} {a : Task} (there : s.tasks u = some a) (waits : a.state = .wait) : u ≠ t := by
    rintro rfl
    cases here.symm.trans there
    cases runs.symm.trans waits
  change _ ↔ ∀ o, Freed (s.exited t task runTask') task o → ∀ x ∈ (s.exited t task runTask').deferq o,
    Blocked (s.exited t task runTask') x
  refine Iff.trans ⟨fun silent => ?_, fun none_ => ?_⟩ (visits.silent_iff inv inv')
  · refine List.eq_nil_iff_forall_not_mem.mpr fun u member => silent u ?_
    obtain ⟨a, there, waits⟩ := visits.waited member
    refine ⟨a, a.started, there, waits, ?_, rfl⟩
    rw [others u (other there waits), visits.tasks, if_pos member, there]
    rfl
  · rintro u ⟨a, b, there, waits, after, now⟩
    rw [others u (other there waits), visits.tasks, none_] at after
    cases there.symm.trans after
    cases waits.symm.trans now

theorem Exits.starts_iff (exits : Exits s t task s') (here : s.tasks t = some task) (runs : task.state = .run) :
    (∀ u, ¬ Starts s s' u) ↔ ∀ o, Freed (s.discounted task) task o → ∀ x ∈ s.deferq o, Blocked (s.discounted task) x := by
  cases exits with
  | gone inv visits inv' => exact visits.starts_iff inv inv' (fun u other => Function.update_of_ne other ..) here runs
  | recycled inv visits inv' _ _ placed =>
    obtain ⟨_, tasks, _⟩ := placed.retasked
    refine visits.starts_iff inv inv' (fun u other => ?_) here runs
    rw [tasks, Function.update_of_ne other, numbered_tasks, Function.update_of_ne other]
    exact Function.update_of_ne other ..

theorem not_starts (kept : ∀ a b, s.tasks u = some a → a.state = .wait → s'.tasks u = some b → b = a) : ¬ Starts s s' u := by
  rintro ⟨a, b, there, waits, after, now⟩
  rw [kept a b there waits after, waits] at now
  cases now

theorem not_starts_of_update {v : Option Task} (tasks : s'.tasks = update s.tasks t v)
    (still : ∀ task b, s.tasks t = some task → task.state = .wait → v = some b → b = task) (u : TaskPtr) : ¬ Starts s s' u := by
  refine not_starts fun a b there waits after => ?_
  by_cases same : u = t
  · subst same
    rw [tasks, Function.update_self] at after
    exact still a b there waits after
  · rw [tasks, Function.update_of_ne same, there] at after
    exact (Option.some.inj after).symm

theorem Call.starts_iff {event : Event} (call : Call s event s') (stopped : s.running = false) (other : event ≠ .start) :
    (∀ u, ¬ Starts s s' u) ↔ ∀ t complete, event = .exit t complete → FreesNothing s t := by
  cases call with
  | create unused id inst =>
    exact iff_of_true (not_starts_of_update rfl fun task _ here => by cases unused.symm.trans here) (by rintro _ _ ⟨⟩)
  | @enqueue t task s' here fresh placed =>
    refine iff_of_true (fun u => ?_) (by rintro _ _ ⟨⟩)
    cases placed with
    | queued tasks =>
      rw [numbered_tasks, Function.update_idem] at tasks
      refine not_starts_of_update tasks (fun task' _ there => ?_) u
      cases here.symm.trans there
      simp [fresh]
    | started _ _ _ _ _ _ _ _ _ runs =>
      rw [numbered_running, stopped] at runs
      cases runs
  | @cancel t task code s' here returned cancels =>
    refine iff_of_true (fun u => ?_) (by rintro _ _ ⟨⟩)
    cases cancels with
    | failed => exact not_starts fun a b there _ after => Option.some.inj (after.symm.trans there)
    | queued runs =>
      refine not_starts_of_update rfl (fun task' _ there => ?_) u
      cases here.symm.trans there
      simp [runs]
    | cancelled waits relinked => exact not_starts_of_update (by rw [relinked.tasks]; rfl) (by rintro _ _ _ _ ⟨⟩) u
  | @exit t task s' here runs complete exits =>
    -- The mark of `Run`'s result on the task is no change of its state.
    have marked (u : TaskPtr) : Starts (s.setTask t { task with taskRecycle := !complete }) s' u ↔ Starts s s' u := by
      by_cases same : u = t
      · subst same
        simp [Starts, setTask, here]
      · simp [Starts, setTask, same]
    have iff_ := exits.starts_iff (Function.update_self ..) runs
    simp only [marked] at iff_
    refine iff_.trans ⟨fun all => ?_, fun all => ?_⟩
    · rintro _ _ ⟨⟩ task' there
      cases here.symm.trans there
      exact all
    · exact all t complete rfl task here
  | stop =>
    refine iff_of_true (fun u => ?_) (by rintro _ _ ⟨⟩)
    exact not_starts fun a b there _ after => Option.some.inj (after.symm.trans there)
  | start => exact absurd rfl other

theorem Inv.waiting_blocked (idle : Idle s) (running : s.running = true) (here : s.tasks t = some task)
    (waits : task.state = .wait) : Blocked s task.entry := by
  have member : t ∈ s.waitq task.entry := (idle.core.tasks.waiting _ t).mpr ⟨by simp, task, here, waits, rfl⟩
  obtain ⟨o, _, justified⟩ := idle.justified (List.ne_nil_of_mem member)
  cases o with
  | group g =>
    obtain ⟨⟨id, same, rule⟩, active⟩ := justified
    exact .inl ⟨id, g, same, rule, active⟩
  | entry y =>
    rcases justified with ⟨rule, active⟩ | ⟨_, stopped⟩
    · exact .inr ⟨y, rule, active⟩
    · cases running.symm.trans stopped

/-- While the scheduler is stopped, a call starts nothing exactly if it is not an exit that frees something that waits;
and after `Start` whatever waits has a policy to wait for. -/
theorem stop_stops_iff (policies : Policies) (distinct : (policies.map Prod.fst).Nodup) :
    ∃ s₀, ({} : TaskScheduler).setPolicies policies = some s₀ ∧ ∀ s, Reachable s₀ s →
      (s.running = false → ∀ event s', Enabled s event → s.exec event = some s' → event ≠ .start →
        ((∀ u, ¬ Starts s s' u) ↔ ∀ t complete, event = .exit t complete → FreesNothing s t)) ∧
      ∀ s', s.exec .start = some s' → ∀ t task, s'.tasks t = some task → task.state = .wait → Blocked s' task.entry := by
  obtain ⟨s₀, installed, initial, _⟩ := setPolicies_idle policies distinct
  refine ⟨s₀, installed, fun s reach => ?_⟩
  obtain ⟨idle, _⟩ := reach.idle initial
  constructor
  · intro stopped event s' enabled run other
    exact (call_of_exec idle enabled run).2.2.2.starts_iff stopped other
  · intro s' run t task here waits
    obtain ⟨idle', _, _, call⟩ := @call_of_exec _ _ .start idle trivial run
    cases call with
    | start visits => exact idle'.waiting_blocked visits.grown.running here waits

/-- The second of two tasks of one instance waits; then the scheduler is stopped. -/
def stopWaiting : List Event :=
  [.create 1 0 (some 3), .create 2 0 (some 3), .enqueue 1, .enqueue 2, .stop]

/-- Without policies, the exit of a task that nothing waits for starts nothing. -/
theorem stop_stops_unlinked :
    (∃ s₀, ({} : TaskScheduler).setPolicies [] = some s₀ ∧ ∀ s, Reachable s₀ s →
      (s.running = false → ∀ event s', Enabled s event → s.exec event = some s' → event ≠ .start →
        ((∀ u, ¬ Starts s s' u) ↔ ∀ t complete, event = .exit t complete → FreesNothing s t)) ∧
      ∀ s', s.exec .start = some s' → ∀ t task, s'.tasks t = some task → task.state = .wait → Blocked s' task.entry) ∧
    ((({} : TaskScheduler).setPolicies []).bind
      ([Event.create 1 0 (some 3), .create 2 0 (some 4), .enqueue 1, .stop, .enqueue 2, .exit 1 true].foldlM exec)).map
        (fun s => (s.running, (s.tasks 2).map Task.state)) = some (false, some .wait) :=
  ⟨stop_stops_iff [] (by decide), by decide⟩

/-- The exit of the first task starts the second one, although the scheduler is stopped. -/
theorem stopWaiting_starts :
    ((({} : TaskScheduler).setPolicies []).bind (stopWaiting.foldlM exec)).map
        (fun s => (s.running, (s.tasks 2).map Task.state)) = some (false, some .wait) ∧
      ((({} : TaskScheduler).setPolicies []).bind ((stopWaiting ++ [Event.exit 1 true]).foldlM exec)).map
        (fun s => (s.running, (s.tasks 2).map Task.state)) = some (false, some .run) := by
  decide

end TFCommon.Scheduler
