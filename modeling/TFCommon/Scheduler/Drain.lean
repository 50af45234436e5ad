import TFCommon.Scheduler.Queues

/-! Deferred entries wait for something that runs, linked entries and groups never run together, and
the loops that take entries out of a deferq restore both. -/
namespace TFCommon.Scheduler
open Function (update)
open TaskScheduler

variable {s s' : TaskScheduler} {hand : Option EntryId} {moving : List TaskPtr} {e x : EntryId} {t : TaskPtr} {o : Owner}
  {X : EntryId → Prop}

def Justified (s : TaskScheduler) (e : EntryId) : Owner → Prop
  | .group g => (∃ id, e.taskId = some id ∧ g ∈ s.policy id) ∧ s.runCount (.group g) ≠ 0
  | .entry x => x ∈ s.policyq e ∧ s.runCount (.entry x) ≠ 0 ∨ x = .stop ∧ s.running = false

structure Policed (policy : TaskId → List TaskId) (policyq : EntryId → List EntryId) : Prop where
  groups : ∀ g h, h ∈ policy g → g ∈ policy h
  entries : ∀ e x, x ∈ policyq e → e ∈ policyq x
  self : ∀ id n, EntryId.task id (some n) ∈ policyq (.task id (some n))

structure Excl (s : TaskScheduler) : Prop where
  groups : ∀ g h, h ∈ s.policy g → g ≠ h → s.runCount (.group g) = 0 ∨ s.runCount (.group h) = 0
  entries : ∀ e x, x ∈ s.policyq e → e ≠ x → s.runCount (.entry e) = 0 ∨ s.runCount (.entry x) = 0

structure Quiet (s : TaskScheduler) (id : TaskId) (e : EntryId) : Prop where
  groups : ∀ g ∈ s.policy id, g ≠ id → s.runCount (.group g) = 0
  entries : ∀ x ∈ s.policyq e, x ≠ e → s.runCount (.entry x) = 0

structure Inv (s : TaskScheduler) (hand : Option EntryId) (moving : List TaskPtr) (X : EntryId → Prop) : Prop where
  core : Core s hand moving
  held : ∀ e o, s.owner e = some o → ¬ X e → Justified s e o
  excl : Excl s
  policed : Policed s.policy s.policyq

theorem Inv.weaken {X' : EntryId → Prop} (inv : Inv s hand moving X) (more : ∀ y o, s.owner y = some o → X y → X' y) :
    Inv s hand moving X' :=
  { inv with held := fun y o owned away => inv.held y o owned fun h => away (more y o owned h) }

theorem Core.nonneg (core : Core s hand moving) (o : Owner) : 0 ≤ s.runCount o := by
  rw [core.counts.count]
  exact Int.natCast_nonneg _

theorem Justified.keep (justified : Justified s e o) (policy : s'.policy = s.policy) (policyq : s'.policyq = s.policyq)
    (running : s'.running = s.running) (active : s.runCount o ≠ 0 → s'.runCount o ≠ 0) : Justified s' e o := by
  cases o with
  | group g =>
    obtain ⟨⟨id, same, rule⟩, active_⟩ := justified
    exact ⟨⟨id, same, by rw [policy]; exact rule⟩, active active_⟩
  | entry y =>
    rcases justified with ⟨rule, active_⟩ | ⟨stop, stopped⟩
    · exact .inl ⟨by rw [policyq]; exact rule, active active_⟩
    · exact .inr ⟨stop, by rw [running]; exact stopped⟩

theorem Justified.grow (justified : Justified s e o) (nonneg : ∀ o, 0 ≤ s.runCount o) (grown : Grown moving s s') :
    Justified s' e o := by
  refine justified.keep grown.policy grown.policyq grown.running fun active => ?_
  have positive := nonneg o
  have more := grown.counts o
  omega

theorem held_moved (core : Core s hand moving) (held : ∀ e o, s.owner e = some o → ¬ X e → Justified s e o)
    (moved : Moved x moving s s') (own : ∀ o, s'.owner x = some o → Justified s' x o) :
    ∀ e o, s'.owner e = some o → ¬ (X e ∧ e ≠ x) → Justified s' e o := by
  intro y o owned away
  by_cases same : y = x
  · subst same
    exact own o owned
  · rw [moved.owner y same] at owned
    exact (held y o owned fun h => away ⟨h, same⟩).grow core.nonneg moved.toGrown

theorem Excl.shrink (excl : Excl s) (policy : s'.policy = s.policy) (policyq : s'.policyq = s.policyq)
    (fewer : ∀ o, s'.runCount o ≤ s.runCount o) (nonneg : ∀ o, 0 ≤ s'.runCount o) : Excl s' := by
  have zero : ∀ o, s.runCount o = 0 → s'.runCount o = 0 := fun o none_ => by
    have upper := fewer o
    have lower := nonneg o
    omega
  constructor
  · rw [policy]
    exact fun g h rule other => (excl.groups g h rule other).imp (zero _) (zero _)
  · rw [policyq]
    exact fun e x rule other => (excl.entries e x rule other).imp (zero _) (zero _)

theorem Excl.same (excl : Excl s) (policy : s'.policy = s.policy) (policyq : s'.policyq = s.policyq)
    (counts : s'.runCount = s.runCount) : Excl s' := by
  constructor
  · rw [policy, counts]
    exact excl.groups
  · rw [policyq, counts]
    exact excl.entries

theorem Inv.carry {hand' : Option EntryId} {moving' : List TaskPtr} (inv : Inv s hand moving X)
    (core : Core s' hand' moving') (owner : s'.owner = s.owner) (policy : s'.policy = s.policy)
    (policyq : s'.policyq = s.policyq) (running : s'.running = s.running) (counts : s'.runCount = s.runCount) :
    Inv s' hand' moving' X := by
  refine ⟨core, fun y o owned away => ?_, inv.excl.same policy policyq counts, ?_⟩
  · rw [owner] at owned
    exact (inv.held y o owned away).keep policy policyq running (by simp [counts])
  · rw [policy, policyq]
    exact inv.policed

theorem Inv.relink {hand hand' : Option EntryId} {v : Option Owner} (inv : Inv s hand moving X) (core : Core s' hand' moving)
    (relinked : Relinked s x v s') (justified : ∀ o, v = some o → Justified s x o) :
    Inv s' hand' moving fun y => X y ∧ y ≠ x := by
  have moved : Moved x moving s s' := relinked.moved
  refine ⟨core, ?_, inv.excl.same moved.policy moved.policyq relinked.runCount, ?_⟩
  · refine held_moved inv.core inv.held moved fun o owned => ?_
    rw [relinked.owner, if_pos rfl] at owned
    exact (justified o owned).grow inv.core.nonneg moved.toGrown
  · rw [moved.policy, moved.policyq]
    exact inv.policed

theorem Inv.defer (inv : Inv s (some x) moving X) (waits : s.waitq x ≠ []) (justified : Justified s x o) :
    ∃ s', s.addToDeferQ o x = some s' ∧ Inv s' none moving (fun y => X y ∧ y ≠ x) ∧ Moved x moving s s' ∧
      Relinked s x (some o) s' := by
  obtain ⟨s', run, core, relinked⟩ := addToDeferQ_spec inv.core waits o
  refine ⟨s', run, inv.relink core relinked ?_, relinked.moved, relinked⟩
  rintro _ ⟨⟩
  exact justified

variable {task : Task} {id : TaskId}

theorem Launched.quiet (launched : Launched s t task s') (moved : Moved x moving s s')
    (quiet : Quiet s task.taskId task.entry) : Quiet s' task.taskId task.entry := by
  constructor
  · rw [moved.policy]
    intro g rule other
    rw [launched.counts, quiet.groups g rule other, if_neg (by simp [other])]
    rfl
  · rw [moved.policyq]
    intro y rule other
    rw [launched.counts, quiet.entries y rule other, if_neg (by simp [other])]
    rfl

theorem excl_of_quiet {α : Type} {R : α → α → Prop} {c c' : α → Int} {a : α} (symm : ∀ g h, R g h → R h g)
    (quiet : ∀ h, R a h → h ≠ a → c' h = 0) (same : ∀ g, g ≠ a → c' g = c g)
    (excl : ∀ g h, R g h → g ≠ h → c g = 0 ∨ c h = 0) (g h : α) (rule : R g h) (other : g ≠ h) : c' g = 0 ∨ c' h = 0 := by
  by_cases left : g = a
  · subst left
    exact .inr (quiet h rule other.symm)
  · by_cases right : h = a
    · subst right
      exact .inl (quiet g (symm g h rule) other)
    · rw [same g left, same h right]
      exact excl g h rule other

theorem Launched.excl (launched : Launched s t task s') (moved : Moved x moving s s')
    (quiet : Quiet s task.taskId task.entry) (policed : Policed s.policy s.policyq) (excl : Excl s) : Excl s' := by
  obtain ⟨groups, entries⟩ := launched.quiet moved quiet
  rw [moved.policy] at groups
  rw [moved.policyq] at entries
  constructor
  · rw [moved.policy]
    refine excl_of_quiet policed.groups groups (fun g left => ?_) excl.groups
    rw [launched.counts, if_neg (by simp [left]), Int.add_zero]
  · rw [moved.policyq]
    refine excl_of_quiet policed.entries entries (fun y left => ?_) excl.entries
    rw [launched.counts, if_neg (by simp [left]), Int.add_zero]

theorem Inv.launch (inv : Inv s hand (t :: moving) X) (still : t ∉ moving) (here : s.tasks t = some task)
    (given : task.seqno ≠ 0) (idle : task.taskImpl = false)
    (known : s.queryTaskEntry task.taskId task.taskInstance = true) (quiet : Quiet s task.taskId task.entry)
    (alone : task.taskInstance ≠ none → s.runCount (.entry task.entry) = 0) :
    ∃ s', s.runTaskOf task.entry t = some s' ∧ Inv s' hand moving X ∧ Launched s t task s' ∧
      Quiet s' task.taskId task.entry := by
  obtain ⟨s', run, core, launched⟩ := runTaskOf_spec inv.core still here given idle known alone
  have moved : Moved task.entry moving s s' := launched.moved still here
  refine ⟨s', run, ⟨core, ?_, launched.excl moved quiet inv.policed inv.excl, ?_⟩, launched, launched.quiet moved quiet⟩
  · intro y o owned away
    rw [launched.owner] at owned
    exact (inv.held y o owned away).grow inv.core.nonneg moved.toGrown
  · rw [moved.policy, moved.policyq]
    exact inv.policed

theorem Inv.dequeue {rest : List TaskPtr} (inv : Inv s (some x) moving X) (queue : s.waitq x = t :: rest) :
    s.deleteFromWaitQ x t = some (s.dequeued x t) ∧ Inv (s.dequeued x t) (some x) (t :: moving) X ∧
      (s.dequeued x t).waitq x = rest := by
  obtain ⟨run, core⟩ := deleteFromWaitQ_spec inv.core (queue ▸ (by simp) : t ∈ s.waitq x) (.inl rfl)
  exact ⟨run, inv.carry core rfl rfl rfl rfl rfl, by simp [dequeued, queue]⟩

theorem Inv.runFirst {rest : List TaskPtr} {inst : Instance} (inv : Inv s (some (.task id inst)) moving X)
    (queue : s.waitq (.task id inst) = t :: rest) (quiet : Quiet s id (.task id inst))
    (alone : inst ≠ none → s.runCount (.entry (.task id inst)) = 0) :
    ∃ s', (s.deleteFromWaitQ (.task id inst) t).bind (·.runTaskOf (.task id inst) t) = some s' ∧
      Inv s' (some (.task id inst)) moving X ∧ Moved (.task id inst) moving s s' ∧ Ran (.task id inst) [t] s s' ∧
      Quiet s' id (.task id inst) := by
  obtain ⟨run, out, _⟩ := inv.dequeue queue
  have member : t ∈ s.waitq (.task id inst) := by simp [queue]
  obtain ⟨still, task, here, state, entry, given, idle⟩ := inv.core.tasks.in_waitq member
  obtain ⟨rfl, rfl⟩ : task.taskId = id ∧ task.taskInstance = inst := by
    rw [Task.entry, EntryId.task.injEq] at entry
    exact entry
  have known := inv.core.known t task here still (by simp [state])
  have quiet' : Quiet (s.dequeued task.entry t) task.taskId task.entry := ⟨quiet.groups, quiet.entries⟩
  obtain ⟨s', launch, inv', launched, quietAfter⟩ := out.launch still here given idle known quiet' alone
  refine ⟨s', ?_, inv', moved_dequeued.trans (launched.moved still here), launched.ran queue here, quietAfter⟩
  rw [run]
  exact launch

theorem Inv.release (inv : Inv s (some x) moving X) (empty : s.waitq x = []) :
    Inv s none moving (fun y => X y ∧ y ≠ x) := by
  refine ⟨{ inv.core with links := inv.core.links.release empty }, ?_, inv.excl, inv.policed⟩
  intro y o owned away
  by_cases same : y = x
  · subst same
    have free : s.owner y = none := inv.core.links.free y rfl
    rw [free] at owned
    cases owned
  · exact inv.held y o owned fun h => away ⟨h, same⟩

theorem runAll_spec (inv : Inv s (some (.task id none)) moving X) (quiet : Quiet s id (.task id none))
    (turns : Nat) (enough : (s.waitq (.task id none)).length < turns) :
    ∃ s', loop (runAllTurn (.task id none)) turns s = some s' ∧ Inv s' (some (.task id none)) moving X ∧
      Moved (.task id none) moving s s' ∧ Ran (.task id none) (s.waitq (.task id none)) s s' := by
  refine loop_total (fun n u => Inv u (some (.task id none)) moving X ∧ Quiet u id (.task id none) ∧
      Moved (.task id none) moving s u ∧ (∃ news, Ran (.task id none) news s u) ∧ n = (u.waitq (.task id none)).length)
    _ ?_ _ turns s ⟨inv, quiet, .refl .., ⟨[], .refl ..⟩, rfl⟩ enough
  rintro n u ⟨inv, quiet, moved, ⟨news, ran⟩, rfl⟩
  cases queue : u.waitq (.task id none) with
  | nil =>
    have all : s.waitq (.task id none) = news := by rw [ran.waitq, queue, List.append_nil]
    exact .inl ⟨u, by simp [runAllTurn, queue], inv, moved, all ▸ ran⟩
  | cons t rest =>
    obtain ⟨u', run, inv', step, first, quiet'⟩ := inv.runFirst queue quiet (by simp)
    have left : u'.waitq (.task id none) = rest := (List.cons.inj (queue.symm.trans first.waitq)).2.symm
    refine .inr ⟨u', rest.length, ?_, by simp, inv', quiet', moved.trans step, ⟨news ++ [t], ran.trans first⟩, by rw [left]⟩
    simp only [runAllTurn, queue]
    obtain ⟨mid, first, second⟩ := Option.bind_eq_some_iff.mp run
    simp [first, second]

theorem runWaitQ_spec {inst : Instance} (inv : Inv s (some (.task id inst)) moving X)
    (waits : s.waitq (.task id inst) ≠ []) (groups : ∀ g ∈ s.policy id, s.runCount (.group g) = 0)
    (entries : ∀ y ∈ s.policyq (.task id inst), s.runCount (.entry y) = 0) :
    ∃ s' news, s.runWaitQ (.task id inst) = some s' ∧ Inv s' none moving (fun y => X y ∧ y ≠ .task id inst) ∧
      Moved (.task id inst) moving s s' ∧ Ran (.task id inst) news s s' ∧ news ≠ [] ∧
      (inst = none → news = s.waitq (.task id inst)) ∧ (inst ≠ none → news.length = 1) := by
  have quiet : Quiet s id (.task id inst) := ⟨fun g hg _ => groups g hg, fun y hy _ => entries y hy⟩
  obtain ⟨t, rest, queue⟩ := List.exists_cons_of_ne_nil waits
  simp only [runWaitQ, queue]
  cases inst with
  | none =>
    obtain ⟨s', run, inv', moved, ran⟩ := runAll_spec inv quiet (rest.length + 2) (by simp [queue])
    have empty : s'.waitq (.task id none) = [] := List.append_right_eq_self.mp ran.waitq.symm
    exact ⟨s', _, by simpa [EntryId.taskInstance] using run, inv'.release empty, moved, ran, waits, fun _ => queue, by simp⟩
  | some n =>
    have self := inv.policed.self id n
    obtain ⟨s₁, run, inv₁, moved, ran, _⟩ := inv.runFirst queue quiet fun _ => entries _ self
    obtain ⟨mid, first, second⟩ := Option.bind_eq_some_iff.mp run
    simp only [EntryId.taskInstance, reduceCtorEq, if_false, Option.bind_eq_bind, first, second, Option.bind_some]
    by_cases more : (s₁.waitq (.task id (some n))).length = 0
    · rw [if_neg (by simpa using more)]
      exact ⟨s₁, [t], rfl, inv₁.release (List.length_eq_zero_iff.mp more), moved, ran, by simp, by simp, by simp⟩
    · rw [if_pos (by simpa using more)]
      have justified : Justified s₁ (.task id (some n)) (.entry (.task id (some n))) := by
        refine .inl ⟨by rw [moved.policyq]; exact self, ?_⟩
        rw [ran.counts, if_pos (EntryId.counts_self _), entries _ self]
        simp
      obtain ⟨s₂, link, inv₂, moved₂, relinked⟩ := inv₁.defer (fun h => more (by simp [h])) justified
      exact ⟨s₂, [t], link, inv₂, moved.trans moved₂, ran.trans (relinked.ran _), by simp, by simp, by simp⟩

theorem deferOn_none (s : TaskScheduler) (e : EntryId) (t : TaskPtr) : s.deferOn none e t = some (false, s) := rfl

theorem deferOn_some (waits : s.waitq e ≠ []) (link : s.addToDeferQ o e = some s') :
    s.deferOn (some o) e t = some (true, s') := by
  simp [deferOn, waits, link]

def Blocked (s : TaskScheduler) (x : EntryId) : Prop :=
  (∃ id g, x.taskId = some id ∧ g ∈ s.policy id ∧ s.runCount (.group g) ≠ 0) ∨ ∃ y ∈ s.policyq x, s.runCount (.entry y) ≠ 0

theorem activeGroup_spec {id g : TaskId} (group : s.activeGroupInPolicy id = some g) :
    g ∈ s.policy id ∧ s.runCount (.group g) ≠ 0 :=
  ⟨List.mem_of_find?_eq_some group, by simpa using List.find?_some group⟩

theorem activeEntry_spec {y : EntryId} (entry : s.activeEntryInPolicy x = some y) :
    y ∈ s.policyq x ∧ s.runCount (.entry y) ≠ 0 :=
  ⟨List.mem_of_find?_eq_some entry, by simpa using List.find?_some entry⟩

theorem unblocked (group : s.activeGroupInPolicy task.taskId = none) (entry : s.activeEntryInPolicy task.entry = none) :
    (∀ g ∈ s.policy task.taskId, s.runCount (.group g) = 0) ∧ (∀ y ∈ s.policyq task.entry, s.runCount (.entry y) = 0) ∧
      ¬ Blocked s task.entry := by
  have groups : ∀ g ∈ s.policy task.taskId, s.runCount (.group g) = 0 := fun g hg => by
    simpa using List.find?_eq_none.mp group g hg
  have entries : ∀ y ∈ s.policyq task.entry, s.runCount (.entry y) = 0 := fun y hy => by
    simpa using List.find?_eq_none.mp entry y hy
  refine ⟨groups, entries, ?_⟩
  rintro (⟨id, g, same, rule, active⟩ | ⟨y, rule, active⟩)
  · cases same
    exact active (groups g rule)
  · exact active (entries y rule)

/-- The entry was looked at: it goes on waiting behind something that runs, or its first task is started, or all
tasks of an entry without instance. -/
structure Visited (x : EntryId) (news : List TaskPtr) (s s' : TaskScheduler) : Prop extends Ran x news s s' where
  blocked : news = [] ↔ Blocked s x
  waits : news = [] → ∃ o, s'.owner x = some o ∧ s.runCount o ≠ 0
  all : x.taskInstance = none → news ≠ [] → news = s.waitq x
  one : x.taskInstance ≠ none → news.length ≤ 1

theorem Relinked.visited (relinked : Relinked s x (some o) s') (blocked : Blocked s x) (active : s.runCount o ≠ 0) :
    Visited x [] s s' where
  toRan := relinked.ran x
  blocked := by simp [blocked]
  waits _ := ⟨o, by rw [relinked.owner, if_pos rfl], active⟩
  all _ some_ := absurd rfl some_
  one _ := Nat.zero_le _

/-- `RunDeferEntry` of the entry in hand: it waits for something that runs, or its tasks are started. -/
theorem runDeferEntry_spec (inv : Inv s (some x) moving X) (waits : s.waitq x ≠ []) :
    ∃ s' news, s.runDeferEntry x = some s' ∧ Inv s' none moving (fun y => X y ∧ y ≠ x) ∧ Moved x moving s s' ∧
      Visited x news s s' := by
  obtain ⟨t, rest, task, queue, here, rfl, _, _⟩ := inv.core.head waits
  obtain ⟨still, task', here', state, _⟩ := inv.core.tasks.in_waitq (queue ▸ (by simp) : t ∈ s.waitq task.entry)
  rw [here] at here'
  cases here'
  have known := query_group (inv.core.known t task here still (by simp [state]))
  have created : s.getTaskGroup task.taskId = s := by
    rw [getTaskGroup, if_pos (by simpa [queryTaskGroup] using known)]
  have taskId : task.entry.taskId = some task.taskId := rfl
  simp only [runDeferEntry, taskId, created, queue, List.head?_cons, Option.bind_eq_bind, Option.bind_some,
    groupDeferOnPolicyFail]
  cases group : s.activeGroupInPolicy task.taskId with
  | some g =>
    obtain ⟨inside, active⟩ := activeGroup_spec group
    obtain ⟨s', link, inv', moved, relinked⟩ := inv.defer waits (o := .group g) ⟨⟨task.taskId, rfl, inside⟩, active⟩
    have blocked : Blocked s task.entry := .inl ⟨task.taskId, g, rfl, inside, active⟩
    exact ⟨s', [], by simp [deferOn_some waits link], inv', moved, relinked.visited blocked active⟩
  | none =>
    simp only [Option.map_none, deferOn_none, Option.bind_some, deferOnPolicyFail]
    cases entry : s.activeEntryInPolicy task.entry with
    | some y =>
      have linked := activeEntry_spec entry
      obtain ⟨s', link, inv', moved, relinked⟩ := inv.defer waits (o := .entry y) (.inl linked)
      exact ⟨s', [], by simp [deferOn_some waits link], inv', moved, relinked.visited (.inr ⟨y, linked⟩) linked.2⟩
    | none =>
      obtain ⟨groups, entries, free⟩ := unblocked group entry
      obtain ⟨s', news, run, inv', moved, ran, some_, all, one⟩ := runWaitQ_spec inv waits groups entries
      exact ⟨s', news, run, inv', moved, ran, by simp [some_, free], fun none_ => absurd none_ some_, fun inst _ => all inst,
        fun inst => (one inst).le⟩

theorem Core.waits (core : Core s none moving) (owned : s.owner x = some o) : s.waitq x ≠ [] := by
  have linked : s.waitq x ≠ [] ↔ s.owner x ≠ none := core.links.linked x (by simp)
  exact linked.mpr (by simp [owned])

theorem Inv.unlink (inv : Inv s none moving X) (owned : s.owner x = some o) :
    ∃ s', s.deleteFromDeferQ o x = some s' ∧ Inv s' (some x) moving (fun y => X y ∧ y ≠ x) ∧ Moved x moving s s' ∧
      Relinked s x none s' := by
  obtain ⟨s', unlink, core, relinked⟩ := deleteFromDeferQ_spec inv.core owned
  exact ⟨s', unlink, inv.relink core relinked nofun, relinked.moved, relinked⟩

theorem Relinked.blocked {v : Option Owner} (relinked : Relinked s x v s') : Blocked s' e ↔ Blocked s e := by
  have moved : Moved x [] s s' := relinked.moved
  rw [Blocked, Blocked, moved.policy, moved.policyq, relinked.runCount]

theorem visit_spec (inv : Inv s none moving X) (owned : s.owner x = some o) :
    ∃ s' news, s.visit o x = some s' ∧ Inv s' none moving (fun y => X y ∧ y ≠ x) ∧ Moved x moving s s' ∧
      Visited x news s s' := by
  obtain ⟨s₁, unlink, inv₁, moved, relinked⟩ := inv.unlink owned
  have waits : s₁.waitq x ≠ [] := by
    rw [relinked.waitq]
    exact inv.core.waits owned
  obtain ⟨s₂, news, run, inv₂, moved₂, visited⟩ := runDeferEntry_spec inv₁ waits
  refine ⟨s₂, news, by simp [visit, unlink, run], inv₂.weaken fun y _ _ h => h.1, moved.trans moved₂, ?_⟩
  refine ⟨(relinked.ran x).trans visited.toRan, visited.blocked.trans relinked.blocked, ?_, ?_, visited.one⟩
  · rw [← relinked.runCount]
    exact visited.waits
  · rw [← relinked.waitq]
    exact visited.all

end TFCommon.Scheduler
