import TFCommon.Scheduler.Invariant

/-! What the member functions that touch one queue do to the invariant. -/
namespace TFCommon.Scheduler
open Function (update)
open TaskScheduler

variable {s s' s'' : TaskScheduler} {hand : Option EntryId} {moving : List TaskPtr} {e x : EntryId} {t : TaskPtr} {o : Owner}

structure Grown (moving : List TaskPtr) (s s' : TaskScheduler) : Prop where
  running : s'.running = s.running
  seqno : s'.seqno = s.seqno
  policy : s'.policy = s.policy
  policyq : s'.policyq = s.policyq
  counts : ∀ o, s.runCount o ≤ s'.runCount o
  kept : ∀ t ∈ moving, s'.tasks t = s.tasks t

structure Moved (x : EntryId) (moving : List TaskPtr) (s s' : TaskScheduler) : Prop extends Grown moving s s' where
  owner : ∀ y, y ≠ x → s'.owner y = s.owner y
  head : ∀ y, y ≠ x → s'.headSeqno y = s.headSeqno y

theorem Grown.refl (moving : List TaskPtr) (s : TaskScheduler) : Grown moving s s :=
  ⟨rfl, rfl, rfl, rfl, fun _ => Int.le_refl _, fun _ _ => rfl⟩

theorem Grown.trans (first : Grown moving s s') (second : Grown moving s' s'') : Grown moving s s'' :=
  ⟨second.running.trans first.running, second.seqno.trans first.seqno, second.policy.trans first.policy,
    second.policyq.trans first.policyq, fun o => Int.le_trans (first.counts o) (second.counts o),
    fun t ht => (second.kept t ht).trans (first.kept t ht)⟩

theorem Moved.refl (x : EntryId) (moving : List TaskPtr) (s : TaskScheduler) : Moved x moving s s :=
  { Grown.refl moving s with owner := fun _ _ => rfl, head := fun _ _ => rfl }

theorem Moved.trans (first : Moved x moving s s') (second : Moved x moving s' s'') : Moved x moving s s'' :=
  { first.toGrown.trans second.toGrown with
    owner := fun y hy => (second.owner y hy).trans (first.owner y hy)
    head := fun y hy => (second.head y hy).trans (first.head y hy) }

theorem headSeqno_congr (heads : (s'.waitq x).head? = (s.waitq x).head?)
    (numbers : ∀ t ∈ s.waitq x, (s'.tasks t).map (·.seqno) = (s.tasks t).map (·.seqno)) :
    s'.headSeqno x = s.headSeqno x := by
  cases queue : s.waitq x with
  | nil =>
    rw [queue, List.head?_nil, List.head?_eq_none_iff] at heads
    simp [headSeqno, heads, queue]
  | cons t rest =>
    have same := numbers t (by simp [queue])
    rw [queue, List.head?_cons, List.head?_eq_some_iff] at heads
    obtain ⟨rest', queue'⟩ := heads
    cases here : s.tasks t with
    | none =>
      rw [here, Option.map_none, Option.map_eq_none_iff] at same
      simp [headSeqno, queue', queue, here, same]
    | some task =>
      rw [here, Option.map_some, Option.map_eq_some_iff] at same
      obtain ⟨task', here', number⟩ := same
      simp [headSeqno, queue', queue, here, here', number]

theorem headSeqno_some {task : Task} {rest : List TaskPtr} (queue : s.waitq e = t :: rest) (here : s.tasks t = some task) :
    s.headSeqno e = WithBot.some task.seqno := by
  simp [headSeqno, queue, here]

theorem Core.head (core : Core s hand moving) (waits : s.waitq e ≠ []) : ∃ t rest task, s.waitq e = t :: rest ∧
    s.tasks t = some task ∧ task.entry = e ∧ s.headSeqno e = WithBot.some task.seqno ∧ task.seqno ≠ 0 := by
  obtain ⟨t, rest, queue⟩ := List.exists_cons_of_ne_nil waits
  obtain ⟨_, task, here, _, entry, given, _⟩ := core.tasks.in_waitq (queue ▸ (by simp) : t ∈ s.waitq e)
  exact ⟨t, rest, task, queue, here, entry, headSeqno_some queue here, given⟩

theorem Core.head_inj (core : Core s hand moving) (waits : s.waitq e ≠ []) (also : s.waitq x ≠ [])
    (same : s.headSeqno e = s.headSeqno x) : e = x := by
  obtain ⟨t, _, a, _, ht, entryT, keyE, given⟩ := core.head waits
  obtain ⟨u, _, b, _, hu, entryU, keyX, _⟩ := core.head also
  rw [keyE, keyX, WithBot.coe_inj] at same
  have equal := core.tasks.distinct t u a b ht hu same given
  subst equal
  rw [ht] at hu
  cases hu
  exact entryT.symm.trans entryU

structure Relinked (s : TaskScheduler) (e : EntryId) (v : Option Owner) (s' : TaskScheduler) : Prop where
  fields : s' = { s with
    deferq := s'.deferq, deferNode := s'.deferNode, deferqTaskGroup := s'.deferqTaskGroup
    deferqTaskEntry := s'.deferqTaskEntry }
  owner : ∀ y, s'.owner y = if y = e then v else s.owner y

theorem Relinked.trans {v w : Option Owner} (first : Relinked s e v s') (second : Relinked s' e w s'') : Relinked s e w s'' where
  fields := by
    rw [second.fields, first.fields]
  owner y := by
    rw [second.owner, first.owner]
    split <;> rfl

variable {v : Option Owner}

theorem Relinked.waitq (relinked : Relinked s e v s') : s'.waitq = s.waitq := (congrArg TaskScheduler.waitq relinked.fields :)

theorem Relinked.tasks (relinked : Relinked s e v s') : s'.tasks = s.tasks := (congrArg TaskScheduler.tasks relinked.fields :)

theorem Relinked.runCount (relinked : Relinked s e v s') : s'.runCount = s.runCount := (congrArg TaskScheduler.runCount relinked.fields :)

theorem Relinked.moved (relinked : Relinked s e v s') : Moved e moving s s' where
  running := (congrArg TaskScheduler.running relinked.fields :)
  seqno := (congrArg TaskScheduler.seqno relinked.fields :)
  policy := (congrArg TaskScheduler.policy relinked.fields :)
  policyq := (congrArg TaskScheduler.policyq relinked.fields :)
  counts o := by rw [relinked.runCount]
  owner y other := by rw [relinked.owner, if_neg other]
  head y _ := headSeqno_congr (by rw [relinked.waitq]) (by simp [relinked.tasks])
  kept t _ := by rw [relinked.tasks]

theorem Core.relink (core : Core s hand moving) {hand' : Option EntryId} {deferq : Owner → List EntryId}
    {deferNode : EntryId → Bool} {group : EntryId → Option TaskId} {entry : EntryId → Option EntryId}
    (links : LinksOK s.headSeqno s.waitq group entry deferNode deferq hand') :
    Core { s with deferq, deferNode, deferqTaskGroup := group, deferqTaskEntry := entry } hand' moving :=
  { core with links := links }

theorem addToDeferQ_spec (core : Core s (some e) moving) (waits : s.waitq e ≠ []) (o : Owner) :
    ∃ s', s.addToDeferQ o e = some s' ∧ Core s' none moving ∧ Relinked s e (some o) s' := by
  have free := core.links.free e rfl
  obtain ⟨noGroup, noEntry⟩ := ownerOf_none (core.links.single e) free
  have node : s.deferNode e = false := by rw [core.links.node, free]; rfl
  have apart : ∀ y ∈ s.deferq o, s.headSeqno y ≠ s.headSeqno e := by
    intro y hy same
    have owned := (core.links.member o y).mp hy
    have other : y ≠ e := by
      rintro rfl
      rw [free] at owned
      cases owned
    have also := (core.links.linked y fun h => other (Option.some.inj h).symm).mpr (by rw [owned]; simp)
    exact other (core.head_inj also waits same)
  refine ⟨_, by rw [addToDeferQ, if_pos ⟨node, by cases o <;> simp [backPointer, noGroup, noEntry]⟩], ?_, by cases o <;> rfl,
    fun y => ?_⟩
  · cases o with
    | group g =>
      exact core.relink (core.links.link waits apart (fun y hy => ⟨Function.update_of_ne hy .., rfl⟩) (.inr noEntry)
        (by simp [noEntry, ownerOf]))
    | entry z =>
      exact core.relink (core.links.link waits apart (fun y hy => ⟨rfl, Function.update_of_ne hy ..⟩) (.inl noGroup)
        (by simp [noGroup, ownerOf]))
  · by_cases same : y = e <;> cases o <;> simp [TaskScheduler.owner, setBackPointer, same, noGroup, noEntry, ownerOf]

theorem ownerOf_group {g : Option TaskId} {x : Option EntryId} {id : TaskId} (h : ownerOf g x = some (.group id)) :
    g = some id ∧ x = none := by
  cases g <;> cases x <;> simp_all [ownerOf]

theorem ownerOf_entry {g : Option TaskId} {x : Option EntryId} {y : EntryId} (h : ownerOf g x = some (.entry y)) :
    g = none ∧ x = some y := by
  cases g <;> cases x <;> simp_all [ownerOf]

theorem deleteFromDeferQ_spec (core : Core s none moving) (owned : s.owner e = some o) :
    ∃ s', s.deleteFromDeferQ o e = some s' ∧ Core s' (some e) moving ∧ Relinked s e none s' := by
  have member := (core.links.member o e).mpr owned
  cases o with
  | group g =>
    obtain ⟨isGroup, noEntry⟩ := ownerOf_group owned
    refine ⟨_, by rw [deleteFromDeferQ, if_pos ⟨by simp [backPointer, isGroup], member⟩], ?_, rfl, fun y => ?_⟩
    · exact core.relink (core.links.unlink owned (fun y hy => ⟨Function.update_of_ne hy .., rfl⟩)
        ⟨Function.update_self .., noEntry⟩)
    · by_cases same : y = e <;> simp [TaskScheduler.owner, clearBackPointer, same, noEntry, ownerOf]
  | entry z =>
    obtain ⟨noGroup, isEntry⟩ := ownerOf_entry owned
    refine ⟨_, by rw [deleteFromDeferQ, if_pos ⟨by simp [backPointer, isEntry], member⟩], ?_, rfl, fun y => ?_⟩
    · exact core.relink (core.links.unlink owned (fun y hy => ⟨rfl, Function.update_of_ne hy ..⟩)
        ⟨noGroup, Function.update_self ..⟩)
    · by_cases same : y = e <;> simp [TaskScheduler.owner, clearBackPointer, same, noGroup, ownerOf]

section
variable {task : Task}

def TaskScheduler.dequeued (s : TaskScheduler) (e : EntryId) (t : TaskPtr) : TaskScheduler :=
  { s with waitq := update s.waitq e ((s.waitq e).erase t) }

theorem Relinked.dequeued (relinked : Relinked s e v s') (t : TaskPtr) :
    Relinked (s.dequeued e t) e v (s'.dequeued e t) where
  fields := (congrArg (TaskScheduler.dequeued · e t) relinked.fields :)
  owner y := relinked.owner y

theorem head_dequeued (safe : x ≠ e ∨ (s.waitq e).head? ≠ some t) : (s.dequeued e t).headSeqno x = s.headSeqno x := by
  refine headSeqno_congr ?_ (by simp [dequeued])
  by_cases same : x = e
  · subst same
    cases queue : s.waitq x with
    | nil => simp [dequeued, queue]
    | cons u rest =>
      have other : u ≠ t := by simpa [queue] using safe
      simp [dequeued, queue, other]
  · simp [dequeued, same]

theorem deleteFromWaitQ_spec (core : Core s hand moving) (h : t ∈ s.waitq e)
    (safe : hand = some e ∨ (s.waitq e).head? ≠ some t) :
    s.deleteFromWaitQ e t = some (s.dequeued e t) ∧ Core (s.dequeued e t) hand (t :: moving) := by
  refine ⟨by rw [deleteFromWaitQ, if_pos h]; rfl, core.tasks.pop h, core.counts, ?_, ?_, core.enabled⟩
  · refine core.links.congr (fun x owned => ?_) fun x away => ?_
    · apply head_dequeued
      refine safe.imp (fun here same => ?_) id
      rw [same, core.links.free e here] at owned
      exact owned rfl
    · by_cases same : x = e
      · subst same
        have behind := safe.resolve_left away
        cases queue : s.waitq x with
        | nil => simp [queue] at h
        | cons u rest =>
          have other : u ≠ t := by simpa [queue] using behind
          simp [dequeued, queue, other]
      · simp [dequeued, same]
  · intro u other there still
    exact core.known u other there fun h => still (List.mem_cons_of_mem _ h)

theorem moved_dequeued : Moved e moving s (s.dequeued e t) where
  running := rfl
  seqno := rfl
  policy := rfl
  policyq := rfl
  counts _ := Int.le_refl _
  owner _ _ := rfl
  head _ other := head_dequeued (.inl other)
  kept _ _ := rfl

theorem belongs_update {tasks : TaskPtr → Option Task} (here : tasks t = some task) (task' : Task)
    (id : task'.taskId = task.taskId) (inst : task'.taskInstance = task.taskInstance) (o : Owner) (u : TaskPtr) :
    belongs (update tasks t (some task')) o u = belongs tasks o u := by
  by_cases same : u = t
  · subst same
    rw [Bool.eq_iff_iff, belongs_iff (Function.update_self ..), belongs_iff here, Task.entry, Task.entry, id, inst]
  · simp only [belongs, Function.update_of_ne same]

def TaskScheduler.queued (s : TaskScheduler) (t : TaskPtr) (task : Task) : TaskScheduler :=
  { s.setTask t { task with state := .wait } with waitq := update s.waitq task.entry (s.waitq task.entry ++ [t]) }

theorem KnownOK.update {moving' : List TaskPtr} {task' : Task} (known : KnownOK s moving)
    (tasks : s'.tasks = Function.update s.tasks t (some task')) (db : s'.queryTaskEntry = s.queryTaskEntry)
    (mine : t ∉ moving' → task'.state ≠ .init → s.queryTaskEntry task'.taskId task'.taskInstance = true)
    (others : ∀ u, u ≠ t → u ∉ moving' → u ∉ moving) : KnownOK s' moving' := by
  intro u a there away state
  rw [db]
  by_cases same : u = t
  · subst same
    rw [tasks, Function.update_self] at there
    cases there
    exact mine away state
  · rw [tasks, Function.update_of_ne same] at there
    exact known u a there (others u same away) state

theorem head_queued (here : s.tasks t = some task) (safe : x ≠ task.entry ∨ s.waitq x ≠ []) :
    (s.queued t task).headSeqno x = s.headSeqno x := by
  have numbers : ∀ u, ((s.queued t task).tasks u).map (·.seqno) = (s.tasks u).map (·.seqno) := by
    intro u
    by_cases same : u = t
    · subst same
      simp [queued, setTask, here]
    · simp [queued, setTask, same]
  refine headSeqno_congr ?_ fun u _ => numbers u
  by_cases same : x = task.entry
  · obtain ⟨u, rest, queue⟩ := List.exists_cons_of_ne_nil (safe.resolve_left (fun other => other same))
    rw [same] at queue ⊢
    simp [queued, queue]
  · simp [queued, same]

theorem addToWaitQ_spec (core : Core s hand (t :: moving)) (still : t ∉ moving) (here : s.tasks t = some task)
    (newest : task.seqno = s.seqno) (given : task.seqno ≠ 0) (idle : task.taskImpl = false)
    (known : s.queryTaskEntry task.taskId task.taskInstance = true)
    (safe : hand = some task.entry ∨ s.waitq task.entry ≠ []) :
    s.addToWaitQ task.entry t = some (s.queued t task) ∧ Core (s.queued t task) hand moving := by
  have absent : t ∉ s.waitq task.entry := fun h => (core.tasks.in_waitq h).1 (by simp)
  refine ⟨by simp [addToWaitQ, here, absent, queued], ?_, ?_, ?_,
    core.known.update rfl rfl (fun _ _ => known) (by simp +contextual), core.enabled⟩
  · have renewed := core.tasks.renew here { task with state := .wait } rfl
    exact renewed.toWait still { task with state := .wait } (Function.update_self ..) rfl newest given idle
  · exact core.counts.congr fun u _ o => belongs_update here { task with state := .wait } rfl rfl o u
  · refine core.links.congr (fun x owned => head_queued here ?_) fun x away => ?_
    · by_cases same : x = task.entry
      · refine safe.imp (fun inHand => ?_) fun waits => same ▸ waits
        rw [same, core.links.free _ inHand] at owned
        exact absurd rfl owned
      · exact .inl same
    · by_cases same : x = task.entry
      · subst same
        simp [queued, safe.resolve_left away]
      · simp [queued, same]

structure Launched (s : TaskScheduler) (t : TaskPtr) (task : Task) (s' : TaskScheduler) : Prop where
  fields : s' = { s with tasks := s'.tasks, runTask := s'.runTask, runCount := s'.runCount, tbb := s'.tbb }
  tasks : s'.tasks = update s.tasks t (some { task with state := .run, taskImpl := true })
  tbb : s'.tbb = t :: s.tbb
  counts : ∀ o, s'.runCount o = s.runCount o + if o = .group task.taskId ∨ o = .entry task.entry then 1 else 0

section
variable (launched : Launched s t task s')
include launched

theorem Launched.waitq : s'.waitq = s.waitq := (congrArg TaskScheduler.waitq launched.fields :)

theorem Launched.owner : s'.owner = s.owner := by
  have group := congrArg TaskScheduler.deferqTaskGroup launched.fields
  have entry := congrArg TaskScheduler.deferqTaskEntry launched.fields
  funext y
  rw [TaskScheduler.owner, group, entry]
  rfl

theorem Launched.head (here : s.tasks t = some task) (x : EntryId) : s'.headSeqno x = s.headSeqno x := by
  refine headSeqno_congr (by rw [launched.waitq]) fun u _ => ?_
  rw [launched.tasks]
  by_cases same : u = t
  · subst same
    simp [here]
  · rw [Function.update_of_ne same]

theorem Launched.moved (still : t ∉ moving) (here : s.tasks t = some task) : Moved e moving s s' where
  running := (congrArg TaskScheduler.running launched.fields :)
  seqno := (congrArg TaskScheduler.seqno launched.fields :)
  policy := (congrArg TaskScheduler.policy launched.fields :)
  policyq := (congrArg TaskScheduler.policyq launched.fields :)
  counts o := by
    rw [launched.counts]
    split <;> omega
  owner y _ := by rw [launched.owner]
  head y _ := launched.head here y
  kept u hu := by
    rw [launched.tasks, Function.update_of_ne]
    rintro rfl
    exact still hu

end

theorem addRunCount_both (s : TaskScheduler) (e : EntryId) (id : TaskId) (d : Int) (o : Owner) :
    ((s.addRunCount (.entry e) d).addRunCount (.group id) d).runCount o =
      s.runCount o + if o = .group id ∨ o = .entry e then d else 0 := by
  by_cases group : o = .group id
  · subst group
    simp [addRunCount]
  · by_cases entry : o = .entry e
    · subst entry
      simp [addRunCount]
    · simp [addRunCount, group, entry]

theorem CountsOK.idle {tasks : TaskPtr → Option Task} {tbb : List TaskPtr} {runCount : Owner → Int}
    {runTask : EntryId → Option TaskPtr} (ok : CountsOK tasks tbb runCount runTask) {id n : Nat}
    (zero : runCount (.entry (.task id (some n))) = 0) : runTask (.task id (some n)) = none := by
  by_contra some_
  obtain ⟨t, running⟩ := Option.ne_none_iff_exists'.mp some_
  obtain ⟨member, inside⟩ := (ok.only id n t).mp running
  have positive : 0 < tbb.countP (belongs tasks (.entry (.task id (some n)))) := List.countP_pos_iff.mpr ⟨t, member, inside⟩
  rw [ok.count] at zero
  omega

theorem setRunTask_spec (counts : CountsOK s.tasks s.tbb s.runCount s.runTask) (t : TaskPtr) (task : Task)
    (alone : task.taskInstance ≠ none → s.runCount (.entry task.entry) = 0) :
    ∃ runTask' : EntryId → Option TaskPtr,
      s.setRunTask task.entry t task.taskInstance = some { s with runTask := runTask' } ∧
      (∀ e, e ≠ task.entry → runTask' e = s.runTask e) ∧
      (task.taskInstance ≠ none → s.runTask task.entry = none ∧ runTask' task.entry = some t) := by
  cases inst : task.taskInstance with
  | none => exact ⟨s.runTask, by simp [setRunTask], fun _ _ => rfl, by simp⟩
  | some n =>
    have zero := alone (by simp [inst])
    have free : s.runTask task.entry = none := by
      simp only [Task.entry, inst] at zero ⊢
      exact counts.idle zero
    exact ⟨update s.runTask task.entry (some t), by simp [setRunTask, free, zero],
      fun e he => Function.update_of_ne he .., fun _ => ⟨free, Function.update_self ..⟩⟩

def TaskScheduler.launched (s : TaskScheduler) (t : TaskPtr) (task : Task) (runTask' : EntryId → Option TaskPtr) :
    TaskScheduler :=
  let s := ({ s with runTask := runTask' }.addRunCount (.entry task.entry) 1).addRunCount (.group task.taskId) 1
  { s.setTask t { task with state := .run, taskImpl := true } with tbb := t :: s.tbb }

theorem launched_eq (s : TaskScheduler) (t : TaskPtr) (task : Task) (runTask' : EntryId → Option TaskPtr) :
    s.launched t task runTask' = { s with
      runTask := runTask'
      runCount := (s.launched t task runTask').runCount
      tasks := update s.tasks t (some { task with state := .run, taskImpl := true })
      tbb := t :: s.tbb } :=
  rfl

theorem launched_launched (s : TaskScheduler) (t : TaskPtr) (task : Task) (runTask' : EntryId → Option TaskPtr) :
    Launched s t task (s.launched t task runTask') :=
  ⟨rfl, rfl, rfl, addRunCount_both { s with runTask := runTask' } task.entry task.taskId 1⟩

def Task.started (task : Task) : Task := { task with state := .run, taskImpl := true }

def TaskScheduler.ledger (s : TaskScheduler) : (Nat × Nat × Nat) × List TaskId × List (TaskId × Nat) :=
  ((s.enqueueCount, s.doneCount, s.cancelCount), s.groupDb, s.entryDb)

def EntryId.counts (x : EntryId) : Owner → Prop
  | .group g => x.taskId = some g
  | .entry y => y = x

instance (x : EntryId) (o : Owner) : Decidable (x.counts o) := by
  cases o <;> unfold EntryId.counts <;> infer_instance

theorem EntryId.counts_self (x : EntryId) : x.counts (.entry x) := rfl

structure Ran (x : EntryId) (news : List TaskPtr) (s s' : TaskScheduler) : Prop where
  tbb : s'.tbb = news.reverse ++ s.tbb
  waitq : s.waitq x = news ++ s'.waitq x
  others : ∀ y, y ≠ x → s'.waitq y = s.waitq y
  tasks : ∀ t, s'.tasks t = if t ∈ news then (s.tasks t).map Task.started else s.tasks t
  counts : ∀ o, s'.runCount o = s.runCount o + if x.counts o then (news.length : Int) else 0
  ledger : s'.ledger = s.ledger

theorem Ran.refl (x : EntryId) (s : TaskScheduler) : Ran x [] s s :=
  ⟨rfl, rfl, fun _ _ => rfl, fun _ => by simp, fun _ => by simp, rfl⟩

theorem Ran.trans {news news' : List TaskPtr} (first : Ran x news s s') (second : Ran x news' s' s'') :
    Ran x (news ++ news') s s'' where
  tbb := by rw [second.tbb, first.tbb, List.reverse_append, List.append_assoc]
  waitq := by rw [first.waitq, second.waitq, List.append_assoc]
  others y other := (second.others y other).trans (first.others y other)
  tasks t := by
    rw [second.tasks, first.tasks]
    by_cases after : t ∈ news'
    · rw [if_pos after, if_pos (List.mem_append_right news after)]
      split
      · rw [Option.map_map]
        rfl
      · rfl
    · simp [after]
  counts o := by
    rw [second.counts, first.counts]
    split
    · rw [List.length_append]
      omega
    · omega
  ledger := second.ledger.trans first.ledger

theorem Relinked.ran (relinked : Relinked s e v s') (x : EntryId) : Ran x [] s s' where
  tbb := (congrArg TaskScheduler.tbb relinked.fields :)
  waitq := by rw [relinked.waitq, List.nil_append]
  others y _ := by rw [relinked.waitq]
  tasks t := by rw [relinked.tasks, if_neg List.not_mem_nil]
  counts o := by simp [relinked.runCount]
  ledger := (congrArg TaskScheduler.ledger relinked.fields :)

theorem Launched.ran {rest : List TaskPtr} (launched : Launched (s.dequeued task.entry t) t task s')
    (queue : s.waitq task.entry = t :: rest) (here : s.tasks t = some task) : Ran task.entry [t] s s' where
  tbb := launched.tbb
  waitq := by
    rw [launched.waitq]
    simp [dequeued, queue]
  others y other := by
    rw [launched.waitq]
    exact Function.update_of_ne other ..
  tasks u := by
    rw [launched.tasks]
    by_cases same : u = t
    · subst same
      simp [here, Task.started]
    · rw [Function.update_of_ne same, if_neg (by simpa using same)]
      rfl
  counts o := by
    rw [launched.counts]
    cases o with
    | group g => simp [EntryId.counts, Task.entry, EntryId.taskId, eq_comm, dequeued]
    | entry y => simp [EntryId.counts, dequeued]
  ledger := (congrArg TaskScheduler.ledger launched.fields :)

theorem query_group {id : TaskId} {inst : Instance} (known : s.queryTaskEntry id inst = true) :
    s.queryTaskGroup id = true := by
  cases inst with
  | none => exact known
  | some n =>
    rw [queryTaskEntry, Bool.and_eq_true] at known
    exact known.1

theorem runTaskOf_spec (core : Core s hand (t :: moving)) (still : t ∉ moving) (here : s.tasks t = some task)
    (given : task.seqno ≠ 0) (idle : task.taskImpl = false)
    (known : s.queryTaskEntry task.taskId task.taskInstance = true)
    (alone : task.taskInstance ≠ none → s.runCount (.entry task.entry) = 0) :
    ∃ s', s.runTaskOf task.entry t = some s' ∧ Core s' hand moving ∧ Launched s t task s' := by
  have absent : t ∉ s.tbb := fun h => ((core.tasks.started t).mp h).1 (by simp)
  obtain ⟨runTask', set, other, own⟩ := setRunTask_spec core.counts t task alone
  have launched := launched_launched s t task runTask'
  refine ⟨s.launched t task runTask', ?_, ?_, launched⟩
  · simp only [runTaskOf, here, Option.bind_eq_bind, Option.bind_some, set]
    rw [if_pos (by exact query_group known)]
    simp only [startTask, addRunCount, here, Option.bind_eq_bind, Option.bind_some, idle]
    rfl
  have counts := launched.counts
  rw [launched_eq] at launched ⊢
  refine ⟨?_, ?_, ?_, core.known.update launched.tasks rfl (fun _ _ => known) (by simp +contextual), core.enabled⟩
  · have renewed := core.tasks.renew here { task with state := .run, taskImpl := true } rfl
    exact renewed.toRun still _ (Function.update_self ..) rfl given rfl
  · have counted : CountsOK (update s.tasks t (some { task with state := .run, taskImpl := true })) _ _ _ :=
      (core.counts.start absent here other own).congr fun u _ o =>
        belongs_update here { task with state := .run, taskImpl := true } rfl rfl o u
    exact ⟨fun o => (counts o).trans (counted.count o), counted.only⟩
  · exact core.links.congr (fun x _ => launched.head here x) fun _ _ => Iff.rfl

end

end TFCommon.Scheduler
