import TFCommon.Scheduler.Model
import Mathlib.Data.List.Count

/-! The scheduler's invariant, in three parts over the fields they are about: where each task is, the
run counts, and the links between entries and deferqs. Inside a member function an entry may be taken
out of its deferq (`hand`) and tasks may be between two queues (`moving`). -/
namespace TFCommon.Scheduler
open Function (update)

def ownerOf : Option TaskId → Option EntryId → Option Owner
  | some g, none => some (.group g)
  | none, some x => some (.entry x)
  | _, _ => none

def TaskScheduler.owner (s : TaskScheduler) (e : EntryId) : Option Owner :=
  ownerOf (s.deferqTaskGroup e) (s.deferqTaskEntry e)

def belongs (tasks : TaskPtr → Option Task) (o : Owner) (t : TaskPtr) : Bool :=
  (tasks t).any fun task => decide (o = .group task.taskId ∨ o = .entry task.entry)

variable {t : TaskPtr} {task : Task}

theorem belongs_iff {tasks : TaskPtr → Option Task} (here : tasks t = some task) (o : Owner) :
    belongs tasks o t = true ↔ o = .group task.taskId ∨ o = .entry task.entry := by
  simp [belongs, here]

structure TasksOK (tasks : TaskPtr → Option Task) (waitq : EntryId → List TaskPtr) (tbb : List TaskPtr) (seqno : Nat)
    (moving : List TaskPtr) : Prop where
  waiting : ∀ e t, t ∈ waitq e ↔ t ∉ moving ∧ ∃ task, tasks t = some task ∧ task.state = .wait ∧ task.entry = e
  started : ∀ t, t ∈ tbb ↔ t ∉ moving ∧ ∃ task, tasks t = some task ∧ task.state = .run
  once : tbb.Nodup
  settled : ∀ t task, tasks t = some task → t ∉ moving →
    (task.taskImpl = true ↔ task.state = .run) ∧ (task.seqno = 0 ↔ task.state = .init)
  young : ∀ t task, tasks t = some task → task.seqno ≤ seqno
  distinct : ∀ t u a b, tasks t = some a → tasks u = some b → a.seqno = b.seqno → a.seqno ≠ 0 → t = u
  fifo : ∀ e, (waitq e).Pairwise fun t u => ∀ a b, tasks t = some a → tasks u = some b → a.seqno < b.seqno

structure CountsOK (tasks : TaskPtr → Option Task) (tbb : List TaskPtr) (runCount : Owner → Int)
    (runTask : EntryId → Option TaskPtr) : Prop where
  count : ∀ o, runCount o = (tbb.countP (belongs tasks o) : Nat)
  only : ∀ id n t, runTask (.task id (some n)) = some t ↔
    t ∈ tbb ∧ belongs tasks (.entry (.task id (some n))) t = true

structure LinksOK (key : EntryId → WithBot Nat) (waitq : EntryId → List TaskPtr) (group : EntryId → Option TaskId)
    (entry : EntryId → Option EntryId) (node : EntryId → Bool) (deferq : Owner → List EntryId) (hand : Option EntryId) :
    Prop where
  single : ∀ e, group e = none ∨ entry e = none
  node : ∀ e, node e = (ownerOf (group e) (entry e)).isSome
  member : ∀ o e, e ∈ deferq o ↔ ownerOf (group e) (entry e) = some o
  sorted : ∀ o, KeyedList.Sorted key (deferq o)
  linked : ∀ e, hand ≠ some e → (waitq e ≠ [] ↔ ownerOf (group e) (entry e) ≠ none)
  free : ∀ e, hand = some e → ownerOf (group e) (entry e) = none

def KnownOK (s : TaskScheduler) (moving : List TaskPtr) : Prop :=
  ∀ t task, s.tasks t = some task → t ∉ moving → task.state ≠ .init →
    s.queryTaskEntry task.taskId task.taskInstance = true

structure Core (s : TaskScheduler) (hand : Option EntryId) (moving : List TaskPtr) : Prop where
  tasks : TasksOK s.tasks s.waitq s.tbb s.seqno moving
  counts : CountsOK s.tasks s.tbb s.runCount s.runTask
  links : LinksOK s.headSeqno s.waitq s.deferqTaskGroup s.deferqTaskEntry s.deferNode s.deferq hand
  known : KnownOK s moving
  enabled : (∀ g, s.groupDisable g = false) ∧ ∀ e, s.disable e = false

section
variable {tasks : TaskPtr → Option Task} {waitq : EntryId → List TaskPtr} {tbb moving : List TaskPtr} {seqno : Nat}
  {t : TaskPtr}

theorem moving_cons {u : TaskPtr} {P : Prop} (absent : u = t → ¬ P) : u ∉ moving ∧ P ↔ u ∉ t :: moving ∧ P := by
  rw [List.mem_cons, not_or, and_assoc]
  exact ⟨fun ⟨still, holds⟩ => ⟨fun same => absent same holds, still, holds⟩, And.right⟩

section
variable (ok : TasksOK tasks waitq tbb seqno moving)
include ok

theorem TasksOK.in_waitq {e : EntryId} (h : t ∈ waitq e) :
    t ∉ moving ∧ ∃ task, tasks t = some task ∧ task.state = .wait ∧ task.entry = e ∧ task.seqno ≠ 0 ∧
      task.taskImpl = false := by
  obtain ⟨still, task, here, state, entry⟩ := (ok.waiting e t).mp h
  obtain ⟨impl, zero⟩ := ok.settled t task here still
  refine ⟨still, task, here, state, entry, fun none_ => ?_, ?_⟩
  · rw [zero.mp none_] at state
    cases state
  · cases started : task.taskImpl with
    | false => rfl
    | true =>
      rw [impl.mp started] at state
      cases state

theorem TasksOK.nodup (e : EntryId) : (waitq e).Nodup := by
  refine (ok.fifo e).imp_of_mem fun {t u} ht _ less same => ?_
  obtain ⟨_, task, here, _⟩ := ok.in_waitq ht
  exact Nat.lt_irrefl _ (less task task here (same ▸ here))

theorem TasksOK.pop {e : EntryId} (h : t ∈ waitq e) :
    TasksOK tasks (update waitq e ((waitq e).erase t)) tbb seqno (t :: moving) where
  __ := ok
  waiting x u := by
    obtain ⟨_, task, here, _, entry, _⟩ := ok.in_waitq h
    rw [List.mem_cons, not_or, and_assoc, ← ok.waiting]
    by_cases same : x = e
    · subst same
      rw [Function.update_self, (ok.nodup x).mem_erase_iff]
    · rw [Function.update_of_ne same]
      refine ⟨fun hu => ⟨fun equal => same ?_, hu⟩, fun hu => hu.2⟩
      obtain ⟨_, other, there, _, place, _⟩ := ok.in_waitq hu
      rw [equal, here] at there
      cases there
      exact place.symm.trans entry
  started u := by
    obtain ⟨_, task, here, state, _⟩ := ok.in_waitq h
    refine (ok.started u).trans (moving_cons ?_)
    rintro rfl ⟨_, there, running⟩
    cases here.symm.trans there
    simp [state] at running
  settled u task there still := ok.settled u task there fun hu => still (List.mem_cons_of_mem _ hu)
  fifo x := by
    by_cases same : x = e
    · subst same
      rw [Function.update_self]
      exact (ok.fifo x).sublist List.erase_sublist
    · rw [Function.update_of_ne same]
      exact ok.fifo x

theorem TasksOK.exit (h : t ∈ tbb) : TasksOK tasks waitq (tbb.erase t) seqno (t :: moving) where
  __ := ok
  waiting e u := by
    obtain ⟨_, task, here, state⟩ := (ok.started t).mp h
    refine (ok.waiting e u).trans (moving_cons ?_)
    rintro rfl ⟨_, there, waits⟩
    cases here.symm.trans there
    simp [state] at waits
  started u := by rw [ok.once.mem_erase_iff, ok.started, List.mem_cons, not_or, and_assoc]
  once := ok.once.erase t
  settled u task there still := ok.settled u task there fun hu => still (List.mem_cons_of_mem _ hu)

theorem TasksOK.take
    (idle : ∀ task, tasks t = some task → task.state = .init) : TasksOK tasks waitq tbb seqno (t :: moving) where
  __ := ok
  waiting e u := (ok.waiting e u).trans (moving_cons (by rintro rfl ⟨task, there, waits⟩; simp [idle task there] at waits))
  started u := (ok.started u).trans (moving_cons (by rintro rfl ⟨task, there, runs⟩; simp [idle task there] at runs))
  settled u task there still := ok.settled u task there fun hu => still (List.mem_cons_of_mem _ hu)

end

section
variable (ok : TasksOK tasks waitq tbb seqno (t :: moving))
include ok

theorem TasksOK.replace (v : Option Task) {seqno' : Nat}
    (later : seqno ≤ seqno') (bound : ∀ task, v = some task → task.seqno ≤ seqno')
    (unused : ∀ task, v = some task → task.seqno ≠ 0 → ∀ u b, u ≠ t → tasks u = some b → b.seqno ≠ task.seqno) :
    TasksOK (update tasks t v) waitq tbb seqno' (t :: moving) where
  waiting e u := by
    by_cases same : u = t
    · subst same
      simpa using fun h => (ok.in_waitq h).1 (by simp)
    · rw [Function.update_of_ne same]
      exact ok.waiting e u
  started u := by
    by_cases same : u = t
    · subst same
      simpa using fun h => ((ok.started u).mp h).1 (by simp)
    · rw [Function.update_of_ne same]
      exact ok.started u
  once := ok.once
  settled u task there still := by
    have other : u ≠ t := fun same => still (by simp [same])
    rw [Function.update_of_ne other] at there
    exact ok.settled u task there still
  young u task there := by
    by_cases same : u = t
    · subst same
      rw [Function.update_self] at there
      exact bound task there
    · rw [Function.update_of_ne same] at there
      exact Nat.le_trans (ok.young u task there) later
  distinct u w a b hu hw same given := by
    by_cases left : u = t <;> by_cases right : w = t
    · exact left.trans right.symm
    · subst left
      rw [Function.update_self] at hu
      rw [Function.update_of_ne right] at hw
      exact absurd same.symm (unused a hu given w b right hw)
    · subst right
      rw [Function.update_self] at hw
      rw [Function.update_of_ne left] at hu
      exact absurd same (unused b hw (same ▸ given) u a left hu)
    · rw [Function.update_of_ne left] at hu
      rw [Function.update_of_ne right] at hw
      exact ok.distinct u w a b hu hw same given
  fifo e := by
    have away : ∀ u ∈ waitq e, u ≠ t := fun u hu same => (ok.in_waitq hu).1 (by simp [same])
    refine (ok.fifo e).imp_of_mem fun {u w} hu hw less => ?_
    rw [Function.update_of_ne (away u hu), Function.update_of_ne (away w hw)]
    exact less

theorem TasksOK.renew {task : Task} (here : tasks t = some task) (task' : Task) (number : task'.seqno = task.seqno) :
    TasksOK (update tasks t (some task')) waitq tbb seqno (t :: moving) := by
  refine ok.replace (some task') (Nat.le_refl _) ?_ ?_
  · rintro _ ⟨⟩
    exact number ▸ ok.young t task here
  · rintro _ ⟨⟩ nonzero u b other there same
    rw [number] at nonzero same
    exact other (ok.distinct u t b task there here same (same ▸ nonzero))

theorem TasksOK.settle {waitq' : EntryId → List TaskPtr} {tbb' : List TaskPtr} (still : t ∉ moving)
    (here : ∀ task, tasks t = some task → (task.taskImpl = true ↔ task.state = .run) ∧ (task.seqno = 0 ↔ task.state = .init))
    (waits : ∀ e u, u ∈ waitq' e ↔ u ∈ waitq e ∨ u = t ∧ ∃ task, tasks t = some task ∧ task.state = .wait ∧ task.entry = e)
    (runs : ∀ u, u ∈ tbb' ↔ u ∈ tbb ∨ u = t ∧ ∃ task, tasks t = some task ∧ task.state = .run)
    (once : tbb'.Nodup)
    (fifo : ∀ e, (waitq' e).Pairwise fun t u => ∀ a b, tasks t = some a → tasks u = some b → a.seqno < b.seqno) :
    TasksOK tasks waitq' tbb' seqno moving where
  __ := ok
  waiting e u := by
    rw [waits, ok.waiting]
    by_cases same : u = t
    · simp [same, still]
    · simp [same]
  started u := by
    rw [runs, ok.started]
    by_cases same : u = t
    · simp [same, still]
    · simp [same]
  once := once
  settled u task there free := by
    by_cases same : u = t
    · subst same
      exact here task there
    · exact ok.settled u task there (by simp [same, free])
  fifo := fifo

theorem TasksOK.toWait (still : t ∉ moving) (task : Task)
    (here : tasks t = some task) (state : task.state = .wait) (newest : task.seqno = seqno) (given : task.seqno ≠ 0)
    (idle : task.taskImpl = false) :
    TasksOK tasks (update waitq task.entry (waitq task.entry ++ [t])) tbb seqno moving := by
  refine ok.settle still ?_ ?_ ?_ ok.once ?_
  · intro other there
    rw [here] at there
    cases there
    simp [state, idle, given]
  · intro e u
    by_cases place : e = task.entry
    · subst place
      simp [here, state]
    · rw [Function.update_of_ne place]
      simp [here, Ne.symm place]
  · simp [here, state]
  · intro e
    by_cases place : e = task.entry
    · subst place
      rw [Function.update_self, List.pairwise_append]
      refine ⟨ok.fifo _, by simp, fun u hu w hw a b ha hb => ?_⟩
      rw [List.mem_singleton] at hw
      subst hw
      rw [here] at hb
      cases hb
      have older := ok.young u a ha
      have other : a.seqno ≠ task.seqno := fun same =>
        (ok.in_waitq hu).1 (by simp [ok.distinct u w a task ha here same (same ▸ given)])
      omega
    · rw [Function.update_of_ne place]
      exact ok.fifo e

theorem TasksOK.toRun (still : t ∉ moving) (task : Task)
    (here : tasks t = some task) (state : task.state = .run) (given : task.seqno ≠ 0) (impl : task.taskImpl = true) :
    TasksOK tasks waitq (t :: tbb) seqno moving := by
  refine ok.settle still ?_ (by simp [here, state]) ?_ ?_ ok.fifo
  · intro other there
    rw [here] at there
    cases there
    simp [state, impl, given]
  · simp [here, state, or_comm]
  · exact List.nodup_cons.mpr ⟨fun h => ((ok.started t).mp h).1 (by simp), ok.once⟩

theorem TasksOK.toRest (still : t ∉ moving)
    (rest : ∀ task, tasks t = some task → task.state = .init ∧ task.seqno = 0 ∧ task.taskImpl = false) :
    TasksOK tasks waitq tbb seqno moving := by
  refine ok.settle still ?_ ?_ ?_ ok.once ok.fifo
  · intro task there
    obtain ⟨state, zero, impl⟩ := rest task there
    simp [state, zero, impl]
  · intro e u
    refine (or_iff_left ?_).symm
    rintro ⟨_, task, there, state, _⟩
    simp [(rest task there).1] at state
  · intro u
    refine (or_iff_left ?_).symm
    rintro ⟨_, task, there, state⟩
    simp [(rest task there).1] at state

end

theorem TasksOK.mark (ok : TasksOK tasks waitq tbb seqno moving) {task task' : Task} (here : tasks t = some task)
    (state : task'.state = task.state) (number : task'.seqno = task.seqno) (impl : task'.taskImpl = task.taskImpl)
    (entry : task'.entry = task.entry) : TasksOK (update tasks t (some task')) waitq tbb seqno moving := by
  have find : ∀ u a, update tasks t (some task') u = some a →
      ∃ b, tasks u = some b ∧ a.state = b.state ∧ a.seqno = b.seqno ∧ a.taskImpl = b.taskImpl := by
    intro u a hu
    by_cases same : u = t
    · subst same
      rw [Function.update_self] at hu
      cases hu
      exact ⟨task, here, state, number, impl⟩
    · rw [Function.update_of_ne same] at hu
      exact ⟨a, hu, rfl, rfl, rfl⟩
  constructor
  · intro e u
    rw [ok.waiting]
    by_cases same : u = t
    · simp [same, here, state, entry]
    · simp [same]
  · intro u
    rw [ok.started]
    by_cases same : u = t
    · simp [same, here, state]
    · simp [same]
  · exact ok.once
  · intro u a hu still
    obtain ⟨b, hb, bs, bn, bi⟩ := find u a hu
    rw [bs, bn, bi]
    exact ok.settled u b hb still
  · intro u a hu
    obtain ⟨b, hb, _, bn, _⟩ := find u a hu
    rw [bn]
    exact ok.young u b hb
  · intro u w a b hu hw
    obtain ⟨a', ha, _, an, _⟩ := find u a hu
    obtain ⟨b', hb, _, bn, _⟩ := find w b hw
    rw [an, bn]
    exact ok.distinct u w a' b' ha hb
  · intro e
    refine (ok.fifo e).imp fun {u w} less a b hu hw => ?_
    obtain ⟨a', ha, _, an, _⟩ := find u a hu
    obtain ⟨b', hb, _, bn, _⟩ := find w b hw
    rw [an, bn]
    exact less a' b' ha hb

variable {runCount : Owner → Int} {runTask : EntryId → Option TaskPtr}

theorem instance_of_entry {id n : Nat} (place : EntryId.task id (some n) = task.entry) :
    task.taskInstance ≠ none := by
  rw [Task.entry, EntryId.task.injEq] at place
  simp [← place.2]

theorem CountsOK.congr {tasks' : TaskPtr → Option Task} (ok : CountsOK tasks tbb runCount runTask)
    (same : ∀ t ∈ tbb, ∀ o, belongs tasks' o t = belongs tasks o t) : CountsOK tasks' tbb runCount runTask where
  count o := by
    have equal : tbb.countP (belongs tasks' o) = tbb.countP (belongs tasks o) :=
      List.countP_congr fun t ht => by rw [same t ht]
    rw [ok.count, equal]
  only id n t := by
    rw [ok.only]
    exact and_congr_right fun ht => by rw [same t ht]

theorem belongs_entry (here : tasks t = some task) (e : EntryId) : belongs tasks (.entry e) t = true ↔ e = task.entry := by
  simp [belongs, here]

theorem countP_belongs (here : tasks t = some task) (o : Owner) : (t :: tbb).countP (belongs tasks o) =
    tbb.countP (belongs tasks o) + if o = .group task.taskId ∨ o = .entry task.entry then 1 else 0 := by
  rw [List.countP_cons]
  simp only [belongs_iff here o]

theorem CountsOK.start (ok : CountsOK tasks tbb runCount runTask) (new : t ∉ tbb) (here : tasks t = some task)
    {runTask' : EntryId → Option TaskPtr} (other : ∀ e, e ≠ task.entry → runTask' e = runTask e)
    (alone : task.taskInstance ≠ none → runTask task.entry = none ∧ runTask' task.entry = some t) :
    CountsOK tasks (t :: tbb) (fun o => runCount o + if o = .group task.taskId ∨ o = .entry task.entry then 1 else 0)
      runTask' where
  count o := by
    rw [countP_belongs here, ok.count]
    split <;> rfl
  only id n u := by
    have inside := belongs_entry here (.task id (some n))
    by_cases place : EntryId.task id (some n) = task.entry
    · have instance_ := instance_of_entry place
      obtain ⟨before_, now⟩ := alone instance_
      rw [place, now]
      constructor
      · intro same
        cases same
        exact ⟨by simp, place ▸ inside.mpr place⟩
      · rintro ⟨member, belongs_⟩
        rcases List.mem_cons.mp member with rfl | old
        · rfl
        · have impossible := (ok.only id n u).mpr ⟨old, by rw [place]; exact belongs_⟩
          rw [place, before_] at impossible
          cases impossible
    · rw [other _ place, ok.only]
      refine and_congr_left fun belongs_ => ⟨List.mem_cons_of_mem t, fun member => ?_⟩
      rcases List.mem_cons.mp member with rfl | old
      · exact absurd (inside.mp belongs_) place
      · exact old

theorem CountsOK.exit (ok : CountsOK tasks tbb runCount runTask) (once : tbb.Nodup) (running : t ∈ tbb)
    (here : tasks t = some task) {runTask' : EntryId → Option TaskPtr}
    (other : ∀ e, e ≠ task.entry → runTask' e = runTask e)
    (alone : task.taskInstance ≠ none → runTask' task.entry = none) :
    CountsOK tasks (tbb.erase t) (fun o => runCount o + if o = .group task.taskId ∨ o = .entry task.entry then -1 else 0)
      runTask' where
  count o := by
    rw [ok.count, (List.perm_cons_erase running).countP_eq, countP_belongs here]
    split <;> omega
  only id n u := by
    have inside := belongs_entry here (.task id (some n))
    by_cases place : EntryId.task id (some n) = task.entry
    · have instance_ := instance_of_entry place
      have self := (ok.only id n t).mpr ⟨running, inside.mpr place⟩
      rw [place, alone instance_, once.mem_erase_iff]
      constructor
      · intro impossible
        cases impossible
      rintro ⟨⟨differ, old⟩, belongs_⟩
      have same := (ok.only id n u).mpr ⟨old, by rw [place]; exact belongs_⟩
      rw [self] at same
      exact absurd (Option.some.inj same).symm differ
    · rw [other _ place, ok.only, once.mem_erase_iff]
      refine and_congr_left fun belongs_ => ⟨fun old => ⟨?_, old⟩, And.right⟩
      rintro rfl
      exact place (inside.mp belongs_)

end

section
variable {key key' : EntryId → WithBot Nat} {waitq waitq' : EntryId → List TaskPtr} {group : EntryId → Option TaskId}
  {entry : EntryId → Option EntryId} {node : EntryId → Bool} {deferq : Owner → List EntryId} {hand : Option EntryId}
  {e : EntryId}

theorem LinksOK.congr (ok : LinksOK key waitq group entry node deferq hand)
    (keys : ∀ e, ownerOf (group e) (entry e) ≠ none → key' e = key e)
    (waits : ∀ e, hand ≠ some e → (waitq' e ≠ [] ↔ waitq e ≠ [])) : LinksOK key' waitq' group entry node deferq hand where
  __ := ok
  sorted o := (ok.sorted o).congr fun e he => keys e (by rw [(ok.member o e).mp he]; simp)
  linked e away := (waits e away).trans (ok.linked e away)

theorem LinksOK.hold (ok : LinksOK key waitq group entry node deferq none) (empty : waitq e = []) :
    LinksOK key waitq group entry node deferq (some e) where
  __ := ok
  linked x _ := ok.linked x (by simp)
  free x here := by
    cases here
    by_contra owned
    exact (ok.linked e (by simp)).mpr owned empty

theorem LinksOK.release (ok : LinksOK key waitq group entry node deferq (some e)) (empty : waitq e = []) :
    LinksOK key waitq group entry node deferq none where
  __ := ok
  linked x _ := by
    by_cases same : x = e
    · subst same
      simp [empty, ok.free x rfl]
    · exact ok.linked x (fun h => same (Option.some.inj h).symm)
  free x here := by cases here

theorem ownerOf_none {g : Option TaskId} {x : Option EntryId} (single : g = none ∨ x = none) (none_ : ownerOf g x = none) :
    g = none ∧ x = none := by
  cases g <;> cases x <;> simp_all [ownerOf]

theorem LinksOK.link (ok : LinksOK key waitq group entry node deferq (some e)) {o : Owner} {group' : EntryId → Option TaskId}
    {entry' : EntryId → Option EntryId} (waits : waitq e ≠ []) (apart : ∀ x ∈ deferq o, key x ≠ key e)
    (others : ∀ x, x ≠ e → group' x = group x ∧ entry' x = entry x) (single : group' e = none ∨ entry' e = none)
    (owner : ownerOf (group' e) (entry' e) = some o) :
    LinksOK key waitq group' entry' (update node e true) (update deferq o (KeyedList.insert key e (deferq o))) none where
  single x := by
    by_cases same : x = e
    · exact same ▸ single
    · rw [(others x same).1, (others x same).2]
      exact ok.single x
  node x := by
    by_cases same : x = e
    · subst same
      simp [owner]
    · rw [Function.update_of_ne same, (others x same).1, (others x same).2]
      exact ok.node x
  member o' x := by
    have inserted : x ∈ update deferq o (KeyedList.insert key e (deferq o)) o' ↔ x ∈ deferq o' ∨ o' = o ∧ x = e := by
      by_cases place : o' = o
      · subst place
        rw [Function.update_self, KeyedList.mem_insert apart]
        simp [or_comm]
      · simp [place]
    rw [inserted, ok.member]
    by_cases same : x = e
    · subst same
      simp [owner, ok.free x rfl, eq_comm]
    · simp [same, (others x same).1, (others x same).2]
  sorted := (Function.forall_update_iff deferq fun _ => KeyedList.Sorted key).mpr
    ⟨KeyedList.insert_sorted (ok.sorted o) apart, fun o' _ => ok.sorted o'⟩
  linked x _ := by
    by_cases same : x = e
    · subst same
      simp [owner, waits]
    · rw [(others x same).1, (others x same).2]
      exact ok.linked x (fun h => same (Option.some.inj h).symm)
  free x here := by cases here

theorem LinksOK.unlink (ok : LinksOK key waitq group entry node deferq none) {o : Owner} {group' : EntryId → Option TaskId}
    {entry' : EntryId → Option EntryId} (owner : ownerOf (group e) (entry e) = some o)
    (others : ∀ x, x ≠ e → group' x = group x ∧ entry' x = entry x) (cleared : group' e = none ∧ entry' e = none) :
    LinksOK key waitq group' entry' (update node e false) (update deferq o ((deferq o).erase e)) (some e) where
  single x := by
    by_cases same : x = e
    · exact .inl (same ▸ cleared.1)
    · rw [(others x same).1, (others x same).2]
      exact ok.single x
  node x := by
    by_cases same : x = e
    · subst same
      simp [cleared.1, cleared.2, ownerOf]
    · rw [Function.update_of_ne same, (others x same).1, (others x same).2]
      exact ok.node x
  member o' x := by
    have erased : x ∈ update deferq o ((deferq o).erase e) o' ↔ x ∈ deferq o' ∧ x ≠ e := by
      by_cases place : o' = o
      · subst place
        rw [Function.update_self, (ok.sorted o').nodup.mem_erase_iff, and_comm]
      · rw [Function.update_of_ne place]
        refine (and_iff_left_of_imp fun member same => place ?_).symm
        rw [same, ok.member, owner] at member
        exact (Option.some.inj member).symm
    rw [erased, ok.member]
    by_cases same : x = e
    · subst same
      simp [cleared.1, cleared.2, ownerOf]
    · simp [same, (others x same).1, (others x same).2]
  sorted := (Function.forall_update_iff deferq fun _ => KeyedList.Sorted key).mpr
    ⟨List.Pairwise.sublist List.erase_sublist (ok.sorted o), fun o' _ => ok.sorted o'⟩
  linked x away := by
    have other : x ≠ e := fun same => away (by rw [same])
    rw [(others x other).1, (others x other).2]
    exact ok.linked x (by simp)
  free x here := by
    cases here
    rw [cleared.1, cleared.2]
    rfl

end

end TFCommon.Scheduler
