import TFCommon.Scheduler.Reachable

/-! The order in which tasks enter `RUN`. The tasks that a call starts stand in `tbb` before those that ran already, the
last one first. -/
namespace TFCommon.Scheduler
open Function (update)
open TaskScheduler

structure Entered where
  task : TaskPtr
  entry : EntryId
  seqno : Nat
deriving DecidableEq, Repr

def TaskScheduler.entered (s : TaskScheduler) (t : TaskPtr) : Option Entered :=
  (s.tasks t).map fun task => ⟨t, task.entry, task.seqno⟩

def TaskScheduler.stillRunning (s : TaskScheduler) : Event → List TaskPtr
  | .exit t _ => s.tbb.erase t
  | _ => s.tbb

def enteredBy (s : TaskScheduler) (event : Event) (s' : TaskScheduler) : List Entered :=
  (s'.tbb.filter fun t => t ∉ s.stillRunning event).reverse.filterMap s'.entered

def cancelledBy (s : TaskScheduler) : Event → List Entered
  | .cancel t =>
    match s.cancel t with
    | some (.cancelled, _) => (s.entered t).toList
    | _ => []
  | _ => []

inductive Logged (s₀ : TaskScheduler) : List Entered → List Entered → TaskScheduler → Prop
  | start : Logged s₀ [] [] s₀
  | step {log cancelled : List Entered} {s s' : TaskScheduler} (event : Event) (earlier : Logged s₀ log cancelled s)
      (enabled : Enabled s event) (run : s.exec event = some s') :
      Logged s₀ (log ++ enteredBy s event s') (cancelled ++ cancelledBy s event) s'

variable {s s' s₀ : TaskScheduler} {log cancelled new : List Entered} {starts moving news : List TaskPtr}
  {D : Owner → Prop} {X : EntryId → Prop} {x : EntryId} {t u : TaskPtr} {task : Task} {w : Entered}

theorem Logged.reachable (logged : Logged s₀ log cancelled s) : Reachable s₀ s := by
  induction logged with
  | start => exact .start
  | step event _ enabled run ih => exact .step event ih enabled run

/-- Tasks that wait are younger than those of their entry that have entered, and the number of a task that was cancelled
is no longer in use. -/
structure LogOK (log cancelled : List Entered) (s : TaskScheduler) : Prop where
  past : ∀ w ∈ log, w.seqno ≤ s.seqno
  fifo : log.Pairwise fun v w => v.entry = w.entry → v.seqno < w.seqno
  before : ∀ x t w, t ∈ s.waitq x → s.entered t = some w → ∀ v ∈ log, v.entry = x → v.seqno < w.seqno
  spent : ∀ c ∈ cancelled, c.seqno ≠ 0 ∧ c.seqno ≤ s.seqno ∧ c ∉ log ∧ ∀ t w, s.entered t = some w → w.seqno ≠ c.seqno

theorem entered_iff : s.entered t = some w ↔ ∃ task, s.tasks t = some task ∧ w = ⟨t, task.entry, task.seqno⟩ := by
  simp [entered, eq_comm]

theorem entered_congr (same : s'.tasks t = s.tasks t) : s'.entered t = s.entered t := by
  rw [entered, entered, same]

theorem filterMap_entered (same : ∀ u ∈ news, s'.entered u = s.entered u) :
    news.filterMap s'.entered = news.filterMap s.entered :=
  List.filterMap_congr same

section
variable (ok : LogOK log cancelled s)
include ok

theorem LogOK.change (grows : s.seqno ≤ s'.seqno)
    (kept : ∀ t w, s'.entered t = some w → s.entered t = some w ∨ w.seqno = 0 ∨ s.seqno < w.seqno)
    (waits : ∀ x t w, t ∈ s'.waitq x → s'.entered t = some w → (t ∈ s.waitq x ∧ s.entered t = some w) ∨ s.seqno < w.seqno) :
    LogOK log cancelled s' where
  past w member := (ok.past w member).trans grows
  fifo := ok.fifo
  before x t w member here v old same := by
    rcases waits x t w member here with ⟨waited, there⟩ | later
    · exact ok.before x t w waited there v old same
    · exact (ok.past v old).trans_lt later
  spent c member := by
    obtain ⟨some_, bound, away, unused⟩ := ok.spent c member
    refine ⟨some_, bound.trans grows, away, fun t w here same => ?_⟩
    rcases kept t w here with there | zero | later
    · exact unused t w there same
    · exact some_ (same.symm.trans zero)
    · exact absurd (bound.trans_lt (same ▸ later)) (Nat.lt_irrefl _)

theorem LogOK.same (seqno : s'.seqno = s.seqno) (entered : ∀ t, s'.entered t = s.entered t)
    (waitq : ∀ x, ∀ t ∈ s'.waitq x, t ∈ s.waitq x) : LogOK log cancelled s' :=
  ok.change seqno.ge (fun t _ here => .inl ((entered t).symm.trans here))
    fun x t _ member here => .inl ⟨waitq x t member, (entered t).symm.trans here⟩

theorem LogOK.retask {v : Option Task} (tasks : s'.tasks = update s.tasks t v)
    (grows : s.seqno ≤ s'.seqno) (others : ∀ y, ∀ u ∈ s'.waitq y, u ≠ t → u ∈ s.waitq y)
    (number : ∀ task, v = some task →
      (s.entered t = some ⟨t, task.entry, task.seqno⟩ ∧ ∀ y, t ∈ s'.waitq y → t ∈ s.waitq y) ∨
        (task.seqno = 0 ∧ ∀ y, t ∉ s'.waitq y) ∨ s.seqno < task.seqno) : LogOK log cancelled s' := by
  have entered (u : TaskPtr) (w : Entered) (now : s'.entered u = some w) :
      (u ≠ t ∧ s.entered u = some w) ∨ ∃ task, u = t ∧ v = some task ∧ w = ⟨t, task.entry, task.seqno⟩ := by
    by_cases same : u = t
    · subst same
      rw [entered_iff, tasks, Function.update_self] at now
      obtain ⟨task, here, rfl⟩ := now
      exact .inr ⟨task, rfl, here, rfl⟩
    · exact .inl ⟨same, (entered_congr (by rw [tasks, Function.update_of_ne same])).symm.trans now⟩
  refine ok.change grows (fun u w now => ?_) fun y u w member now => ?_
  · rcases entered u w now with ⟨_, there⟩ | ⟨task, rfl, here, rfl⟩
    · exact .inl there
    · exact (number task here).imp And.left (Or.imp_left And.left)
  · rcases entered u w now with ⟨apart, there⟩ | ⟨task, rfl, here, rfl⟩
    · exact .inl ⟨others y u member apart, there⟩
    · rcases number task here with ⟨same, waits⟩ | ⟨_, away⟩ | later
      · exact .inl ⟨waits y member, same⟩
      · exact absurd member (away y)
      · exact .inr later

theorem LogOK.mark {task' : Task} (here : s.tasks t = some task) (entry : task'.entry = task.entry)
    (seqno : task'.seqno = task.seqno) : LogOK log cancelled (s.setTask t task') := by
  refine ok.retask rfl le_rfl (fun _ _ member _ => member) ?_
  rintro _ ⟨⟩
  exact .inl ⟨entered_iff.mpr ⟨task, here, by rw [entry, seqno]⟩, fun _ => id⟩

theorem LogOK.enter (held : ∀ w ∈ new, (∃ t, s.entered t = some w) ∧ w.seqno ≤ s.seqno)
    (ordered : new.Pairwise fun v w => v.entry = w.entry → v.seqno < w.seqno)
    (later : ∀ v ∈ log, ∀ w ∈ new, v.entry = w.entry → v.seqno < w.seqno)
    (first : ∀ v ∈ new, ∀ t w, t ∈ s.waitq v.entry → s.entered t = some w → v.seqno < w.seqno) :
    LogOK (log ++ new) cancelled s where
  past w member := (List.mem_append.mp member).elim (ok.past w) fun fresh => (held w fresh).2
  fifo := List.pairwise_append.mpr ⟨ok.fifo, ordered, later⟩
  before x t w member here v old same := by
    rcases List.mem_append.mp old with old | fresh
    · exact ok.before x t w member here v old same
    · subst same
      exact first v fresh t w member here
  spent c member := by
    obtain ⟨some_, bound, away, unused⟩ := ok.spent c member
    refine ⟨some_, bound, fun inside => ?_, unused⟩
    rcases List.mem_append.mp inside with old | fresh
    · exact away old
    · obtain ⟨⟨t, here⟩, _⟩ := held c fresh
      exact unused t c here rfl

end

section visits

theorem Ran.entered (ran : Ran x news s s') (u : TaskPtr) : s'.entered u = s.entered u := by
  rw [TaskScheduler.entered, ran.tasks]
  split
  · rw [Option.map_map]
    rfl
  · rfl

theorem Visits.entered (visits : Visits D moving starts s s') (u : TaskPtr) : s'.entered u = s.entered u := by
  induction visits with
  | done s => rfl
  | visit _ _ _ _ visited _ ih => exact ih.trans (visited.toRan.entered u)

theorem Visited.logged (visited : Visited x news s s') (inv : Inv s none moving X) (seqno : s'.seqno = s.seqno)
    (ok : LogOK log cancelled s) : LogOK (log ++ news.filterMap s'.entered) cancelled s' := by
  have tasks := inv.core.tasks
  have fifo := tasks.fifo x
  rw [visited.waitq, List.pairwise_append] at fifo
  obtain ⟨inOrder, _, ahead⟩ := fifo
  have waits (u : TaskPtr) (member : u ∈ news) : u ∈ s.waitq x := by
    rw [visited.waitq]
    exact List.mem_append_left _ member
  have place (v : Entered) (member : v ∈ news.filterMap s'.entered) :
      ∃ u ∈ news, ∃ a, s.tasks u = some a ∧ a.entry = x ∧ v = ⟨u, x, a.seqno⟩ := by
    obtain ⟨u, inside, now⟩ := List.mem_filterMap.mp member
    rw [visited.toRan.entered u, entered_iff] at now
    obtain ⟨a, here, rfl⟩ := now
    obtain ⟨_, b, there, _, mine, _⟩ := tasks.in_waitq (waits u inside)
    cases here.symm.trans there
    exact ⟨u, inside, a, here, mine, by rw [mine]⟩
  have fewer (y : EntryId) (u : TaskPtr) (member : u ∈ s'.waitq y) : u ∈ s.waitq y := by
    by_cases same : y = x
    · rw [same] at member ⊢
      rw [visited.waitq]
      exact List.mem_append_right _ member
    · rwa [← visited.others y same]
  refine (ok.same seqno visited.toRan.entered fewer).enter ?_ ?_ ?_ ?_
  · intro v member
    obtain ⟨u, _, a, here, mine, rfl⟩ := place v member
    refine ⟨⟨u, ?_⟩, seqno ▸ tasks.young u a here⟩
    rw [visited.toRan.entered u, entered_iff]
    exact ⟨a, here, by rw [mine]⟩
  · refine List.pairwise_filterMap.mpr (inOrder.imp fun {u u'} less v now v' now' _ => ?_)
    rw [visited.toRan.entered, entered_iff] at now now'
    obtain ⟨a, here, rfl⟩ := now
    obtain ⟨b, there, rfl⟩ := now'
    exact less a b here there
  · intro v old w member same
    obtain ⟨u, inside, a, here, mine, rfl⟩ := place w member
    exact ok.before x u _ (waits u inside) (entered_iff.mpr ⟨a, here, by rw [mine]⟩) v old same
  · intro v member u w waiting now
    obtain ⟨u', inside, a, here, mine, rfl⟩ := place v member
    rw [visited.toRan.entered u, entered_iff] at now
    obtain ⟨b, there, rfl⟩ := now
    exact ahead u' inside u waiting a b here there

theorem Visits.logged (visits : Visits D moving starts s s') (ok : LogOK log cancelled s) :
    LogOK (log ++ starts.filterMap s'.entered) cancelled s' := by
  induction visits generalizing log with
  | done s => simpa using ok
  | @visit s mid s' x o news starts X drained owned inv moved visited rest ih =>
    have first := visited.logged inv moved.seqno ok
    rw [← filterMap_entered fun u _ => rest.entered u] at first
    rw [List.filterMap_append, ← List.append_assoc]
    exact ih first

end visits

def Enters (log cancelled : List Entered) (base : List TaskPtr) (s' : TaskScheduler) : Prop :=
  ∃ news : List TaskPtr, s'.tbb = news.reverse ++ base ∧ LogOK (log ++ news.filterMap s'.entered) cancelled s'

theorem LogOK.silent (ok : LogOK log cancelled s) (tbb : s.tbb = news) : Enters log cancelled news s :=
  ⟨[], tbb, by simpa using ok⟩

theorem Placed.enters {old : Task} (placed : Placed (s.numbered t old) t task s') (number : task.seqno = s.seqno + 1)
    (ok : LogOK log cancelled s) : Enters log cancelled s.tbb s' := by
  have new : s.seqno < task.seqno := number ▸ Nat.lt_succ_self _
  cases placed with
  | queued tasks waitq tbb _ seqno =>
    simp only [numbered_tasks, numbered_waitq, numbered_tbb, numbered_seqno, Function.update_idem] at tasks waitq tbb seqno
    refine (ok.retask tasks (by omega) (fun y u member apart => ?_) ?_).silent tbb
    · rw [waitq] at member
      by_cases same : y = task.entry
      · subst same
        rw [Function.update_self, List.mem_append, List.mem_singleton] at member
        exact member.resolve_right apart
      · rwa [Function.update_of_ne same] at member
    · rintro _ ⟨⟩
      exact .inr (.inr new)
  | started tasks waitq tbb _ seqno _ _ empty =>
    simp only [numbered_tasks, numbered_waitq, numbered_tbb, numbered_seqno, Function.update_idem] at tasks waitq tbb seqno empty
    have own : s'.entered t = some ⟨t, task.entry, task.seqno⟩ := by
      rw [entered_iff, tasks, Function.update_self]
      exact ⟨_, rfl, rfl⟩
    have changed : LogOK log cancelled s' := by
      refine ok.retask tasks (by omega) (fun y u member _ => waitq ▸ member) ?_
      rintro _ ⟨⟩
      exact .inr (.inr new)
    refine ⟨[t], tbb, ?_⟩
    rw [List.filterMap_cons_some own]
    refine changed.enter ?_ (List.pairwise_singleton ..) ?_ ?_
    · intro w member
      cases List.mem_singleton.mp member
      exact ⟨⟨t, own⟩, (number.trans seqno.symm).le⟩
    · intro v old w member _
      cases List.mem_singleton.mp member
      exact (ok.past v old).trans_lt new
    · intro v member u w waiting
      cases List.mem_singleton.mp member
      rw [waitq, empty] at waiting
      exact absurd waiting List.not_mem_nil

theorem Exits.enters (exits : Exits s t task s') (ok : LogOK log cancelled s) (here : s.tasks t = some task)
    (runs : task.state = .run) : Enters log cancelled (s.tbb.erase t) s' := by
  -- What the visits start has waited, so that it is not the task that exits.
  have other {runTask' : EntryId → Option TaskPtr} {mid : TaskScheduler} {starts : List TaskPtr}
      (visits : Visits (Freed (s.exited t task runTask') task) [t] starts (s.exited t task runTask') mid) (u : TaskPtr)
      (member : u ∈ starts) : u ≠ t := by
    rintro rfl
    obtain ⟨a, there, waits⟩ := visits.waited member
    cases here.symm.trans there
    cases runs.symm.trans waits
  cases exits with
  | @gone runTask' mid starts X inv visits inv' last =>
    refine ⟨starts, visits.tbb, ?_⟩
    rw [filterMap_entered fun u member => entered_congr (Function.update_of_ne (other visits u member) ..)]
    exact (visits.logged (ok.same rfl (fun _ => rfl) fun _ _ => id)).retask rfl le_rfl (fun _ _ member _ => member) (by rintro _ ⟨⟩)
  | @recycled runTask' mid s' starts X inv visits inv' again fresh placed =>
    have reset : LogOK (log ++ starts.filterMap mid.entered) cancelled (mid.setTask t task.reset) := by
      refine (visits.logged (ok.same rfl (fun _ => rfl) fun _ _ => id)).retask rfl le_rfl (fun _ _ member _ => member) ?_
      rintro _ ⟨⟩
      exact .inr (.inl ⟨rfl, fun y member => ((inv'.core.tasks.waiting y t).mp member).1 (by simp)⟩)
    obtain ⟨more, tbb, final⟩ := placed.enters rfl reset
    have unmoved (u : TaskPtr) (apart : u ≠ t) : s'.entered u = mid.entered u := by
      obtain ⟨_, tasks, _⟩ := placed.retasked
      refine entered_congr ?_
      rw [tasks, Function.update_of_ne apart, numbered_tasks, Function.update_of_ne apart]
      exact Function.update_of_ne apart ..
    refine ⟨starts ++ more, ?_, ?_⟩
    · rw [tbb, List.reverse_append, List.append_assoc, ← show _ = starts.reverse ++ s.tbb.erase t from visits.tbb]
      rfl
    · rw [List.filterMap_append, filterMap_entered fun u member => unmoved u (other visits u member), ← List.append_assoc]
      exact final

theorem Cancels.logged {code : CancelReturnCode} (cancels : Cancels s t task code s') (idle : Idle s) (here : s.tasks t = some task)
    (returned : s.cancel t = some (code, s')) (ok : LogOK log cancelled s) :
    s'.tbb = s.tbb ∧ LogOK log (cancelled ++ cancelledBy s (.cancel t)) s' := by
  have own : s.entered t = some ⟨t, task.entry, task.seqno⟩ := entered_iff.mpr ⟨task, here, rfl⟩
  cases cancels with
  | failed =>
    rw [cancelledBy, returned, List.append_nil]
    exact ⟨rfl, ok⟩
  | queued =>
    rw [cancelledBy, returned, List.append_nil]
    exact ⟨rfl, ok.mark here rfl rfl⟩
  | @cancelled waits v mid relinked =>
    have member : t ∈ s.waitq task.entry := (idle.core.tasks.waiting _ t).mpr ⟨by simp, task, here, waits, rfl⟩
    have tbb : mid.tbb = s.tbb := by rw [relinked.fields]; rfl
    have seqno : mid.seqno = s.seqno := by rw [relinked.fields]; rfl
    have tasks : update mid.tasks t none = update s.tasks t none := by rw [relinked.tasks]; rfl
    have fewer (y : EntryId) (u : TaskPtr) (inside : u ∈ mid.waitq y) : u ∈ s.waitq y := by
      simp only [relinked.waitq, dequeued] at inside
      by_cases same : y = task.entry
      · subst same
        rw [Function.update_self] at inside
        exact List.mem_of_mem_erase inside
      · rwa [Function.update_of_ne same] at inside
    refine ⟨tbb, ?_⟩
    have changed : LogOK log cancelled { mid with tasks := update mid.tasks t none, cancelCount := mid.cancelCount + 1 } :=
      ok.retask tasks seqno.ge (fun y u inside _ => fewer y u inside) (by rintro _ ⟨⟩)
    rw [cancelledBy, returned, own]
    refine { changed with spent := fun c inside => ?_ }
    rcases List.mem_append.mp inside with old | new
    · exact changed.spent c old
    · cases List.mem_singleton.mp new
      have some_ : task.seqno ≠ 0 := fun zero => by
        cases waits.symm.trans ((idle.core.tasks.settled t task here (by simp)).2.mp zero)
      refine ⟨some_, seqno ▸ idle.core.tasks.young t task here, fun logged => ?_, fun u w now same => ?_⟩
      · exact Nat.lt_irrefl _ (ok.before _ t _ member own _ logged rfl)
      · obtain ⟨b, holds, rfl⟩ := entered_iff.mp now
        simp only [tasks] at holds
        by_cases apart : u = t
        · rw [apart, Function.update_self] at holds
          cases holds
        · rw [Function.update_of_ne apart] at holds
          exact apart (idle.core.tasks.distinct t u task b here holds same.symm some_).symm

theorem Call.enters {event : Event} (call : Call s event s') (idle : Idle s) (ok : LogOK log cancelled s) :
    Enters log (cancelled ++ cancelledBy s event) (s.stillRunning event) s' := by
  -- Only a `Cancel` adds to what was cancelled.
  have uncancelled {base : List TaskPtr} (enters : Enters log cancelled base s') : Enters log (cancelled ++ []) base s' := by
    rwa [List.append_nil]
  cases call with
  | @create t unused id inst =>
    have made : LogOK log cancelled (s.newTask t id inst) := by
      refine ok.retask rfl le_rfl (fun _ _ member _ => member) ?_
      rintro _ ⟨⟩
      refine .inr (.inl ⟨rfl, fun y member => ?_⟩)
      obtain ⟨_, _, there, _⟩ := idle.core.tasks.in_waitq member
      cases unused.symm.trans there
    exact uncancelled (made.silent rfl)
  | enqueue here fresh placed => exact uncancelled (placed.enters rfl ok)
  | cancel here returned cancels =>
    obtain ⟨tbb, after⟩ := cancels.logged idle here returned ok
    exact after.silent tbb
  | exit here runs complete exits => exact uncancelled (exits.enters (ok.mark here rfl rfl) (Function.update_self ..) runs)
  | stop =>
    have stopped : LogOK log cancelled s.stop := ok.same rfl (fun _ => rfl) fun _ _ => id
    exact uncancelled (stopped.silent rfl)
  | @start s' starts visits =>
    have running : LogOK log cancelled { s with running := true } := ok.same rfl (fun _ => rfl) fun _ _ => id
    exact uncancelled ⟨starts, visits.tbb, visits.logged running⟩

theorem enteredBy_eq {event : Event} (once : s'.tbb.Nodup) (tbb : s'.tbb = news.reverse ++ s.stillRunning event) :
    enteredBy s event s' = news.filterMap s'.entered := by
  rw [tbb, List.nodup_append] at once
  have fresh : s'.tbb.filter (fun t => t ∉ s.stillRunning event) = news.reverse := by
    rw [tbb, List.filter_append, List.filter_eq_self.mpr, List.filter_eq_nil_iff.mpr, List.append_nil]
    · simp
    · intro t member
      simpa using fun inside => once.2.2 t member t inside rfl
  rw [enteredBy, fresh, List.reverse_reverse]

/-- The tasks of an entry enter `RUN` in the order of their numbers, and none that was cancelled does. -/
theorem entries_fifo (policies : Policies) (distinct : (policies.map Prod.fst).Nodup) :
    ∃ s₀, ({} : TaskScheduler).setPolicies policies = some s₀ ∧ ∀ log cancelled s, Logged s₀ log cancelled s →
      (log.Pairwise fun v w => v.entry = w.entry → v.seqno < w.seqno) ∧ ∀ c ∈ cancelled, c ∉ log := by
  obtain ⟨s₀, installed, initial, _⟩ := setPolicies_idle policies distinct
  refine ⟨s₀, installed, fun log cancelled s logged => ?_⟩
  suffices ok : LogOK log cancelled s from ⟨ok.fifo, fun c member => (ok.spent c member).2.2.1⟩
  induction logged with
  | start => exact ⟨by simp, .nil, by simp, by simp⟩
  | step event earlier enabled run ih =>
    obtain ⟨idle, _⟩ := earlier.reachable.idle initial
    obtain ⟨idle', _, _, call⟩ := call_of_exec idle enabled run
    obtain ⟨news, tbb, ok⟩ := call.enters idle ih
    rw [enteredBy_eq idle'.core.tasks.once tbb]
    exact ok

/-- The second of two tasks of an instance enters when the first one exits. -/
theorem mixedRules_fifo :
    (∃ s₀, ({} : TaskScheduler).setPolicies mixedRules = some s₀ ∧ ∀ log cancelled s, Logged s₀ log cancelled s →
      (log.Pairwise fun v w => v.entry = w.entry → v.seqno < w.seqno) ∧ ∀ c ∈ cancelled, c ∉ log) ∧
    ((({} : TaskScheduler).setPolicies mixedRules).bind
      ([Event.create 1 0 (some 3), .create 2 0 (some 3), .enqueue 1, .enqueue 2].foldlM exec)).bind
        (fun s => (s.exec (.exit 1 true)).map (enteredBy s (.exit 1 true))) = some [⟨2, .task 0 (some 3), 2⟩] :=
  ⟨entries_fifo mixedRules (by decide), by decide⟩

end TFCommon.Scheduler
