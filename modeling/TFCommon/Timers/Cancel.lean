import TFCommon.Lib.Token
import TFCommon.Timers.Model

/-! `Cancel` silences a timer until a user starts it again, except where it comes between the end of a
task and the `Start` of that task for a handler that wants to be called again. -/
namespace TFCommon.Timers
open QueueTask (Stuck)
open Timer

def TaskPc.active : TaskPc → Bool
  | .wait | .start | .callback | .completed _ => true
  | _ => false

def TaskPc.firing : TaskPc → Bool
  | .callback | .completed _ => true
  | _ => false

def TaskPc.rearming : TaskPc → Bool
  | .restart | .rearm .. => true
  | _ => false

def TimerTask.owns (task : TimerTask) : Bool := task.pc.active && !task.taskCancel

structure TaskOK (state : TimerState) (task : TimerTask) : Prop where
  marked : task.taskCancel = true → task.pc = .start ∨ task.hasTimer = false
  left : task.hasTimer = false → task.pc = .returned ∨ task.pc = .deleted
  firing : task.pc.firing = true → state = .fired
  timed : ∀ time handler errorHandler, task.pc = .rearm time handler errorHandler → 0 ≤ time

structure Inv (timer : Timer) : Prop where
  owner : Token timer.timerTask fun t : TaskId => ∃ task, timer.tasks[t]? = some task ∧ task.owns = true
  tasks : ∀ (t : TaskId) task, timer.tasks[t]? = some task → TaskOK timer.state task
  time : 0 ≤ timer.time

theorem inv_init : Inv {} where
  owner t := by simp
  tasks t task here := by simp at here
  time := Int.le_refl 0

variable {timer timer' : Timer} {t u : TaskId} {task task' : TimerTask} {f : TimerTask → TimerTask} {state : TimerState}

theorem get_modifyTask (here : timer.tasks[t]? = some task) : (timer.modifyTask t f).tasks[t]? = some (f task) := by
  simp [modifyTask, here]

theorem get_modifyTask_ne (other : u ≠ t) : (timer.modifyTask t f).tasks[u]? = timer.tasks[u]? := by
  simp [modifyTask, other.symm]

theorem forall_modify {P : TimerTask → Prop} (here : timer.tasks[t]? = some task) (mine : P (f task))
    (others : ∀ (u : TaskId) task', u ≠ t → timer.tasks[u]? = some task' → P task') :
    ∀ (u : TaskId) task', (timer.modifyTask t f).tasks[u]? = some task' → P task' := by
  intro u task' there
  by_cases same : u = t
  · subst same
    cases (get_modifyTask here).symm.trans there
    exact mine
  · exact others u task' same ((get_modifyTask_ne same).symm.trans there)

theorem TaskOK.bound (ok : TaskOK state task) (there : task.pc ≠ .returned ∧ task.pc ≠ .deleted) : task.hasTimer = true := by
  by_contra lost
  rcases ok.left (by simpa using lost) with over_ | over_
  · exact there.1 over_
  · exact there.2 over_

theorem TaskOK.owns_firing (ok : TaskOK state task) (firing : task.pc.firing = true) : task.owns = true := by
  have unmarked : task.taskCancel = false := by
    by_contra marked
    rcases ok.marked (by simpa using marked) with start | lost
    · simp [start, TaskPc.firing] at firing
    · rcases ok.left lost with over_ | over_ <;> simp [over_, TaskPc.firing] at firing
  cases pc : task.pc <;> simp_all [TaskPc.firing, TimerTask.owns, TaskPc.active]

theorem TaskOK.restate (ok : TaskOK state task) (calm : task.pc.firing = false) (state' : TimerState) :
    TaskOK state' task :=
  ⟨ok.marked, ok.left, fun firing => by simp [calm] at firing, ok.timed⟩

theorem start_tasks (timer : Timer) (time : Int) (handler errorHandler : Handler) (ok : Bool) :
    (timer.start time handler errorHandler ok).2.tasks = timer.tasks := by
  unfold Timer.start
  split
  · rfl
  · split
    · rfl
    · cases ok <;> rfl

section
variable (inv : Inv timer)
include inv

theorem Inv.calm (here : timer.tasks[t]? = some task) (other : timer.timerTask ≠ some t) : task.pc.firing = false := by
  by_contra firing
  exact other ((inv.owner t).mpr ⟨task, here, (inv.tasks t task here).owns_firing (by simpa using firing)⟩)

theorem Inv.modify (here : timer.tasks[t]? = some task) (same : (f task).owns = task.owns)
    (ok : TaskOK timer.state (f task)) : Inv (timer.modifyTask t f) where
  owner := by
    refine inv.owner.keep fun u => ?_
    by_cases mine : u = t
    · subst mine
      simp [get_modifyTask here, here, same]
    · simp [get_modifyTask_ne mine]
  tasks := forall_modify here ok fun u task' _ => inv.tasks u task'
  time := inv.time

theorem Inv.drop (here : timer.tasks[t]? = some task) (owner : timer.timerTask = some t)
    (gone : (f task).owns = false) (ok : TaskOK state (f task)) :
    Inv ({ timer with timerTask := none, state := state }.modifyTask t f) where
  owner := by
    refine inv.owner.drop owner (fun u other => ?_) ?_
    · simp [get_modifyTask_ne other]
    · rintro ⟨task', there, owns⟩
      cases (get_modifyTask here).symm.trans there
      simp [gone] at owns
  tasks := by
    refine forall_modify here ok fun u task' other there => (inv.tasks u task' there).restate (inv.calm there ?_) state
    rw [owner]
    exact fun same => other (Option.some.inj same).symm
  time := inv.time

theorem Inv.restate (calm : timer.state ≠ .fired) (state : TimerState) :
    Inv { timer with state := state } where
  __ := inv
  tasks u task' there := by
    have ok := inv.tasks u task' there
    refine ok.restate ?_ state
    by_contra firing
    exact calm (ok.firing (by simpa using firing))

omit inv in
theorem start_inv (time : Int) (handler errorHandler : Handler) (ok : Bool) (inv : Inv timer) :
    Inv (timer.start time handler errorHandler ok).2 := by
  unfold Timer.start
  split
  · exact inv
  · rename_i positive
    split
    · exact inv
    · rename_i stopped
      have timed : Inv { timer with time := time } := { inv with time := Int.not_lt.mp positive }
      simp only
      split
      · exact { timed.restate (fun fired => stopped (.inr fired)) .running with }
      · exact { timed with }

theorem cancel_spec {answer : Bool} (ran : timer.cancel = .ok (answer, timer')) :
    Inv timer' ∧ (answer = true → timer'.state = .cancelled ∧ timer'.timerTask = none) ∧
      ∀ u : TaskId, timer.timerTask ≠ some u → timer'.tasks[u]? = timer.tasks[u]? := by
  unfold Timer.cancel at ran
  split at ran
  · cases ran
    exact ⟨inv, nofun, fun _ _ => rfl⟩
  · rename_i calm
    split at ran
    · rename_i alone
      cases ran
      exact ⟨inv.restate calm .cancelled, fun _ => ⟨rfl, alone⟩, fun _ _ => rfl⟩
    · rename_i t owner
      obtain ⟨task, here, owns⟩ := (inv.owner t).mp owner
      have ok := inv.tasks t task here
      have unmarked : task.taskCancel = false := by simp_all [TimerTask.owns]
      have bound : task.hasTimer = true := ok.bound
        (by constructor <;> intro over_ <;> simp [TimerTask.owns, TaskPc.active, over_] at owns)
      have others : ∀ u : TaskId, timer.timerTask ≠ some u → u ≠ t := fun u other same => other (by rw [owner, same])
      simp only [cancelTask, here] at ran
      split at ran
      · cases ran
        refine ⟨inv.drop here owner ?_ ?_, fun _ => ⟨rfl, rfl⟩, fun u other => get_modifyTask_ne (others u other)⟩
        · simp [TimerTask.owns, TaskPc.active]
        · exact ⟨by simp [unmarked], by simp, by simp [TaskPc.firing], by simp⟩
      · cases ran
      · have start : task.pc = .start := by
          cases pc : task.pc <;> simp_all [TimerTask.owns, TaskPc.active]
          all_goals exact absurd (ok.firing (by simp [pc, TaskPc.firing])) calm
        cases ran
        refine ⟨inv.drop here owner ?_ ?_, fun _ => ⟨rfl, rfl⟩, fun u other => get_modifyTask_ne (others u other)⟩
        · simp [TimerTask.owns]
        · exact ⟨fun _ => .inl start, by simp [bound], by simp [start, TaskPc.firing], by simp [start]⟩

omit inv in
theorem onTaskCancel_ok (ran : timer.onTaskCancel t task = .ok timer') :
    task.hasTimer = false ∧ timer' = timer ∨ task.hasTimer = true ∧ timer' = { timer with timerTask := none, state := .init } := by
  unfold onTaskCancel at ran
  split at ran
  · rename_i lost
    cases ran
    exact .inl ⟨lost, rfl⟩
  · rename_i bound
    split at ran
    · cases ran
    · cases ran
      exact .inr ⟨by simpa using bound, rfl⟩

theorem Inv.goto {pc old : TaskPc} (here : timer.tasks[t]? = some task) (now : task.pc = old)
    (same : pc.active = old.active) (clean : task.taskCancel = false ∧ task.hasTimer = true)
    (firing : pc.firing = true → timer.state = .fired)
    (timed : ∀ time handler errorHandler, pc = .rearm time handler errorHandler → 0 ≤ time) : Inv (timer.goto t pc) :=
  inv.modify here (by simp [TimerTask.owns, now, same]) ⟨by simp [clean.1], by simp [clean.2], firing, timed⟩

omit inv in
theorem TaskOK.clean (ok : TaskOK state task) (other : task.pc ≠ .start ∧ task.pc ≠ .returned ∧ task.pc ≠ .deleted) :
    task.taskCancel = false ∧ task.hasTimer = true := by
  have bound := ok.bound other.2
  refine ⟨?_, bound⟩
  by_contra marked
  rcases ok.marked (by simpa using marked) with start | lost
  · exact other.1 start
  · simp [bound] at lost

theorem stepTask_inv {deleteOnCompletion answer : Bool}
    (ran : timer.stepTask deleteOnCompletion t answer = .ok timer') : Inv timer' := by
  cases here : timer.tasks[t]? with
  | none => simp [stepTask, here] at ran
  | some task =>
    have ok := inv.tasks t task here
    simp only [stepTask, here] at ran
    cases now : task.pc <;> simp only [now, Except.ok.injEq, reduceCtorEq] at ran
    case start =>
      split at ran
      · rename_i marked
        cases ran
        refine inv.modify here ?_ ⟨by simp, by simp, by simp [TaskPc.firing], by simp⟩
        simp [TimerTask.owns, marked]
      · rename_i unmarked
        cases ran
        have bound := ok.bound (by simp [now])
        have fired : Inv { timer with state := .fired } :=
          { inv with tasks := fun u task' there => { inv.tasks u task' there with firing := fun _ => rfl } }
        exact fired.goto here now rfl ⟨by simpa using unmarked, bound⟩ (fun _ => rfl) nofun
    case callback =>
      have clean := ok.clean (by simp [now])
      have fired := ok.firing (by simp [now, TaskPc.firing])
      have called : ∀ invoked restart, Inv ({ timer with invoked := invoked }.goto t (.completed restart)) := by
        intro invoked restart
        have same : Inv { timer with invoked := invoked } := { inv with }
        exact same.goto here now rfl clean (fun _ => fired) nofun
      split at ran
      all_goals
        cases ran
        exact called _ _
    case completed restart =>
      obtain ⟨unmarked, bound⟩ := ok.clean (by simp [now])
      have owner : timer.timerTask = some t :=
        (inv.owner t).mpr ⟨task, here, by simp [TimerTask.owns, TaskPc.active, now, unmarked]⟩
      obtain ⟨timer₁, released, ran⟩ := bind_ok ran
      cases ran
      rcases onTaskCancel_ok released with ⟨lost, _⟩ | ⟨_, rfl⟩
      · simp [bound] at lost
      · have next : ∀ pc : TaskPc, pc.active = false → pc.firing = false →
            (∀ time handler errorHandler, pc = .rearm time handler errorHandler → 0 ≤ time) →
            Inv ({ timer with timerTask := none, state := .init }.goto t pc) := by
          intro pc inactive calm timed
          exact inv.drop here owner (by simp [TimerTask.owns, inactive])
            ⟨by simp [unmarked], by simp [bound], by simp [calm], timed⟩
        split
        · exact next _ rfl rfl nofun
        · split <;> exact next _ rfl rfl nofun
    case restart =>
      have clean := ok.clean (by simp [now])
      subst ran
      refine inv.goto here now rfl clean nofun fun time _ _ same => ?_
      cases same
      exact inv.time
    case rearm time handler errorHandler =>
      have clean := ok.clean (by simp [now])
      subst ran
      have started := start_inv time handler errorHandler answer inv
      have there : (timer.start time handler errorHandler answer).2.tasks[t]? = some task := by rw [start_tasks, here]
      exact started.goto there now rfl clean nofun nofun
    case deleteTimer =>
      have clean := ok.clean (by simp [now])
      subst ran
      split <;> exact inv.goto here now rfl clean nofun nofun
    case cancelTimer =>
      have clean := ok.clean (by simp [now])
      have other : timer.timerTask ≠ some t := fun owner => by
        obtain ⟨task', there, owns⟩ := (inv.owner t).mp owner
        cases here.symm.trans there
        simp [TimerTask.owns, TaskPc.active, now] at owns
      obtain ⟨_, cancelled, ran⟩ := bind_ok ran
      cases ran
      obtain ⟨inv₁, _, same⟩ := cancel_spec inv cancelled
      have there := (same t other).trans here
      split <;> exact inv₁.goto there now rfl clean nofun nofun
    case eraseTimer =>
      have clean := ok.clean (by simp [now])
      subst ran
      have same : Inv { timer with inSet := false } := { inv with }
      exact same.goto here now rfl clean nofun nofun

theorem startTimerTask_inv {seqNo : UInt32} {ec : ErrorCode}
    (ran : timer.startTimerTask seqNo ec = .ok timer') : Inv timer' := by
  unfold startTimerTask at ran
  split at ran
  · cases ran
    exact inv
  · split at ran
    · cases ran
      exact inv
    · split at ran
      · cases ran
        exact inv
      · obtain ⟨alone, ran⟩ := of_check ran
        cases ran
        refine ⟨inv.owner.take (not_not.mp alone) (fun u other => ?_) ⟨{ ec := ec }, by simp, rfl⟩, fun u task there => ?_,
          inv.time⟩
        · rw [List.getElem?_append]
          split
          · rfl
          · rename_i beyond
            have past := Nat.sub_ne_zero_of_lt (Nat.lt_of_le_of_ne (Nat.le_of_not_lt beyond) other.symm)
            simp [List.getElem?_eq_none (Nat.le_of_not_lt beyond), past]
        · rw [List.getElem?_append] at there
          split at there
          · exact inv.tasks u task there
          · rw [List.getElem?_singleton] at there
            split at there
            · cases there
              exact ⟨by simp, by simp, by simp [TaskPc.firing], by simp⟩
            · cases there

theorem taskExit_ok (ran : timer.taskExit t = .ok timer') :
    ∃ task, timer.tasks[t]? = some task ∧ task.pc = .returned ∧ timer' = timer.goto t .deleted := by
  unfold taskExit at ran
  split at ran
  · rename_i task here
    split at ran
    · rename_i now
      refine ⟨task, here, now, ?_⟩
      cases marked : task.taskCancel with
      | false =>
        simp only [marked] at ran
        cases ran
        rfl
      | true =>
        have lost : task.hasTimer = false := by simpa [now] using (inv.tasks t task here).marked marked
        simp only [marked, onTaskCancel, lost] at ran
        cases ran
        rfl
    · cases ran
  · cases ran

omit inv in
theorem TaskOK.exit (ok : TaskOK state task) (now : task.pc = .returned) : TaskOK state { task with pc := .deleted } where
  marked marked := by simpa [now] using ok.marked marked
  left _ := .inr rfl
  firing := by simp [TaskPc.firing]
  timed := by simp

theorem taskExit_inv (ran : timer.taskExit t = .ok timer') : Inv timer' := by
  obtain ⟨task, here, now, rfl⟩ := taskExit_ok inv ran
  exact inv.modify here (by simp [TimerTask.owns, now, TaskPc.active]) ((inv.tasks t task here).exit now)

theorem step_inv {deleteOnCompletion : Bool} {action : Action}
    (ran : timer.step deleteOnCompletion action = .ok timer') : Inv timer' := by
  cases action with
  | start time handler errorHandler ok =>
    cases ran
    exact start_inv time handler errorHandler ok inv
  | cancel =>
    obtain ⟨_, cancelled, ran⟩ := bind_ok ran
    cases ran
    exact (cancel_spec inv cancelled).1
  | reschedule time =>
    cases ran
    unfold Timer.reschedule
    split
    · exact inv
    · split
      · exact inv
      · rename_i positive
        exact { inv with time := Int.not_lt.mp positive }
  | expire wait ec =>
    simp only [step] at ran
    split at ran
    · have same : Inv { timer with waits := timer.waits.eraseIdx wait } := { inv with }
      exact startTimerTask_inv same ran
    · cases ran
  | dispatch t =>
    simp only [step, dispatch] at ran
    split at ran
    · rename_i task here
      split at ran
      · rename_i now
        cases ran
        exact inv.goto here now rfl ((inv.tasks t task here).clean (by simp [now])) nofun nofun
      · cases ran
    · cases ran
  | task t answer => exact stepTask_inv inv ran
  | exit t => exact taskExit_inv inv ran

end

structure Silent (timer : Timer) : Prop where
  inv : Inv timer
  state : timer.state = .cancelled
  alone : timer.timerTask = none
  settled : ∀ (t : TaskId) task, timer.tasks[t]? = some task → task.pc.rearming = false

section
variable (silent : Silent timer)
include silent

theorem Silent.idle (here : timer.tasks[t]? = some task) : task.owns = false := by
  by_contra owns
  have owner := (silent.inv.owner t).mpr ⟨task, here, by simpa using owns⟩
  simp [silent.alone] at owner

theorem Silent.modify (inv : Inv (timer.modifyTask t f)) (here : timer.tasks[t]? = some task)
    (settled : (f task).pc.rearming = false) : Silent (timer.modifyTask t f) where
  __ := silent
  inv := inv
  settled := forall_modify here settled fun u task' _ => silent.settled u task'

theorem Silent.cancel : timer.cancel = .ok (true, timer) := by
  unfold Timer.cancel
  rw [if_neg (by simp [silent.state])]
  split
  · rw [← silent.state]
  · rename_i t owner
    simp [silent.alone] at owner

theorem Silent.stepTask {deleteOnCompletion answer : Bool}
    (ran : timer.stepTask deleteOnCompletion t answer = .ok timer') : Silent timer' ∧ timer'.invoked = timer.invoked := by
  have inv := stepTask_inv silent.inv ran
  cases here : timer.tasks[t]? with
  | none => simp [Timer.stepTask, here] at ran
  | some task =>
    have ok := silent.inv.tasks t task here
    have idle := silent.idle here
    have settled := silent.settled t task here
    simp only [Timer.stepTask, here] at ran
    cases now : task.pc <;> simp only [now, Except.ok.injEq, reduceCtorEq] at ran settled
    case start =>
      split at ran
      · cases ran
        exact ⟨silent.modify inv here rfl, rfl⟩
      · rename_i unmarked
        simp [TimerTask.owns, now, TaskPc.active, unmarked] at idle
    case callback | completed =>
      have unmarked := (ok.clean (by simp [now])).1
      simp [TimerTask.owns, now, TaskPc.active, unmarked] at idle
    case restart | rearm => cases settled
    case deleteTimer =>
      rw [if_neg (by simp [silent.state])] at ran
      cases ran
      exact ⟨silent.modify inv here rfl, rfl⟩
    case cancelTimer =>
      rw [silent.cancel] at ran
      cases ran
      exact ⟨silent.modify inv here rfl, rfl⟩
    case eraseTimer =>
      subst ran
      have same : Silent { timer with inSet := false } := { silent with inv := { silent.inv with } }
      exact ⟨same.modify inv here rfl, rfl⟩

theorem Silent.step {deleteOnCompletion : Bool} {action : Action} (other : action.isStart = false)
    (ran : timer.step deleteOnCompletion action = .ok timer') : Silent timer' ∧ timer'.invoked = timer.invoked := by
  cases action with
  | start time handler errorHandler ok => cases other
  | cancel =>
    rw [Timer.step, silent.cancel] at ran
    cases ran
    exact ⟨silent, rfl⟩
  | reschedule time =>
    cases ran
    unfold Timer.reschedule
    rw [if_pos (by simp [silent.state])]
    exact ⟨silent, rfl⟩
  | expire wait ec =>
    simp only [Timer.step] at ran
    split at ran
    · rw [startTimerTask, if_pos silent.state] at ran
      cases ran
      exact ⟨{ silent with inv := { silent.inv with } }, rfl⟩
    · cases ran
  | dispatch t =>
    simp only [Timer.step, Timer.dispatch] at ran
    split at ran
    · rename_i task here
      split at ran
      · rename_i now
        have unmarked := ((silent.inv.tasks t task here).clean (by simp [now])).1
        have idle := silent.idle here
        simp [TimerTask.owns, now, TaskPc.active, unmarked] at idle
      · cases ran
    · cases ran
  | task t answer => exact silent.stepTask ran
  | exit t =>
    have inv := taskExit_inv silent.inv ran
    obtain ⟨task, here, _, rfl⟩ := taskExit_ok silent.inv ran
    exact ⟨silent.modify inv here rfl, rfl⟩

end

theorem rearm_invokes (deleteOnCompletion : Bool) {time : Int} {handler errorHandler : Handler}
    (here : timer.tasks[t]? = some task) (now : task.pc = .rearm time handler errorHandler) (positive : 0 ≤ time)
    (state : timer.state = .cancelled) (alone : timer.timerTask = none) :
    ∃ later timer', (∀ a ∈ later, a.isStart = false) ∧ run (Timer.step deleteOnCompletion) timer later = .ok timer' ∧
      timer'.invoked = timer.invoked ++ [handler] := by
  refine ⟨[.task t true, .expire timer.waits.length .success, .dispatch timer.tasks.length, .task timer.tasks.length true,
    .task timer.tasks.length true], ?_⟩
  have armed : timer.step deleteOnCompletion (.task t true) = .ok ({ timer with
      time := time, handler := handler, seqNo := timer.seqNo + 1, errorHandler := errorHandler
      state := .running, waits := timer.waits ++ [timer.seqNo + 1] }.goto t .returned) := by
    simp [Timer.step, stepTask, here, now, Timer.start, state, Int.not_lt.mpr positive]
  rw [run, armed]
  simp [run, bind, Except.bind, Timer.step, startTimerTask, Timer.goto, modifyTask, alone, dispatch, stepTask,
    Action.isStart]

theorem Inv.rearming_invokes (deleteOnCompletion : Bool) (inv : Inv timer) (here : timer.tasks[t]? = some task)
    (rearming : task.pc.rearming = true) (state : timer.state = .cancelled) (alone : timer.timerTask = none) :
    ∃ later timer', (∀ a ∈ later, a.isStart = false) ∧ run (Timer.step deleteOnCompletion) timer later = .ok timer' ∧
      timer'.invoked ≠ timer.invoked := by
  cases now : task.pc with
  | restart =>
    have reads : timer.step deleteOnCompletion (.task t true) =
        .ok (timer.goto t (.rearm timer.time timer.handler timer.errorHandler)) := by
      simp [Timer.step, stepTask, here, now]
    have there : (timer.goto t (.rearm timer.time timer.handler timer.errorHandler)).tasks[t]? =
        some { task with pc := .rearm timer.time timer.handler timer.errorHandler } := get_modifyTask here
    obtain ⟨later, timer', others, ran, invoked⟩ := rearm_invokes deleteOnCompletion there rfl inv.time state alone
    refine ⟨.task t true :: later, timer', List.forall_mem_cons.mpr ⟨rfl, others⟩, by rw [run, reads]; exact ran, ?_⟩
    rw [invoked]
    simp [Timer.goto, modifyTask]
  | rearm time handler errorHandler =>
    have positive := (inv.tasks t task here).timed time handler errorHandler now
    obtain ⟨later, timer', others, ran, invoked⟩ := rearm_invokes deleteOnCompletion here now positive state alone
    exact ⟨later, timer', others, ran, by simp [invoked]⟩
  | _ => simp [now, TaskPc.rearming] at rearming

/-- After a `Cancel` that returned `true` nothing is called until a user calls `Start`, exactly if no task
is on its way to a `Start` of its own then. -/
theorem cancel_silences_iff (deleteOnCompletion : Bool) (actions : List Action) (timer timer' : Timer)
    (ran : run (Timer.step deleteOnCompletion) {} actions = .ok timer) (cancelled : timer.cancel = .ok (true, timer')) :
    (∀ later after_, (∀ a ∈ later, a.isStart = false) → run (Timer.step deleteOnCompletion) timer' later = .ok after_ →
      after_.invoked = timer'.invoked) ↔
    ∀ (t : TaskId) task, timer'.tasks[t]? = some task → task.pc.rearming = false := by
  have inv : Inv timer := run_invariant Inv (fun _ => True) (fun _ _ _ inv _ ran => step_inv inv ran) actions {} timer
    inv_init (fun _ _ => trivial) ran
  obtain ⟨inv', silent, _⟩ := cancel_spec inv cancelled
  obtain ⟨state, alone⟩ := silent rfl
  constructor
  · intro quiet t task here
    by_contra rearming
    obtain ⟨later, after_, others, ran, invoked⟩ :=
      inv'.rearming_invokes deleteOnCompletion here (by simpa using rearming) state alone
    exact invoked (quiet later after_ others ran)
  · intro settled later after_ others ran
    have kept := run_invariant (fun s => Silent s ∧ s.invoked = timer'.invoked) (fun a => a.isStart = false)
      (fun s a next kept other ran => by
        obtain ⟨silent, same⟩ := kept.1.step other ran
        exact ⟨silent, same.trans kept.2⟩)
      later timer' after_ ⟨⟨inv', state, alone, settled⟩, rfl⟩ others ran
    exact kept.2

/-- The task of an expiry waits in the scheduler when the timer is cancelled. -/
theorem waitingTask_silenced : ∃ timer timer',
    run (Timer.step false) {} [.start 10 1 0 true, .expire 0 .success] = .ok timer ∧ timer.cancel = .ok (true, timer') ∧
    ∀ later after_, (∀ a ∈ later, a.isStart = false) → run (Timer.step false) timer' later = .ok after_ →
      after_.invoked = [] := by
  refine ⟨_, _, rfl, rfl, (cancel_silences_iff false [.start 10 1 0 true, .expire 0 .success] _ _ rfl rfl).mpr ?_⟩
  intro t task here
  match t with
  | 0 =>
    cases here
    rfl
  | _ + 1 => cases here

/-- The task 0 has been through `OnTaskCancel` and has still to call `Start` for its handler. -/
def pendingRestart : List Action :=
  [.start 10 1 0 true, .expire 0 .success, .dispatch 0, .task 0 true, .task 0 true, .task 0 true]

/-- The steps that follow are those of the task, of ASIO and of the scheduler. -/
def restartAfterCancel : List Action :=
  [.task 0 true, .task 0 true, .expire 0 .success, .dispatch 1, .task 1 true, .task 1 true]

theorem pendingRestart_invokes : ∃ timer timer' after_,
    run (Timer.step false) {} pendingRestart = .ok timer ∧ timer.cancel = .ok (true, timer') ∧
    (∀ a ∈ restartAfterCancel, a.isStart = false) ∧ run (Timer.step false) timer' restartAfterCancel = .ok after_ ∧
    timer'.invoked = [1] ∧ after_.invoked = [1, 1] :=
  ⟨_, _, _, rfl, rfl, by decide, rfl, rfl, rfl⟩

end TFCommon.Timers
