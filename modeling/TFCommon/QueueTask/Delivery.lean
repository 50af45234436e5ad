import TFCommon.QueueTask.Shutdown

/-! Delivery on a queue that is not shut down: in order and at most once, by one runner at a time, and
without a lost wakeup. The wakeup argument is that a runner which has decided to stop has seen an empty
or disabled queue, and whoever changes that looks at the queue again after its write. -/
namespace TFCommon.QueueTask
open Function (update forall_update_iff)
open WorkQueue

variable {α : Type}

structure Inv (q : WorkQueue α) : Prop where
  calm : q.deleted = false ∧ q.shutdownScheduled = false
  threads : ∀ t, (q.threads t).shutting = false
  runners : ∀ r runner, q.runners r = some runner → runner.taskCancel = false ∧ runner.pc.shutting = false
  mutex : Token q.mutex q.holding
  owner : Token q.currentRunner q.owns
  running : q.running = q.currentRunner.isSome
  starting : ∀ t, (q.threads t).starting = true → q.currentRunner = none
  order : q.pushed = q.delivered ++ q.inflight ++ q.queue
  wakeup : q.queue ≠ [] → q.disabled = false → q.watched ∨ ∃ t, (q.threads t).looking = true

structure Awake (q : WorkQueue α) : Prop where
  calm : q.deleted = false ∧ q.shutdownScheduled = false
  threads : ∀ t, (q.threads t).shutting = false
  runners : ∀ r runner, q.runners r = some runner → runner.taskCancel = false ∧ runner.pc.shutting = false
  wakeup : q.queue ≠ [] → q.disabled = false → q.watched ∨ ∃ t, (q.threads t).looking = true

variable {cfg : Config α} {q q' : WorkQueue α} {t : ThreadId} {r : RunnerId} {runner : QueueTaskRunner α} {pc : Thread α}
  {m : Option Holder} {c : UInt64}

theorem Sound.inv {h : History} (sound : Sound cfg q h) (points : cfg.pointers = true) (awake : Awake q) : Inv q := by
  obtain ⟨alive, open_⟩ := awake.calm
  have stage : q.stage = .other := by
    by_contra busy
    exact absurd_true open_ (sound.control.drain busy).1
  refine ⟨awake.calm, awake.threads, awake.runners, sound.mutex, sound.owner.keep fun r => ?_, sound.control.running,
    fun t starts => ?_, ?_, awake.wakeup⟩
  · simp [sound.control.undropped open_]
  · have reads := sound.threads t
    cases now : q.threads t <;> simp_all [Thread.starting, ThreadOK]
  · have kept := sound.entries.kept points (sound.asks open_) alive
    rwa [sound.entries.unfreed stage alive, List.append_nil] at kept

section
variable (inv : Inv q)
include inv

section threads

theorem Inv.threads_update (calm : pc.shutting = false) : ∀ u, (update q.threads t pc u).shutting = false :=
  (forall_update_iff q.threads fun _ pc => pc.shutting = false).mpr ⟨calm, fun u _ => inv.threads u⟩

theorem Inv.goto {old : Thread α} (now : q.threads t = old) (calm : pc.shutting = false)
    (looked : old.looking = true → pc.looking = true ∨ q.queue = [] ∨ q.disabled = true ∨ q.watched) :
    Awake ({ q with mutex := m, count := c }.goto t pc) where
  calm := inv.calm
  threads := inv.threads_update calm
  runners := inv.runners
  wakeup waits enabled := by
    rcases inv.wakeup waits enabled with watched | ⟨u, looks⟩
    · exact .inl watched
    · by_cases same : u = t
      · subst same
        rcases looked (now ▸ looks) with still | empty | off | watched
        · exact .inr ⟨u, by simpa [WorkQueue.goto] using still⟩
        · exact absurd empty waits
        · exact absurd_true enabled off
        · exact .inl watched
      · exact .inr ⟨u, by simpa [WorkQueue.goto, same] using looks⟩

theorem Inv.wake (queue pushed : List α) (disabled : Bool) (calm : pc.shutting = false) (looks : pc.looking = true) :
    Awake ({ q with queue := queue, pushed := pushed, disabled := disabled }.goto t pc) where
  calm := inv.calm
  threads := inv.threads_update calm
  runners := inv.runners
  wakeup _ _ := .inr ⟨t, by simpa [WorkQueue.goto] using looks⟩

theorem Inv.watched (inside : (q.threads t).holds = true) (running : q.running = true) : q.watched := by
  rw [inv.running, Option.isSome_iff_exists] at running
  obtain ⟨r, current⟩ := running
  obtain ⟨runner, here, live⟩ := (inv.owner r).mp current
  refine ⟨r, runner, current, here, ?_⟩
  cases pc : runner.pc with
  | finish =>
    have both : Holder.thread t = .runner r := inv.mutex.unique inside ⟨runner, here, by rw [pc]; rfl⟩
    cases both
  | _ => simpa [pc, RunnerPc.watching] using live

theorem Inv.runners_update {v : Option (QueueTaskRunner α)}
    (new : ∀ runner, v = some runner → runner.taskCancel = false ∧ runner.pc.shutting = false) :
    ∀ r' runner, update q.runners r v r' = some runner → runner.taskCancel = false ∧ runner.pc.shutting = false :=
  (forall_update_iff q.runners fun _ v => ∀ runner, v = some runner → runner.taskCancel = false ∧ runner.pc.shutting = false).mpr
    ⟨new, fun r' _ => inv.runners r'⟩

theorem Inv.start {fresh : RunnerId} {result : Option Bool} :
    Awake ({ q with running := true, currentRunner := some fresh, runners := update q.runners fresh (some {}) }.goto t
      (.unlock result)) where
  calm := inv.calm
  threads := inv.threads_update rfl
  runners := inv.runners_update (by rintro _ ⟨⟩; exact ⟨rfl, rfl⟩)
  wakeup _ _ := .inl ⟨fresh, {}, rfl, Function.update_self .., rfl⟩

end threads

section runners
variable (here : q.runners r = some runner) {dest old : RunnerPc α} {queue delivered : List α}
include here

theorem Inv.current (now : runner.pc = old) (live : old.live = true) : q.currentRunner = some r :=
  (inv.owner r).mpr ⟨runner, here, now ▸ live⟩

theorem Inv.advance (now : runner.pc = old) (live : old.live = true) (calm : dest.shutting = false)
    (stops : dest.watching = true ∨ queue = [] ∨ q.disabled = true) :
    Awake ({ q with mutex := m, count := c, queue := queue, delivered := delivered }.advance r runner dest) where
  calm := inv.calm
  threads := inv.threads
  runners := inv.runners_update (by rintro _ ⟨⟩; exact ⟨(inv.runners r runner here).1, calm⟩)
  wakeup waits enabled := by
    have current := inv.current here now live
    rcases stops with watches | empty | off
    · exact .inl ⟨r, { runner with pc := dest }, current, Function.update_self .., watches⟩
    · exact absurd empty waits
    · exact absurd_true enabled off

theorem Inv.resign {v : Option (QueueTaskRunner α)} {current : Option RunnerId} {running : Bool}
    (unwatched : runner.pc.watching = false)
    (new : ∀ runner, v = some runner → runner.taskCancel = false ∧ runner.pc.shutting = false)
    (others : ∀ r', r' ≠ r → q.currentRunner = some r' → current = some r') :
    Awake { q with mutex := m, currentRunner := current, running := running, runners := update q.runners r v } where
  calm := inv.calm
  threads := inv.threads
  runners := inv.runners_update new
  wakeup waits enabled := by
    refine (inv.wakeup waits enabled).imp_left ?_
    rintro ⟨r', runner', now, there, watches⟩
    have other : r' ≠ r := by
      rintro rfl
      cases here.symm.trans there
      exact absurd_true unwatched watches
    exact ⟨r', runner', others r' other now, (Function.update_of_ne other ..).trans there, watches⟩

end runners

theorem abort_iff_disabled : q.runnerAbortLocked = q.disabled := by
  simp [runnerAbortLocked, inv.calm.2]

theorem stepThread_awake {fresh : RunnerId} (ran : q.stepThread cfg t fresh = .ok q') : Awake q' := by
  have quiet := inv.threads t
  cases now : q.threads t <;> simp only [stepThread, now, Except.ok.injEq, reduceCtorEq] at ran quiet
  case increment | readDisabled =>
    subst ran
    split <;> exact inv.goto now rfl (by simp [Thread.looking])
  case push entry ncount =>
    subst ran
    exact inv.wake (q.queue ++ [entry]) (q.pushed ++ [entry]) q.disabled rfl rfl
  case decrement | unlock =>
    subst ran
    exact inv.goto now rfl (by simp [Thread.looking])
  case lock result =>
    obtain ⟨held, taken, ran⟩ := bind_ok ran
    cases ran
    obtain ⟨_, rfl⟩ := acquire_ok taken
    exact inv.goto now rfl fun _ => .inl rfl
  case testQueue result =>
    subst ran
    split
    · rename_i stop
      refine inv.goto now rfl fun _ => .inr ?_
      simp only [Bool.or_eq_true, List.isEmpty_iff, inv.calm.1, Bool.false_eq_true, or_false] at stop
      rcases stop with running | empty
      · exact .inr (.inr (inv.watched (by rw [now]; rfl) running))
      · exact .inl empty
    · exact inv.goto now rfl fun _ => .inl rfl
  case testAbort result =>
    rw [abort_iff_disabled inv] at ran
    subst ran
    split
    · rename_i off
      exact inv.goto now rfl fun _ => .inr (.inr (.inl off))
    · exact inv.goto now rfl fun _ => .inl rfl
  case start result =>
    obtain ⟨_, ran⟩ := of_check (of_check ran).2
    cases ran
    exact inv.start
  case writeDisabled disabled =>
    subst ran
    exact inv.wake q.queue q.pushed disabled rfl rfl
  case rereadDisabled =>
    subst ran
    split
    · rename_i off
      exact inv.goto now rfl fun _ => .inr (.inr (.inl off))
    · exact inv.goto now rfl fun _ => .inl rfl
  all_goals cases quiet

theorem stepRunner_awake {answer : Bool} (ran : q.stepRunner cfg r answer = .ok q') : Awake q' := by
  cases here : q.runners r with
  | none => simp [stepRunner, here] at ran
  | some runner =>
    have quiet := (inv.runners r runner here).2
    simp only [stepRunner, here] at ran
    cases now : runner.pc <;> simp only [now, Except.ok.injEq, reduceCtorEq] at ran quiet
    case onEntry =>
      subst ran
      split <;> exact inv.advance here now rfl rfl (.inl rfl)
    case abort =>
      obtain ⟨_, rfl⟩ := of_guard ran
      split <;> exact inv.advance here now rfl rfl (.inl rfl)
    case dequeue count =>
      split at ran
      all_goals
        cases ran
        exact inv.advance here now rfl rfl (.inl rfl)
    case decrement count entry =>
      subst ran
      exact inv.advance here now rfl rfl (.inl rfl)
    case callback count entry =>
      subst ran
      split
      · exact inv.advance here now rfl rfl (.inl rfl)
      · split <;> exact inv.advance here now rfl rfl (.inl rfl)
    case lockDone =>
      obtain ⟨held, taken, ran⟩ := bind_ok ran
      cases ran
      obtain ⟨_, rfl⟩ := acquire_ok taken
      exact inv.advance here now rfl rfl (.inl rfl)
    case testQueue =>
      subst ran
      split
      · rename_i empty
        exact inv.advance here now rfl rfl (.inr (.inl (List.isEmpty_iff.mp empty)))
      · exact inv.advance here now rfl rfl (.inl rfl)
    case testAbort =>
      rw [abort_iff_disabled inv] at ran
      subst ran
      split
      · rename_i off
        exact inv.advance here now rfl rfl (.inr (.inr off))
      · exact inv.advance here now rfl rfl (.inl rfl)
    case finish =>
      rw [if_neg (by simp [inv.calm.2])] at ran
      cases ran
      have current := inv.current here now rfl
      refine inv.resign here (by rw [now]; rfl) ?_ fun r' other same => absurd (Option.some.inj (same.symm.trans current))
        other
      rintro _ ⟨⟩
      exact ⟨(inv.runners r runner here).1, rfl⟩
    case resume =>
      subst ran
      have current := inv.current here now rfl
      have running : q.running = true := by rw [inv.running, current]; rfl
      rw [← running]
      exact inv.advance here now rfl rfl (.inl rfl)
    all_goals cases quiet

theorem step_awake (action : Action α) (open_ : action.shuts = false) (ran : q.step cfg action = .ok q') : Awake q' := by
  cases action with
  | call t call =>
    simp only [step] at ran
    split at ran
    · rename_i result idle
      cases ran
      cases call with
      | enqueue _ | setDisable _ => exact inv.goto idle rfl (by simp [Thread.looking])
      | scheduleShutdown _ | shutdown _ => cases open_
    · cases ran
  | thread t fresh => exact stepThread_awake inv ran
  | dispatch r =>
    simp only [step, dispatch] at ran
    split at ran
    · rename_i cancel here
      cases ran
      exact inv.advance here rfl rfl rfl (.inl rfl)
    · cases ran
  | runner r answer => exact stepRunner_awake inv ran
  | exit r =>
    simp only [step, taskExit] at ran
    split at ran
    · rename_i done cancel here
      obtain rfl : cancel = false := (inv.runners r _ here).1
      cases done with
      | true =>
        cases ran
        exact inv.resign here rfl (by simp) fun _ _ => id
      | false =>
        cases ran
        exact inv.advance here rfl rfl rfl (.inl rfl)
    · cases ran

/-- Whether the entries are pointers matters only for a queue that is being shut down. -/
theorem step_pointers (cfg : Config α) (action : Action α) :
    q.step { cfg with pointers := true } action = q.step cfg action := by
  cases action with
  | thread t fresh =>
    have quiet := inv.threads t
    simp only [step, stepThread]
    cases now : q.threads t with
    | drain | shutdown =>
      rw [now] at quiet
      cases quiet
    | _ => rfl
  | runner r answer =>
    simp only [step, stepRunner]
    cases here : q.runners r with
    | none => rfl
    | some runner =>
      have quiet := (inv.runners r runner here).2
      dsimp only
      cases now : runner.pc with
      | drain =>
        rw [now] at quiet
        cases quiet
      | _ => rfl
  | _ => rfl

end

theorem Action.asynchronous_of_open {action : Action α} (open_ : action.shuts = false) : action.asynchronous = true := by
  cases action with
  | call t call => cases call <;> first | rfl | cases open_
  | _ => rfl

/-- Delivery in the order of the pushes by one runner at a time, and no lost wakeup, after any
interleaving of calls, runner steps and scheduler steps without a shutdown. -/
theorem delivered_in_order (cfg : Config α) (actions : List (Action α)) (q : WorkQueue α)
    (ran : run (WorkQueue.step cfg) {} actions = .ok q) (open_ : ∀ a ∈ actions, a.shuts = false) :
    (∃ taken, q.pushed = q.delivered ++ taken ++ q.queue ∧ taken.length ≤ 1) ∧
    (∀ r r', q.owns r → q.owns r' → r = r') ∧ (∀ r, q.currentRunner = some r ↔ q.owns r) ∧
    (q.running = true ↔ q.currentRunner ≠ none) ∧
    (q.queue ≠ [] → q.disabled = false → (∀ t, (q.threads t).pending = false) → ∃ r, q.owns r) := by
  obtain ⟨inv, _⟩ : Inv q ∧ ∃ h, Sound { cfg with pointers := true } q h := by
    refine run_invariant (fun q => Inv q ∧ ∃ h, Sound { cfg with pointers := true } q h) (fun a => a.shuts = false) ?_ actions {} q
      ⟨(sound_init { cfg with pointers := true }).inv rfl ⟨⟨rfl, rfl⟩, fun _ => rfl, nofun, fun waits => absurd rfl waits⟩, {},
        sound_init _⟩ open_ ran
    rintro q action q' ⟨inv, h, sound⟩ open_ stepped
    have sound' := step_sound action sound (Action.asynchronous_of_open open_) ((step_pointers inv cfg action).trans stepped)
    exact ⟨sound'.inv rfl (step_awake inv action open_ stepped), _, sound'⟩
  refine ⟨⟨q.inflight, inv.order, ?_⟩, fun r r' => inv.owner.unique, inv.owner, ?_, fun waits enabled settled => ?_⟩
  · unfold WorkQueue.inflight
    split
    · rename_i runner _
      cases runner.pc <;> simp [RunnerPc.inflight]
    · simp
  · rw [inv.running, Option.isSome_iff_ne_none]
  · rcases inv.wakeup waits enabled with ⟨r, runner, current, _⟩ | ⟨t, looks⟩
    · exact ⟨r, (inv.owner r).mp current⟩
    · have pends : (q.threads t).pending = true := by
        cases pc : q.threads t <;> simp_all [Thread.looking, Thread.pending]
      rw [settled t] at pends
      cases pends

/-- Two threads enqueue, the first starts the runner 5, which has handed over one entry when the second
thread finds it running. -/
def twoProducers : List (Action Nat) :=
  [.call 0 (.enqueue 7), .thread 0 5, .thread 0 5, .call 1 (.enqueue 8), .thread 1 5, .thread 1 5,
    .thread 0 5, .thread 0 5, .thread 0 5, .thread 0 5, .thread 0 5,
    .dispatch 5, .runner 5 true, .runner 5 true, .runner 5 true, .runner 5 true, .runner 5 true,
    .thread 1 5, .thread 1 5, .thread 1 5]

theorem twoProducers_watched : ∃ q, run (WorkQueue.step {}) {} twoProducers = .ok q ∧ q.pushed = [7, 8] ∧
    q.delivered = [7] ∧ q.queue = [8] ∧ ∃ r, q.owns r := by
  refine ⟨_, rfl, rfl, rfl, rfl, ?_⟩
  refine (delivered_in_order {} twoProducers _ rfl (by decide)).2.2.2.2 (List.cons_ne_nil _ _) rfl fun t => ?_
  match t with
  | 0 => rfl
  | 1 => rfl
  | _ + 2 => rfl

end TFCommon.QueueTask
