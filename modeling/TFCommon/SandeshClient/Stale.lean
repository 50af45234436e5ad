import TFCommon.SandeshClient.Reactions

/-! Events that come too late: expiries of timer runs that have been cancelled since, and events of sessions that are not
current any more. -/
namespace TFCommon.SandeshClient

namespace Machine

def stale (m : Machine) : Event → Bool
  | .idleHoldTimerExpired run => run ≤ m.idleHoldTimer.cancelledRuns
  | .connectTimerExpired run => run ≤ m.connectTimer.cancelledRuns
  | _ => false

def misleads (m : Machine) (e : Event) : Bool :=
  m.stale e &&
    match e, m.state with
    | .idleHoldTimerExpired _, .idle => true
    | .connectTimerExpired _, .connect | .connectTimerExpired _, .clientInit => m.connectTimer.state ≠ .cancelled
    | _, _ => false

end Machine

structure Watched where
  machine : Machine := {}
  -- An `EvStop` was processed, and no `EvStart` since.
  stopped : Bool := false
  -- A stale expiry has caused a transition.
  moved : Bool := false
deriving DecidableEq, Repr

namespace Watched

def observe (stopped : Bool) : Event → Bool
  | .start => false
  | .stop => true
  | _ => stopped

def step (w : Watched) (a : Action) : Except Fault Watched := do
  let next ← w.machine.step a
  match a, w.machine.queue with
  | .dequeue _, e :: _ =>
    return ⟨next, observe w.stopped e, w.moved || (w.machine.stale e && next.state ≠ w.machine.state)⟩
  | _, _ => return { w with machine := next }

def Harmless (w : Watched) : Action → Prop
  | .dequeue _ => ∀ e, w.machine.queue.head? = some e → w.machine.misleads e = false
  | _ => True

instance (w : Watched) (a : Action) : Decidable (w.Harmless a) :=
  match a with
  | .dequeue _ => inferInstanceAs (Decidable (∀ e, w.machine.queue.head? = some e → w.machine.misleads e = false))
  | .setAdminState _ | .setCollectors _ | .sendSandesh _ | .onSessionEvent _ _ | .onMessage _ _ _ | .idleHoldTimerExpired
  | .connectTimerExpired => isTrue trivial

end Watched

namespace Machine

/-! ### What reactions leave alone -/

structure Grows (m next : Machine) : Prop where
  runs : m.idleHoldTimer.run ≤ next.idleHoldTimer.run
  expiries : ∀ run, .idleHoldTimerExpired run ∈ next.queue → .idleHoldTimerExpired run ∈ m.queue

variable {m middle next : Machine} {mgr : Mgr} {e : Event}

theorem Grows.refl (m : Machine) : Grows m m := ⟨Nat.le_refl _, fun _ => id⟩

theorem Grows.trans (first : Grows m middle) (second : Grows middle next) : Grows m next :=
  ⟨Nat.le_trans first.runs second.runs, fun run inside => first.expiries run (second.expiries run inside)⟩

theorem Grows.of_eq (timer : next.idleHoldTimer = m.idleHoldTimer) (queue : next.queue = m.queue) : Grows m next :=
  ⟨Nat.le_of_eq (by rw [timer]), fun run inside => queue ▸ inside⟩

theorem setSession_grows (s : Option SessionId) : Grows m (m.setSession s) := by
  unfold setSession
  split
  · exact .of_eq rfl rfl
  · refine ⟨Nat.le_refl _, fun run inside => ?_⟩
    simpa [enqueue] using inside

theorem onIdle_grows : Grows m m.onIdle := by
  have timers : Grows m
      (m.setIdleHoldTime (if m.idleHoldTime = 0 then kIdleHoldTime else m.idleHoldTime)).cancelIdleHoldTimer :=
    ⟨Nat.le_refl _, fun _ => id⟩
  exact timers.trans (setSession_grows none)

theorem startIdleHoldTimer_grows : Grows m m.startIdleHoldTimer := by
  unfold startIdleHoldTimer
  split
  · exact .refl m
  · refine ⟨?_, fun _ => id⟩
    simp only [Timer.start]
    split
    · exact Nat.le_refl _
    · exact Nat.le_succ _

theorem leave_grows : Grows m m.leave := by
  unfold leave
  split <;> exact ⟨Nat.le_refl _, fun _ => id⟩

theorem toIdleState_grows : Grows m m.toIdleState := leave_grows.trans (.of_eq rfl rfl)

theorem afterIdle_grows : Grows m m.onIdle.startIdleHoldTimer.toIdleState :=
  (onIdle_grows.trans startIdleHoldTimer_grows).trans toIdleState_grows

theorem transitToIdle_grows : Grows m m.transitToIdle := (leave_grows.trans onIdle_grows).trans (.of_eq rfl rfl)

theorem of_derefSession {result : Except Fault Machine} (ran : (do m.derefSession; result) = .ok next) : result = .ok next := by
  obtain ⟨_, _, rest⟩ := bind_ok ran
  exact rest

theorem toIdle_spec (ran : m.toIdle = .ok next) : Grows m next ∧ next.state = .idle := by
  cases of_derefSession ran
  exact ⟨afterIdle_grows, rfl⟩

theorem connectToIdle_spec (ran : m.connectToIdle = .ok next) : Grows m next ∧ next.state = .idle := by
  cases of_derefSession ran
  have held : Grows m (m.setIdleHoldTime (m.getConnectTime * 1000)) := .of_eq rfl rfl
  exact ⟨held.trans afterIdle_grows, rfl⟩

theorem setSession_state (s : Option SessionId) : (m.setSession s).state = m.state := by
  unfold setSession
  split <;> rfl

theorem toConnect_spec (ran : m.toConnect mgr = .ok next) : Grows m next ∧ next.state = .connect := by
  obtain ⟨started, begun, rest⟩ := bind_ok ran
  cases rest
  unfold startSession at begun
  split at begun
  · cases begun
    have left : Grows m { m.leave with state := .connect, created := m.leave.created + 1 } :=
      leave_grows.trans (.of_eq rfl rfl)
    exact ⟨(left.trans (setSession_grows _)).trans (.of_eq rfl rfl), setSession_state _⟩
  · cases begun

theorem reconnect_grows (ran : m.reconnect mgr = .ok next) : Grows m next :=
  onIdle_grows.trans (toConnect_spec (of_derefSession ran)).1

theorem toEstablished_spec (ran : m.toEstablished = .ok next) : Grows m next ∧ next.state = .established := by
  cases of_derefSession ran
  exact ⟨leave_grows.trans (.of_eq rfl rfl), rfl⟩

theorem Selected.grows (selected : Selected m next) : Grows m next := by
  cases selected <;> exact .of_eq rfl rfl

theorem Reaction.grows {result : Except Fault Machine} (reaction : Reaction m mgr result) (ran : result = .ok next) :
    Grows m next := by
  cases reaction with
  | stay selected =>
    cases ran
    exact selected.grows
  | stop =>
    cases ran
    exact transitToIdle_grows
  | hold here =>
    cases ran
    exact startIdleHoldTimer_grows
  | disarm here =>
    cases ran
    exact ⟨Nat.le_refl _, fun _ => id⟩
  | disconnect here =>
    cases ran
    exact leave_grows.trans (.of_eq rfl rfl)
  | connect here selected => exact selected.grows.trans (toConnect_spec ran).1
  | fail here selected => exact selected.grows.trans (connectToIdle_spec ran).1
  | init here =>
    cases ran
    have cancelled : Grows m m.cancelConnectTimer := .of_eq rfl rfl
    exact cancelled.trans (leave_grows.trans (.of_eq rfl rfl))
  | name source =>
    cases ran
    exact .of_eq rfl rfl
  | @establish n here source named =>
    have grown : Grows m n := .of_eq (by rw [named]) (by rw [named])
    exact grown.trans (toEstablished_spec (of_derefSession ran)).1
  | send here =>
    cases of_derefSession ran
    exact .refl m
  | idle here selected => exact selected.grows.trans (toIdle_spec ran).1
  | reconnect here selected => exact selected.grows.trans (reconnect_grows ran)

/-! ### Stale expiries -/

def Quiet (m : Machine) : Prop :=
  m.idleHoldTimer.state ≠ .running ∧ m.idleHoldTimer.run ≤ m.idleHoldTimer.cancelledRuns

theorem cancelIdleHoldTimer_quiet : m.cancelIdleHoldTimer.Quiet := ⟨nofun, Nat.le_refl _⟩

theorem transitToIdle_quiet : m.transitToIdle.Quiet := by
  unfold transitToIdle onIdle setSession
  split <;> exact cancelIdleHoldTimer_quiet

theorem stop_quiet (ran : m.dequeueEvent mgr .stop = .ok next) : next.state = .idle ∧ next.Quiet := by
  change m.processEvent mgr .stop = .ok next at ran
  unfold processEvent at ran
  split at ran
  · rename_i here
    cases ran
    exact ⟨here, cancelIdleHoldTimer_quiet⟩
  all_goals
    cases ran
    exact ⟨rfl, transitToIdle_quiet⟩

theorem idle_stays (here : m.state = .idle) (notStart : e ≠ .start) (notStop : e ≠ .stop)
    (notExpired : ∀ run, e ≠ .idleHoldTimerExpired run) (ran : m.dequeueEvent mgr e = .ok next) :
    next.state = .idle ∧ next.idleHoldTimer = m.idleHoldTimer := by
  unfold dequeueEvent at ran
  split at ran
  · rw [processEvent, here] at ran
    cases e with
    | start => exact absurd rfl notStart
    | stop => exact absurd rfl notStop
    | idleHoldTimerExpired run => exact absurd rfl (notExpired run)
    | _ =>
      cases ran
      exact ⟨here, rfl⟩
  · cases ran
    exact ⟨here, rfl⟩

theorem stale_stays (stale : m.stale e = true) (harmless : m.misleads e = false) (ran : m.dequeueEvent mgr e = .ok next) :
    next.state = m.state := by
  cases e with
  | idleHoldTimerExpired run =>
    change m.processEvent mgr (.idleHoldTimerExpired run) = .ok next at ran
    unfold processEvent at ran
    cases here : m.state with
    | idle => simp [misleads, stale, here] at harmless
    | _ =>
      rw [here] at ran
      cases ran
      exact here
  | connectTimerExpired run =>
    unfold dequeueEvent at ran
    split at ran
    · rename_i valid
      have notCancelled : m.connectTimer.state ≠ .cancelled := of_decide_eq_true valid
      unfold processEvent at ran
      cases here : m.state with
      | connect | clientInit => simp [misleads, stale, here, notCancelled] at harmless
      | _ =>
        rw [here] at ran
        cases ran
        exact here
    · cases ran
      rfl
  | _ => cases stale

end Machine

namespace Watched
open Machine

/-- The property, and what is needed to keep it: while the machine is stopped, every expiry of the idle-hold timer that is
on the queue is stale. -/
structure Invariant (w : Watched) : Prop where
  unmoved : w.moved = false
  idle : w.stopped = true → w.machine.state = .idle
  quiet : w.stopped = true → w.machine.Quiet
  known : ∀ run, .idleHoldTimerExpired run ∈ w.machine.queue → run ≤ w.machine.idleHoldTimer.run

variable {w : Watched}

theorem Invariant.enqueue (invariant : w.Invariant) {m : Machine} (e : Event) (state : m.state = w.machine.state)
    (timer : m.idleHoldTimer = w.machine.idleHoldTimer) (queue : m.queue = w.machine.queue)
    (known : ∀ run, e = .idleHoldTimerExpired run → run ≤ m.idleHoldTimer.run) :
    Invariant { w with machine := m.enqueue e } where
  unmoved := invariant.unmoved
  idle stopped := state.trans (invariant.idle stopped)
  quiet stopped := by
    have before := invariant.quiet stopped
    change m.idleHoldTimer.state ≠ _ ∧ m.idleHoldTimer.run ≤ m.idleHoldTimer.cancelledRuns
    rw [timer]
    exact before
  known run inside := by
    rcases List.mem_append.mp inside with old | new
    · rw [queue] at old
      change run ≤ m.idleHoldTimer.run
      rw [timer]
      exact invariant.known run old
    · exact known run (List.mem_singleton.mp new).symm

theorem Invariant.dequeue (invariant : w.Invariant) {mgr : Mgr} {e : Event} {rest : List Event} {next : Machine}
    (head : w.machine.queue = e :: rest) (harmless : w.machine.misleads e = false)
    (ran : { w.machine with queue := rest }.dequeueEvent mgr e = .ok next) :
    Invariant ⟨next, observe w.stopped e, w.moved || (w.machine.stale e && next.state ≠ w.machine.state)⟩ := by
  have grows := (dequeueEvent_reaction _ _ _).grows ran
  have inQueue : ∀ run, .idleHoldTimerExpired run ∈ next.queue → .idleHoldTimerExpired run ∈ w.machine.queue :=
    fun run inside => head ▸ List.mem_cons_of_mem e (grows.expiries run inside)
  have known : ∀ run, .idleHoldTimerExpired run ∈ next.queue → run ≤ next.idleHoldTimer.run :=
    fun run inside => Nat.le_trans (invariant.known run (inQueue run inside)) grows.runs
  have unmoved : (w.moved || (w.machine.stale e && decide (next.state ≠ w.machine.state))) = false := by
    rw [invariant.unmoved]
    cases stale : w.machine.stale e with
    | false => rfl
    | true =>
      have same := stale_stays (m := { w.machine with queue := rest }) stale harmless ran
      simp [show next.state = w.machine.state from same]
  by_cases started : e = .start
  · subst started
    exact ⟨unmoved, nofun, nofun, known⟩
  · by_cases stops : e = .stop
    · subst stops
      obtain ⟨here, quiet⟩ := stop_quiet ran
      exact ⟨unmoved, fun _ => here, fun _ => quiet, known⟩
    · have same : observe w.stopped e = w.stopped := by
        unfold observe
        split
        · exact absurd rfl started
        · exact absurd rfl stops
        · rfl
      have stays (stopped : w.stopped = true) : next.state = .idle ∧ next.idleHoldTimer = w.machine.idleHoldTimer := by
        refine idle_stays (m := { w.machine with queue := rest }) (invariant.idle stopped) started stops ?_ ran
        -- all runs are cancelled, so an expiry would be stale, and mislead the machine
        rintro run rfl
        have old : run ≤ w.machine.idleHoldTimer.cancelledRuns :=
          Nat.le_trans (invariant.known run (by rw [head]; exact List.mem_cons_self)) (invariant.quiet stopped).2
        simp [misleads, stale, invariant.idle stopped, old] at harmless
      refine ⟨unmoved, fun stopped => ?_, fun stopped => ?_, known⟩
      · exact (stays (same ▸ stopped)).1
      · have timer := (stays (same ▸ stopped)).2
        have before := invariant.quiet (same ▸ stopped)
        unfold Quiet at before ⊢
        rw [timer]
        exact before

theorem step_keeps (w : Watched) (a : Action) (invariant : w.Invariant) (harmless : w.Harmless a) :
    Verdict Invariant (fun _ => False) (w.step a) := by
  unfold step Machine.step
  cases a with
  | setAdminState down =>
    cases down with
    | true => exact invariant.enqueue .stop rfl rfl rfl nofun
    | false => exact invariant.enqueue .start rfl rfl rfl nofun
  | setCollectors collectors | sendSandesh uve => exact invariant.enqueue _ rfl rfl rfl nofun
  | onSessionEvent session report =>
    dsimp only
    split
    · exact invariant.enqueue _ rfl rfl rfl (fun run h => by cases report <;> cases h)
    · exact id
  | onMessage session control source | connectTimerExpired =>
    dsimp only
    split
    · exact invariant.enqueue _ rfl rfl rfl nofun
    · exact id
  | idleHoldTimerExpired =>
    dsimp only
    split
    · refine ⟨invariant.unmoved, invariant.idle, fun stopped => ⟨nofun, (invariant.quiet stopped).2⟩, fun run inside => ?_⟩
      rcases List.mem_append.mp inside with old | new
      · exact invariant.known run old
      · cases List.mem_singleton.mp new
        exact Nat.le_refl _
    · exact id
  | dequeue mgr =>
    rcases head : w.machine.queue with _ | ⟨e, rest⟩
    · exact id
    · dsimp only
      cases ran : ({ w.machine with queue := rest } : Machine).dequeueEvent mgr e with
      | error f => exact id
      | ok next => exact invariant.dequeue head (harmless e (by rw [head]; rfl)) ran

/-- In every run in which no stale expiry is dequeued in a state that reacts to it: no stale expiry causes a transition,
and after `EvStop` the machine stays in `IDLE` until `EvStart`. -/
theorem stale_expiries_ignored (actions : List Action) (harmless : Throughout step Harmless {} actions) :
    Safe step (fun w => w.moved = false ∧ (w.stopped = true → w.machine.state = .idle)) (fun _ => False) {} actions := by
  refine safe_of_throughout (fun w invariant => ⟨invariant.unmoved, invariant.idle⟩) step_keeps actions {}
    ?_ harmless
  exact ⟨rfl, nofun, nofun, nofun⟩

/-- A connection that fails, and a stop that comes before the expiry of the idle-hold timer. -/
def lateExpiry : List Action :=
  [.setAdminState false, .dequeue {}, .setCollectors [1], .dequeue {}, .onSessionEvent 0 .connectFailed, .dequeue {},
    .dequeue {}, .setAdminState true, .idleHoldTimerExpired, .dequeue {}]

/-- The machine is in `IDLE` after the stop, and the expiry takes it to `CONNECT`. -/
theorem stale_expiry_connects :
    ((run step {} lateExpiry).toOption.map fun w => (w.machine.state, w.stopped)) = some (.idle, true) ∧
    ((run step {} (lateExpiry ++ [.dequeue {}])).toOption.map fun w => (w.machine.state, w.stopped, w.moved)) =
      some (.connect, true, true) := by
  constructor <;> decide +kernel

theorem stale_expiries_ignored_stop :
    ∃ w, run step {} lateExpiry = .ok w ∧ w.stopped = true ∧
      (w.moved = false ∧ (w.stopped = true → w.machine.state = .idle)) := by
  have safe := stale_expiries_ignored lateExpiry (throughout_of_check _ _ _ (by decide +kernel)) _ []
    (List.append_nil _).symm
  obtain ⟨w, ran, seen⟩ := ok_of_seen (f := stopped) (b := true) (x := run step {} lateExpiry) (by decide +kernel)
  rw [ran] at safe
  exact ⟨w, ran, seen, safe⟩

end Watched

/-! ### Events of old sessions -/

def Event.session : Event → Option SessionId
  | .tcpConnected s | .tcpConnectFail s | .tcpClose s | .sandeshMessageRecv s _ _ => some s
  | _ => none

namespace Machine

def old (m : Machine) (e : Event) : Bool := e.session.isSome && e.session ≠ m.session

def reacts (m : Machine) (mgr : Mgr) (e : Event) : Bool :=
  match m.state, e with
  | .connect, .tcpConnected _ | .connect, .tcpConnectFail _ | .connect, .tcpClose _ => true
  | .clientInit, .tcpClose _ | .established, .tcpClose _ => true
  | .clientInit, .sandeshMessageRecv _ control _ => !mgr.receiveMsg || control
  | .established, .sandeshMessageRecv _ _ _ => !mgr.receiveMsg
  | _, _ => false

def standing (m : Machine) : State × Option SessionId × Endpoint × Nat := (m.state, m.session, m.server, m.collectorIndex)

/-- If the next event is of an old session, the machine processes it and stands as before. -/
def IgnoresOld (m : Machine) : Action → Prop
  | .dequeue mgr => ∀ e rest, m.queue = e :: rest → m.old e = true →
      ∃ next, m.step (.dequeue mgr) = .ok next ∧ next.standing = m.standing
  | _ => True

/-- If the next event is of an old session, the state has no transition for it. -/
def DeafToOld (m : Machine) : Action → Prop
  | .dequeue mgr => ∀ e rest, m.queue = e :: rest → m.old e = true → m.reacts mgr e = false
  | _ => True

variable {m next : Machine} {mgr : Mgr} {e : Event}

theorem session_event (about : e.session.isSome = true) :
    (m.reacts mgr e = true ∧ ∀ next, m.processEvent mgr e = .ok next → next.state ≠ m.state) ∨
      m.reacts mgr e = false ∧ ∃ next, m.processEvent mgr e = .ok next ∧ next.standing = m.standing := by
  unfold processEvent Machine.reacts
  cases here : m.state with
  | idle | disconnect =>
    cases e with
    | tcpConnected s | tcpConnectFail s | tcpClose s | sandeshMessageRecv s control source => exact .inr ⟨rfl, m, rfl, rfl⟩
    | _ => cases about
  | connect =>
    cases e with
    | tcpConnected s =>
      refine .inl ⟨rfl, ?_⟩
      rintro next ⟨⟩
      exact nofun
    | tcpConnectFail s | tcpClose s => exact .inl ⟨rfl, fun next ran => by simp [connectToIdle_spec ran]⟩
    | sandeshMessageRecv s control source => exact .inr ⟨rfl, m, rfl, rfl⟩
    | _ => cases about
  | clientInit =>
    cases e with
    | tcpConnected s | tcpConnectFail s => exact .inr ⟨rfl, m, rfl, rfl⟩
    | tcpClose s => exact .inl ⟨rfl, fun next ran => by simp [toIdle_spec ran]⟩
    | sandeshMessageRecv s control source =>
      simp only [reactClientInit]
      cases mgr.receiveMsg with
      | false => exact .inl ⟨rfl, fun next ran => by simp [toIdle_spec ran]⟩
      | true =>
        cases control with
        | false => exact .inr ⟨rfl, _, rfl, rfl⟩
        | true => exact .inl ⟨rfl, fun next ran => by simp [toEstablished_spec (of_derefSession ran)]⟩
    | _ => cases about
  | established =>
    cases e with
    | tcpConnected s | tcpConnectFail s => exact .inr ⟨rfl, m, rfl, rfl⟩
    | tcpClose s =>
      refine .inl ⟨rfl, fun next ran => ?_⟩
      simp only [reactEstablished] at ran
      split at ran
      · simp [toConnect_spec (of_derefSession ran)]
      · simp [toIdle_spec ran]
    | sandeshMessageRecv s control source =>
      simp only [reactEstablished]
      cases mgr.receiveMsg with
      | false => exact .inl ⟨rfl, fun next ran => by simp [toIdle_spec ran]⟩
      | true => exact .inr ⟨rfl, m, rfl, rfl⟩
    | _ => cases about

theorem ignoresOld_iff (m : Machine) (a : Action) : m.IgnoresOld a ↔ m.DeafToOld a := by
  cases a with
  | dequeue mgr =>
    refine forall₄_congr fun e rest head old => ?_
    obtain ⟨about, _⟩ := Bool.and_eq_true_iff.mp old
    -- no event of a session has a `validate`
    have valid : ({ m with queue := rest } : Machine).validate e = true := by
      cases e with
      | connectTimerExpired run => cases about
      | _ => rfl
    have stepped : m.step (.dequeue mgr) = ({ m with queue := rest } : Machine).processEvent mgr e := by
      simp [step, head, dequeueEvent, valid]
    rw [stepped]
    rcases session_event (m := { m with queue := rest }) about with ⟨reacts, moves⟩ | ⟨deaf, stands⟩
    · exact iff_of_false (fun ⟨next, ran, stands⟩ => moves next ran (congrArg Prod.fst stands)) (Bool.eq_false_iff.not_left.mpr reacts)
    · exact iff_of_true stands deaf
  | _ => exact Iff.rfl

/-- In every run, events of old sessions do not affect the machine exactly if none is dequeued in a state that has a
transition for it: no reaction looks at the session of its event. -/
theorem old_sessions_ignored_iff (actions : List Action) :
    Throughout step IgnoresOld {} actions ↔ Throughout step DeafToOld {} actions :=
  throughout_congr ignoresOld_iff

/-- An established session is replaced because the collector has changed, and is closed only then. -/
def lateClose : List Action :=
  [.setAdminState false, .dequeue {}, .setCollectors [1], .dequeue {}, .onSessionEvent 0 .connectComplete, .dequeue {},
    .onMessage 0 true [], .dequeue {}, .setCollectors [2], .onSessionEvent 0 .close, .dequeue {}]

/-- The close of session 0 takes the machine from `CONNECT` to `IDLE`, and drops session 1. -/
theorem old_close_drops_session :
    ((run step {} lateClose).toOption.map fun m => (m.state, m.session, m.queue.head?)) =
      some (.connect, some 1, some (.tcpClose 0)) ∧
    ((run step {} (lateClose ++ [.dequeue {}])).toOption.map fun m => (m.state, m.session)) = some (.idle, none) := by
  constructor <;> decide +kernel

end Machine

end TFCommon.SandeshClient
