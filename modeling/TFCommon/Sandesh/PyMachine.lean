import TFCommon.Lib.Run
import Mathlib.Data.List.Basic

/-! The client's `SandeshStateMachine` of `sandesh_state_machine.py`, under `shutdown` and `set_admin_state`. A callback
runs to its end before anything else happens. -/
namespace TFCommon.Sandesh.PyMachine

/-- `fsm.current`; `none` is its value before the first, deferred `EvStart`. -/
inductive State where
  | none
  | idle
  | disconnect
  | connect
  | clientInit
  | established
deriving DecidableEq, Repr

/-- `EvStop` carries how often `set_admin_state(False)` had been called before. -/
inductive Event where
  | start
  | stop (era : Nat)
  | idleHoldTimerExpired
  | connectTimerExpired (session : Nat)
  | collectorUnknown
  | tcpConnected (session : Nat)
  | tcpConnectFail (session : Nat)
  | tcpClose (session : Nat)
  | collectorChange (collectors : List String)
  | sandeshCtrlMessageRecv (session : Nat)
  | sandeshUVESend
deriving DecidableEq, Repr

def Event.session : Event → Option Nat
  | .connectTimerExpired s | .tcpConnected s | .tcpConnectFail s | .tcpClose s | .sandeshCtrlMessageRecv s => some s
  | _ => none

/-- The table of the `Fysom`; without a row an event is not consumed. -/
def fsm : State → Event → Option State
  | .none, .start => some .idle
  | .idle, .idleHoldTimerExpired | .idle, .collectorChange _ | .idle, .start => some .connect
  | .disconnect, .collectorChange _ => some .connect
  | .connect, .collectorUnknown => some .disconnect
  | .connect, .tcpConnectFail _ | .connect, .connectTimerExpired _ | .connect, .collectorChange _ => some .idle
  | .connect, .tcpConnected _ => some .clientInit
  | .clientInit, .connectTimerExpired _ | .clientInit, .tcpClose _ | .clientInit, .collectorChange _ => some .idle
  | .clientInit, .sandeshCtrlMessageRecv _ => some .established
  | .established, .tcpClose _ | .established, .collectorChange _ => some .connect
  | .established, .stop _ => some .idle
  | _, _ => none

/-- `_collectors` and `_collector_index`, where `none` is -1. -/
structure Collectors where
  list : List String
  index : Option (Fin list.length) := none

def Collectors.collector (c : Collectors) : Option String := c.index.map c.list.get

/-- `_get_next_collector`; the answer is the collector that is active then. -/
def Collectors.getNextCollector (c : Collectors) : Collectors where
  list := c.list
  index :=
    match c.index with
    | none => if h : 0 < c.list.length then some ⟨0, h⟩ else none
    | some i => some (if h : i + 1 < c.list.length then ⟨i + 1, h⟩ else ⟨0, i.pos⟩)

structure SandeshStateMachine where
  state : State := .none
  -- sessions are known by the order of their creation
  session : Option Nat := none
  created : Nat := 0
  disable : Bool := false
  idleHoldTimer : Bool := false
  connectTimer : Option Nat := none
  collectors : Collectors
  eventQueue : List Event := []
  -- the calls of `set_admin_state(False)`, and whether an `EvStop` was dequeued that is later than all of them
  era : Nat := 0
  stopped : Bool := false

inductive SessionEvent where
  | established
  | error
  | close
deriving DecidableEq, Repr

inductive Action where
  | initialize_
  | shutdown
  | setAdminState (down : Bool)
  | setCollectors (collectors : List String)
  | onSessionEvent (session : Nat) (event : SessionEvent)
  | onSandeshCtrlMsgReceive (session : Nat) (success : Bool)
  | onSandeshUveMsgSend
  | idleHoldTimerExpiry
  | connectTimerExpiry
  | dequeueEvent
deriving DecidableEq, Repr

/-- There is no timer that runs, or no event in the queue. -/
inductive Fault where
  | blocked
deriving DecidableEq, Repr

namespace SandeshStateMachine

def enqueueEvent (m : SandeshStateMachine) (e : Event) : SandeshStateMachine := { m with eventQueue := m.eventQueue ++ [e] }

def onIdle (m : SandeshStateMachine) : SandeshStateMachine :=
  { m with connectTimer := none, session := none, idleHoldTimer := m.idleHoldTimer || !m.disable }

def onConnect (m : SandeshStateMachine) : SandeshStateMachine :=
  let m := { m with idleHoldTimer := false, session := none, collectors := m.collectors.getNextCollector }
  match m.collectors.collector with
  | some _ => { m with session := some m.created, created := m.created + 1, connectTimer := m.connectTimer <|> some m.created }
  | none => m.enqueueEvent .collectorUnknown

/-- A transition, with the callback of the state that is entered. -/
def enter (m : SandeshStateMachine) : State → SandeshStateMachine
  | .idle => { m with state := .idle }.onIdle
  | .connect => { m with state := .connect }.onConnect
  | .established => { m with state := .established, connectTimer := none }
  | dst => { m with state := dst }

/-- What `_dequeue_event` does first with an `EvCollectorChange`; the flag says that it does nothing else. -/
def changeCollectors (m : SandeshStateMachine) : Event → Bool × SandeshStateMachine
  | .collectorChange [] => (false, { m with collectors := ⟨[], none⟩ })
  | .collectorChange (c :: rest) =>
    if m.collectors.collector = some c then (true, { m with collectors := ⟨c :: rest, some 0⟩ })
    else (false, { m with collectors := ⟨c :: rest, none⟩ })
  | _ => (false, m)

/-- `_dequeue_event`. What is passed on to the connection, an `EvSandeshUVESend` and in `ESTABLISHED` an
`EvSandeshCtrlMessageRecv`, has no row in the table. -/
def dequeue (m : SandeshStateMachine) (e : Event) : SandeshStateMachine :=
  if e.session ≠ none ∧ e.session ≠ m.session then m
  else if (m.changeCollectors e).1 then (m.changeCollectors e).2
  else
    match fsm m.state e with
    | none => (m.changeCollectors e).2
    | some dst => (m.changeCollectors e).2.enter dst

def shutdown (m : SandeshStateMachine) : SandeshStateMachine := { m with disable := true }.enqueueEvent (.stop m.era)

def step (m : SandeshStateMachine) : Action → Except Fault SandeshStateMachine
  | .initialize_ => .ok (m.enqueueEvent .start)
  | .shutdown => .ok m.shutdown
  | .setAdminState true => .ok m.shutdown
  | .setAdminState false => .ok ({ m with disable := false, era := m.era + 1, stopped := false }.enqueueEvent .start)
  | .setCollectors collectors => .ok (m.enqueueEvent (.collectorChange collectors))
  | .onSessionEvent session event =>
    if m.session ≠ some session then .ok m
    else match event with
      | .established => .ok (m.enqueueEvent (.tcpConnected session))
      | .error => .ok (m.enqueueEvent (.tcpConnectFail session))
      | .close => .ok (m.enqueueEvent (.tcpClose session))
  | .onSandeshCtrlMsgReceive session true => .ok (m.enqueueEvent (.sandeshCtrlMessageRecv session))
  -- what `self._session.close()` leads to are actions of their own
  | .onSandeshCtrlMsgReceive _ false => .ok m
  | .onSandeshUveMsgSend => .ok (m.enqueueEvent .sandeshUVESend)
  | .idleHoldTimerExpiry =>
    if m.idleHoldTimer then .ok ({ m with idleHoldTimer := false }.enqueueEvent .idleHoldTimerExpired) else .error .blocked
  | .connectTimerExpiry =>
    match m.connectTimer with
    | none => .error .blocked
    | some session => .ok ({ m with connectTimer := none }.enqueueEvent (.connectTimerExpired session))
  | .dequeueEvent =>
    match m.eventQueue with
    | [] => .error .blocked
    | e :: rest =>
      .ok { { m with eventQueue := rest }.dequeue e with stopped := m.stopped || e == .stop m.era }

/-- Once stopped, the machine is in `IDLE` with no session and no timer. -/
def Obeys (m : SandeshStateMachine) : Prop :=
  m.stopped = true → m.state = .idle ∧ m.session = none ∧ m.idleHoldTimer = false ∧ m.connectTimer = none

/-- What leads out of `IDLE`: a list with the same active collector does not. -/
def LeavesIdle (m : SandeshStateMachine) (e : Event) : Prop :=
  e = .start ∨ e = .idleHoldTimerExpired ∨
    ∃ list, e = .collectorChange list ∧ ¬ (list ≠ [] ∧ m.collectors.collector = list.head?)

/-- An `EvStop` is dequeued in `ESTABLISHED`, or in `IDLE` without the idle-hold timer; and once stopped, nothing is that
leads out of `IDLE`. -/
def Harmless (m : SandeshStateMachine) : Action → Prop
  | .dequeueEvent => ∀ e, m.eventQueue.head? = some e →
    (e = .stop m.era → m.state = .established ∨ m.state = .idle ∧ m.idleHoldTimer = false) ∧
    (m.stopped = true → ¬ m.LeavesIdle e)
  | _ => True

structure Inv (m : SandeshStateMachine) : Prop where
  idle : m.state = .idle → m.session = none ∧ m.connectTimer = none
  timer : m.idleHoldTimer = true → m.state = .idle
  asked : .stop m.era ∈ m.eventQueue → m.disable = true
  past : ∀ era, .stop era ∈ m.eventQueue → era ≤ m.era
  obeys : m.Obeys

variable {m : SandeshStateMachine} {e : Event}

theorem Inv.enqueue (inv : Inv m) (asks : ∀ era, e = .stop era → era = m.era ∧ m.disable = true) : Inv (m.enqueueEvent e) where
  __ := inv
  asked member := by
    rcases List.mem_append.mp member with old | new
    · exact inv.asked old
    · exact (asks _ (List.mem_singleton.mp new).symm).2
  past era member := by
    rcases List.mem_append.mp member with old | new
    · exact inv.past era old
    · exact Nat.le_of_eq (asks era (List.mem_singleton.mp new).symm).1

theorem enter_spec (inv : Inv m) {dst : State} (row : fsm m.state e = some dst) (c : Collectors) :
    let n := { m with collectors := c }.enter dst
    n.state = dst ∧ (dst = .idle → n.session = none ∧ n.connectTimer = none ∧ n.idleHoldTimer = (m.idleHoldTimer || !m.disable)) ∧
      (dst ≠ .idle → n.idleHoldTimer = false) ∧ n.disable = m.disable ∧ n.era = m.era ∧
      ∀ era, .stop era ∈ n.eventQueue → .stop era ∈ m.eventQueue := by
  have still (other : m.state ≠ .idle) : m.idleHoldTimer = false := by
    cases timer : m.idleHoldTimer with
    | false => rfl
    | true => exact absurd (inv.timer timer) other
  cases dst with
  | idle => exact ⟨rfl, fun _ => ⟨rfl, rfl, rfl⟩, nofun, rfl, rfl, fun _ => id⟩
  | connect =>
    simp only [enter, onConnect]
    split <;> simp [enqueueEvent]
  | none | disconnect | clientInit | established =>
    refine ⟨rfl, nofun, fun _ => still fun idle => ?_, rfl, rfl, fun _ => id⟩
    rw [idle] at row
    cases e <;> cases row

theorem changeCollectors_eq (m : SandeshStateMachine) (e : Event) : ∃ c, (m.changeCollectors e).2 = { m with collectors := c } := by
  unfold changeCollectors
  split
  · exact ⟨_, rfl⟩
  · split <;> exact ⟨_, rfl⟩
  · exact ⟨m.collectors, rfl⟩

theorem dequeue_cases (m : SandeshStateMachine) (e : Event) : ∃ c, m.dequeue e = { m with collectors := c } ∨
    ∃ dst, fsm m.state e = some dst ∧ m.dequeue e = { m with collectors := c }.enter dst := by
  obtain ⟨c, same⟩ := changeCollectors_eq m e
  rw [dequeue, same]
  split
  · exact ⟨m.collectors, .inl rfl⟩
  · refine ⟨c, ?_⟩
    split
    · exact .inl rfl
    · split
      · exact .inl rfl
      · rename_i dst row
        exact .inr ⟨dst, row, rfl⟩

theorem dequeue_stop (m : SandeshStateMachine) (era : Nat) :
    m.dequeue (.stop era) = if m.state = .established then m.enter .idle else m := by
  cases state : m.state <;> simp [dequeue, Event.session, changeCollectors, fsm, state]

theorem dequeue_leaves (idle : m.state = .idle) (leaves : m.LeavesIdle e) : (m.dequeue e).state = .connect := by
  have connects (n : SandeshStateMachine) : (n.enter .connect).state = .connect := by
    simp only [enter, onConnect]
    split <;> rfl
  rcases leaves with rfl | rfl | ⟨list, rfl, other⟩
  · simp [dequeue, Event.session, changeCollectors, fsm, idle, connects]
  · simp [dequeue, Event.session, changeCollectors, fsm, idle, connects]
  · cases list with
    | nil => simp [dequeue, Event.session, changeCollectors, fsm, idle, connects]
    | cons c rest =>
      have active : m.collectors.collector ≠ some c := by simpa using other
      simp [dequeue, Event.session, changeCollectors, fsm, idle, connects, active]

theorem dequeue_stays (idle : m.state = .idle) (stays : ¬ m.LeavesIdle e) : ∃ c, m.dequeue e = { m with collectors := c } := by
  obtain ⟨c, same | ⟨dst, row, moved⟩⟩ := dequeue_cases m e
  · exact ⟨c, same⟩
  · rw [idle] at row
    cases e with
    | start => exact absurd (.inl rfl) stays
    | idleHoldTimerExpired => exact absurd (.inr (.inl rfl)) stays
    | collectorChange list =>
      have kept : list ≠ [] ∧ m.collectors.collector = list.head? := by
        by_contra other
        exact stays (.inr (.inr ⟨list, rfl, other⟩))
      cases list with
      | nil => exact absurd rfl kept.1
      | cons c rest => exact ⟨⟨c :: rest, some 0⟩, by simp [dequeue, Event.session, changeCollectors, kept.2]⟩
    | _ => cases row

theorem Inv.obeys_dequeue (inv : Inv m) (disabled : e = .stop m.era → m.disable = true)
    (stops : e = .stop m.era → m.state = .established ∨ m.state = .idle ∧ m.idleHoldTimer = false)
    (stays : m.stopped = true → ¬ m.LeavesIdle e) :
    Obeys { m.dequeue e with stopped := m.stopped || e == .stop m.era } := by
  intro stopped
  cases before_ : m.stopped with
  | true =>
    obtain ⟨idle, session, timer, connect⟩ := inv.obeys before_
    obtain ⟨c, same⟩ := dequeue_stays idle (stays before_)
    rw [same]
    exact ⟨idle, session, timer, connect⟩
  | false =>
    obtain rfl : e = .stop m.era := by simpa [before_] using stopped
    rw [dequeue_stop]
    rcases stops rfl with established | ⟨idle, timer⟩
    · have timer : m.idleHoldTimer = false := by
        cases running : m.idleHoldTimer with
        | false => rfl
        | true => cases established.symm.trans (inv.timer running)
      rw [if_pos established]
      exact ⟨rfl, rfl, by simp [enter, onIdle, timer, disabled rfl], rfl⟩
    · rw [if_neg (by simp [idle])]
      exact ⟨idle, (inv.idle idle).1, timer, (inv.idle idle).2⟩

theorem Inv.dequeued {rest : List Event} (inv : Inv m) (queue : m.eventQueue = e :: rest)
    (harmless : m.Harmless .dequeueEvent) :
    Inv { { m with eventQueue := rest }.dequeue e with stopped := m.stopped || e == .stop m.era } := by
  have later : Inv { m with eventQueue := rest } :=
    { inv with
      asked := fun member => inv.asked (by rw [queue]; exact List.mem_cons_of_mem _ member)
      past := fun era member => inv.past era (by rw [queue]; exact List.mem_cons_of_mem _ member) }
  obtain ⟨stops, stays⟩ := harmless e (by rw [queue]; rfl)
  have obeys := later.obeys_dequeue (fun same => inv.asked (by simp [queue, same])) stops stays
  obtain ⟨c, same | ⟨dst, row, moved⟩⟩ := dequeue_cases { m with eventQueue := rest } e
  · rw [same] at obeys ⊢
    exact { later with obeys := obeys }
  · obtain ⟨state, idle, busy, disable, era, queued⟩ := enter_spec later row c
    rw [moved] at obeys ⊢
    refine ⟨fun now => ?_, fun running => ?_, fun member => ?_, fun k member => ?_, obeys⟩
    · obtain ⟨session, timer, _⟩ := idle (state.symm.trans now)
      exact ⟨session, timer⟩
    · by_contra other
      cases running.symm.trans (busy fun same => other (state.trans same))
    · exact disable.trans (later.asked (era ▸ queued _ member))
    · exact Nat.le_trans (later.past k (queued k member)) (Nat.le_of_eq era.symm)

theorem step_keeps (inv : Inv m) (a : Action) (harmless : m.Harmless a) : Verdict Inv (fun _ => False) (m.step a) := by
  have asked : Inv m.shutdown := Inv.enqueue { inv with asked := fun _ => rfl }
    fun _ same => ⟨(Event.stop.inj same).symm, rfl⟩
  cases a with
  | initialize_ | setCollectors | onSandeshUveMsgSend => exact inv.enqueue nofun
  | shutdown => exact asked
  | setAdminState down =>
    cases down with
    | true => exact asked
    | false =>
      refine Inv.enqueue ?_ nofun
      exact ⟨inv.idle, inv.timer, fun member => absurd (inv.past _ member) (Nat.not_succ_le_self _),
        fun era member => Nat.le_succ_of_le (inv.past era member), nofun⟩
  | onSessionEvent session event =>
    simp only [step]
    split
    · exact inv
    · cases event <;> exact inv.enqueue nofun
  | onSandeshCtrlMsgReceive session success =>
    cases success with
    | true => exact inv.enqueue nofun
    | false => exact inv
  | idleHoldTimerExpiry =>
    simp only [step]
    split
    · refine Inv.enqueue { inv with timer := nofun, obeys := fun stopped => ?_ } nofun
      obtain ⟨idle, session, _, connect⟩ := inv.obeys stopped
      exact ⟨idle, session, rfl, connect⟩
    · exact id
  | connectTimerExpiry =>
    simp only [step]
    split
    · exact id
    · refine Inv.enqueue
        { inv with idle := fun idle => ⟨(inv.idle idle).1, rfl⟩, obeys := fun stopped => ?_ } nofun
      obtain ⟨idle, session, timer, _⟩ := inv.obeys stopped
      exact ⟨idle, session, timer, rfl⟩
  | dequeueEvent =>
    simp only [step]
    split
    · exact id
    · rename_i e rest queue
      exact inv.dequeued queue harmless

theorem step_exposes (inv : Inv m) (a : Action) (verdict : Verdict Obeys (fun _ => False) (m.step a)) : m.Harmless a := by
  cases a with
  | dequeueEvent =>
    intro e head
    obtain ⟨rest, queue⟩ := List.head?_eq_some_iff.mp head
    simp only [step, queue] at verdict
    refine ⟨?_, fun stopped => ?_⟩
    · rintro rfl
      have after_ := verdict (by simp)
      rw [dequeue_stop] at after_
      by_cases established : m.state = .established
      · exact .inl established
      · rw [if_neg established] at after_
        exact .inr ⟨after_.1, after_.2.2.1⟩
    · intro leaves
      have moved := dequeue_leaves (m := { m with eventQueue := rest }) (inv.obeys stopped).1 leaves
      cases moved.symm.trans (verdict (by simp [stopped])).1
  | _ => trivial

/-- The machine obeys `shutdown` and `set_admin_state` throughout a run exactly if every event is dequeued where that does
no harm. -/
theorem shutdown_obeyed_iff (collectors : List String) (actions : List Action) :
    Safe step Obeys (fun _ => False) { collectors := ⟨collectors, none⟩ } actions ↔
      Throughout step Harmless { collectors := ⟨collectors, none⟩ } actions :=
  safe_iff (fun _ inv => Inv.obeys inv) (fun _ a inv harmless => step_keeps inv a harmless)
    (fun _ a inv verdict => step_exposes inv a verdict) actions _ ⟨nofun, nofun, nofun, nofun, nofun⟩

/-- `shutdown` while the idle-hold timer runs: its expiry takes the machine to `CONNECT`, and a session is created. -/
theorem shutdown_reconnects :
    (run step { collectors := ⟨["127.0.0.1:8086"], none⟩ }
      [.initialize_, .dequeueEvent, .shutdown, .dequeueEvent, .idleHoldTimerExpiry, .dequeueEvent]).toOption.map
        (fun m => (m.stopped, m.disable, m.state, m.session)) = some (true, true, .connect, some 0) := by
  decide

/-! ### Old sessions -/

/-- What arrives, or is dequeued, belongs to a session that is not the current one. -/
def Old (m : SandeshStateMachine) : Action → Prop
  | .onSessionEvent session _ | .onSandeshCtrlMsgReceive session _ => m.session ≠ some session
  | .dequeueEvent => ∃ e rest, m.eventQueue = e :: rest ∧ e.session ≠ none ∧ e.session ≠ m.session
  | _ => False

/-- The session that is closed: a control message that refuses closes `_session`, else it is `_delete_session` that does. -/
def closes (m next : SandeshStateMachine) : Action → Option Nat
  | .onSandeshCtrlMsgReceive _ false => m.session
  | _ => if next.session = m.session then none else m.session

/-- `self._session.close()` of `None`. The exception ends the greenlet that has read the message; the machine goes on. -/
def raises (m : SandeshStateMachine) : Action → Bool
  | .onSandeshCtrlMsgReceive _ false => m.session.isNone
  | _ => false

/-- No exception is raised, the state and the session stay as they are, and no session is closed. -/
def Ignores (m : SandeshStateMachine) (a : Action) : Prop :=
  m.raises a = false ∧
    ∃ next, m.step a = .ok next ∧ next.state = m.state ∧ next.session = m.session ∧ m.closes next a = none

/-- The current session is there for every control message that refuses, and the message is of that session. -/
def Own (m : SandeshStateMachine) (a : Action) : Prop :=
  ∀ session, a = .onSandeshCtrlMsgReceive session false → m.session = some session

theorem old_ignored_iff (a : Action) : (m.Old a → m.Ignores a) ↔ m.Own a := by
  cases a with
  | onSandeshCtrlMsgReceive session success =>
    cases success with
    | true => exact ⟨fun _ => nofun, fun _ _ => ⟨rfl, _, rfl, rfl, rfl, if_pos rfl⟩⟩
    | false =>
      refine ⟨fun ignored session' same => ?_, fun own old => absurd (own session rfl) old⟩
      cases same
      by_contra old
      obtain ⟨quiet, next, _, _, _, unclosed⟩ := ignored old
      have missing : m.session = none := unclosed
      simp [raises, missing] at quiet
  | onSessionEvent session event =>
    exact ⟨fun _ => nofun, fun _ old => ⟨rfl, m, if_pos old, rfl, rfl, if_pos rfl⟩⟩
  | dequeueEvent =>
    refine ⟨fun _ => nofun, fun _ ⟨e, rest, queue, old⟩ => ?_⟩
    simp only [Ignores, step, queue, dequeue, if_pos old]
    exact ⟨rfl, _, rfl, rfl, rfl, if_pos rfl⟩
  | _ => exact ⟨fun _ => nofun, fun _ old => old.elim⟩

/-- What belongs to an old session is ignored throughout a run exactly if no control message of one refuses. -/
theorem old_events_ignored_iff (collectors : List String) (actions : List Action) :
    Throughout step (fun m a => m.Old a → m.Ignores a) { collectors := ⟨collectors, none⟩ } actions ↔
      Throughout step Own { collectors := ⟨collectors, none⟩ } actions :=
  throughout_congr fun _ a => old_ignored_iff a

/-- A session that is given up when the connect timer expires, after its reader was started: a refusal that is read later
raises an exception, or closes the next session. -/
theorem old_refusal_closes :
    (run step { collectors := ⟨["127.0.0.1:8086"], none⟩ }
        [.initialize_, .dequeueEvent, .idleHoldTimerExpiry, .dequeueEvent, .onSessionEvent 0 .established, .dequeueEvent,
          .connectTimerExpiry, .dequeueEvent]).toOption.map
          (fun m => (m.session, m.raises (.onSandeshCtrlMsgReceive 0 false))) = some (none, true) ∧
      (run step { collectors := ⟨["127.0.0.1:8086"], none⟩ }
        [.initialize_, .dequeueEvent, .idleHoldTimerExpiry, .dequeueEvent, .onSessionEvent 0 .established, .dequeueEvent,
          .connectTimerExpiry, .dequeueEvent, .idleHoldTimerExpiry, .dequeueEvent]).toOption.map
          (fun m => m.closes m (.onSandeshCtrlMsgReceive 0 false)) = some (some 1) := by
  decide

end SandeshStateMachine

end TFCommon.Sandesh.PyMachine
