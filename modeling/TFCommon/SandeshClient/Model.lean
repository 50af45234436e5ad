import TFCommon.Lib.Run
import Mathlib.Algebra.Group.Nat.Defs

/-! The state machine of the Sandesh client (`sandesh_client_sm.cc`): its five states with their reactions, the two timers,
the sessions and the queue of events. The queue and the timers run in one task, so a reaction and an expiry are one step
each. -/
namespace TFCommon.SandeshClient

abbrev Endpoint := Nat

/-- A session is known by its place among all that were created. -/
abbrev SessionId := Nat

inductive State where
  | idle
  | disconnect
  | connect
  | clientInit
  | established
deriving DecidableEq, Repr

inductive TimerState where
  | init
  | running
  | cancelled
deriving DecidableEq, Repr

structure Timer where
  state : TimerState := .init
  -- How often it was started, which numbers its runs.
  run : Nat := 0
  -- The runs up to this one have been cancelled since they were started.
  cancelledRuns : Nat := 0
deriving DecidableEq, Repr

def Timer.start (t : Timer) : Timer := if t.state = .running then t else { t with state := .running, run := t.run + 1 }

def Timer.cancel (t : Timer) : Timer := { t with state := .cancelled, cancelledRuns := t.run }

inductive Event where
  | start
  | stop
  | collectorUpdate (collectors : List Endpoint)
  -- with the run of the timer that has expired
  | idleHoldTimerExpired (run : Nat)
  | connectTimerExpired (run : Nat)
  | tcpConnected (session : SessionId)
  | tcpConnectFail (session : SessionId)
  | tcpClose (session : SessionId)
  | tcpDeleteSession (session : SessionId)
  | sandeshSend (uve : Bool)
  -- the event of the source does not say from which session the message is
  | sandeshMessageRecv (session : SessionId) (control : Bool) (source : List Char)
deriving DecidableEq, Repr

/-- What the manager answers: whether `CreateSMSession` returns a session, and what `ReceiveMsg` returns. -/
structure Mgr where
  createSMSession : Bool := true
  receiveMsg : Bool := true
deriving DecidableEq, Repr

structure Machine where
  state : State := .idle
  session : Option SessionId := none
  created : Nat := 0
  server : Endpoint := 0
  collectors : List Endpoint := []
  collectorIndex : Nat := 0
  idleHoldTime : Nat := 0
  attempts : Nat := 0
  connects : Nat := 0
  collectorName : List Char := []
  connectTimer : Timer := {}
  idleHoldTimer : Timer := {}
  queue : List Event := []
deriving DecidableEq, Repr

inductive Fault where
  -- A NULL session is dereferenced.
  | nullSession
  | disabled
deriving DecidableEq, Repr

def kConnectInterval : Nat := 30

def kIdleHoldTime : Nat := 5000

namespace Machine

def enqueue (m : Machine) (e : Event) : Machine := { m with queue := m.queue ++ [e] }

def getConnectTime (m : Machine) : Nat :=
  let backoff := min m.attempts 6
  min (if backoff = 0 then 0 else 2 ^ (backoff - 1)) kConnectInterval

/-- The session that is replaced is to be deleted after the events that are on the queue now. -/
def setSession (m : Machine) (session : Option SessionId) : Machine :=
  match m.session with
  | none => { m with session := session }
  | some old => { m.enqueue (.tcpDeleteSession old) with session := session }

def derefSession (m : Machine) : Except Fault Unit := if m.session = none then .error .nullSession else .ok ()

def startConnectTimer (m : Machine) : Machine := { m with connectTimer := m.connectTimer.start }
def cancelConnectTimer (m : Machine) : Machine := { m with connectTimer := m.connectTimer.cancel }

def startIdleHoldTimer (m : Machine) : Machine :=
  if m.idleHoldTime = 0 then m else { m with idleHoldTimer := m.idleHoldTimer.start }

def cancelIdleHoldTimer (m : Machine) : Machine := { m with idleHoldTimer := m.idleHoldTimer.cancel }

def setIdleHoldTime (m : Machine) (time : Nat) : Machine := { m with idleHoldTime := time }

def onIdle (m : Machine) : Machine :=
  (m.setIdleHoldTime (if m.idleHoldTime = 0 then kIdleHoldTime else m.idleHoldTime)).cancelIdleHoldTimer.setSession none

/-! ### Collectors -/

def getCollector (m : Machine) : Endpoint := m.collectors.getD m.collectorIndex 0

def nextIndex (m : Machine) : Nat :=
  if m.collectors = [] then m.collectorIndex
  else if m.collectorIndex + 1 = m.collectors.length then 0
  else m.collectorIndex + 1

/-- The server becomes the selected collector; the flag says whether it is another one. -/
def select (m : Machine) : Bool × Machine := (m.server ≠ m.getCollector, { m with server := m.getCollector })

def collectorUpdate (m : Machine) (collectors : List Endpoint) : Bool × Machine :=
  { m with collectors := collectors, collectorIndex := 0 }.select

def collectorChange (m : Machine) : Bool × Machine := { m with collectorIndex := m.nextIndex }.select

/-! ### States -/

def leave (m : Machine) : Machine :=
  match m.state with
  | .idle => m.cancelIdleHoldTimer
  | .disconnect => m
  | .connect | .clientInit => m.cancelConnectTimer
  | .established => { m with collectorName := [] }

def toIdleState (m : Machine) : Machine := { m.leave with state := .idle }

def toDisconnect (m : Machine) : Machine := { m.leave with state := .disconnect }

/-- `StartSession` does not check what `CreateSMSession` returns. -/
def startSession (m : Machine) (mgr : Mgr) : Except Fault Machine :=
  if mgr.createSMSession then .ok ({ m with created := m.created + 1 }.setSession (some m.created))
  else .error .nullSession

def toConnect (m : Machine) (mgr : Mgr) : Except Fault Machine := do
  let m ← { m.leave with state := .connect }.startSession mgr
  return { m with attempts := m.attempts + 1 }.startConnectTimer

def toClientInit (m : Machine) : Machine :=
  let m := { m.leave with state := .clientInit }.cancelConnectTimer.startConnectTimer
  { m with connects := m.connects + 1 }

def toEstablished (m : Machine) : Except Fault Machine := do
  let m := { m.leave with state := .established, attempts := 0 }
  m.derefSession
  return m

def transitToIdle (m : Machine) : Machine := { m.leave.onIdle with state := .idle }

def toIdle (m : Machine) : Except Fault Machine := do
  m.derefSession
  return m.onIdle.startIdleHoldTimer.toIdleState

def connectToIdle (m : Machine) : Except Fault Machine := do
  m.derefSession
  return (m.setIdleHoldTime (m.getConnectTime * 1000)).onIdle.startIdleHoldTimer.toIdleState

/-! ### Reactions -/

def reactIdle (m : Machine) (mgr : Mgr) : Event → Except Fault Machine
  | .start => .ok (if m.idleHoldTime = 0 then m.toDisconnect else m.startIdleHoldTimer)
  | .stop => .ok m.cancelIdleHoldTimer
  | .collectorUpdate collectors => .ok (m.collectorUpdate collectors).2
  | .idleHoldTimerExpired _ => m.toConnect mgr
  | _ => .ok m

def reactDisconnect (m : Machine) (mgr : Mgr) : Event → Except Fault Machine
  | .stop => .ok m.transitToIdle
  | .collectorUpdate collectors => (m.collectorUpdate collectors).2.toConnect mgr
  | _ => .ok m

def reactConnect (m : Machine) : Event → Except Fault Machine
  | .stop => .ok m.transitToIdle
  | .connectTimerExpired _ | .tcpConnectFail _ | .tcpClose _ => m.collectorChange.2.connectToIdle
  | .tcpConnected _ => .ok m.cancelConnectTimer.toClientInit
  | .collectorUpdate collectors =>
    let (changed, m) := m.collectorUpdate collectors
    if changed then m.connectToIdle else .ok m
  | _ => .ok m

def reactClientInit (m : Machine) (mgr : Mgr) : Event → Except Fault Machine
  | .stop => .ok m.transitToIdle
  | .connectTimerExpired _ | .tcpClose _ => m.collectorChange.2.toIdle
  | .sandeshMessageRecv _ control source =>
    if mgr.receiveMsg then
      let m := { m with collectorName := source }
      if control then do
        m.derefSession
        m.toEstablished
      else .ok m
    else m.toIdle
  | .sandeshSend uve =>
    if uve then .ok m
    else do
      m.derefSession
      return m
  | .collectorUpdate collectors =>
    let (changed, m) := m.collectorUpdate collectors
    if changed then m.toIdle else .ok m
  | _ => .ok m

def reconnect (m : Machine) (mgr : Mgr) : Except Fault Machine := do
  m.derefSession
  m.onIdle.toConnect mgr

def reactEstablished (m : Machine) (mgr : Mgr) : Event → Except Fault Machine
  | .stop => .ok m.transitToIdle
  | .tcpClose _ =>
    let (changed, m) := m.collectorChange
    if changed then m.reconnect mgr else m.toIdle
  | .sandeshMessageRecv _ _ _ => if mgr.receiveMsg then .ok m else m.toIdle
  | .sandeshSend _ => do
    m.derefSession
    return m
  | .collectorUpdate collectors =>
    let (changed, m) := m.collectorUpdate collectors
    if changed then m.reconnect mgr else .ok m
  | _ => .ok m

def processEvent (m : Machine) (mgr : Mgr) (e : Event) : Except Fault Machine :=
  match m.state with
  | .idle => m.reactIdle mgr e
  | .disconnect => m.reactDisconnect mgr e
  | .connect => m.reactConnect e
  | .clientInit => m.reactClientInit mgr e
  | .established => m.reactEstablished mgr e

/-- The `validate` that `HasValidate` finds. That of `EvIdleHoldTimerExpired` has no parameter and is not found. -/
def validate (m : Machine) : Event → Bool
  | .connectTimerExpired _ => m.connectTimer.state ≠ .cancelled
  | _ => true

def dequeueEvent (m : Machine) (mgr : Mgr) (e : Event) : Except Fault Machine :=
  if m.validate e then m.processEvent mgr e else .ok m

end Machine

/-! ### The queue -/

inductive Report where
  | connectComplete
  | connectFailed
  | close
deriving DecidableEq, Repr

def Report.event (session : SessionId) : Report → Event
  | .connectComplete => .tcpConnected session
  | .connectFailed => .tcpConnectFail session
  | .close => .tcpClose session

inductive Action where
  | setAdminState (down : Bool)
  | setCollectors (collectors : List Endpoint)
  | sendSandesh (uve : Bool)
  | onSessionEvent (session : SessionId) (report : Report)
  | onMessage (session : SessionId) (control : Bool) (source : List Char)
  | idleHoldTimerExpired
  | connectTimerExpired
  | dequeue (mgr : Mgr)
deriving DecidableEq, Repr

namespace Machine

def step (m : Machine) : Action → Except Fault Machine
  | .setAdminState true => .ok (m.enqueue .stop)
  | .setAdminState false => .ok ((m.setIdleHoldTime 0).enqueue .start)
  | .setCollectors collectors => .ok (m.enqueue (.collectorUpdate collectors))
  | .sendSandesh uve => .ok (m.enqueue (.sandeshSend uve))
  | .onSessionEvent session report =>
    if session < m.created then .ok (m.enqueue (report.event session)) else .error .disabled
  | .onMessage session control source =>
    if session < m.created then .ok (m.enqueue (.sandeshMessageRecv session control source)) else .error .disabled
  | .idleHoldTimerExpired =>
    if m.idleHoldTimer.state = .running then
      .ok ({ m with idleHoldTimer := { m.idleHoldTimer with state := .init } }.enqueue
        (.idleHoldTimerExpired m.idleHoldTimer.run))
    else .error .disabled
  | .connectTimerExpired =>
    if m.connectTimer.state = .running then
      .ok ({ m with connectTimer := { m.connectTimer with state := .init } }.enqueue
        (.connectTimerExpired m.connectTimer.run))
    else .error .disabled
  | .dequeue mgr =>
    match m.queue with
    | [] => .error .disabled
    | e :: rest => { m with queue := rest }.dequeueEvent mgr e

end Machine

end TFCommon.SandeshClient
