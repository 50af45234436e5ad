import TFCommon.SandeshClient.Model

/-! What the reaction to an event can do. The case analysis over states and events is made here once; what every reaction
keeps is then shown for each of these outcomes. -/
namespace TFCommon.SandeshClient.Machine

inductive Selected (m : Machine) : Machine → Prop where
  | same : Selected m m
  | update (collectors : List Endpoint) : Selected m (m.collectorUpdate collectors).2
  | change : Selected m m.collectorChange.2

inductive Reaction (m : Machine) (mgr : Mgr) : Except Fault Machine → Prop where
  | stay {n : Machine} (selected : Selected m n) : Reaction m mgr (.ok n)
  | stop : Reaction m mgr (.ok m.transitToIdle)
  -- `IDLE`
  | hold (here : m.state = .idle) : Reaction m mgr (.ok m.startIdleHoldTimer)
  | disarm (here : m.state = .idle) : Reaction m mgr (.ok m.cancelIdleHoldTimer)
  | disconnect (here : m.state = .idle) : Reaction m mgr (.ok m.toDisconnect)
  | connect {n : Machine} (here : m.state = .idle ∨ m.state = .disconnect) (selected : Selected m n) :
      Reaction m mgr (n.toConnect mgr)
  -- `CONNECT`
  | fail {n : Machine} (here : m.state = .connect) (selected : Selected m n) : Reaction m mgr n.connectToIdle
  | init (here : m.state = .connect) : Reaction m mgr (.ok m.cancelConnectTimer.toClientInit)
  -- `CLIENT_INIT` and `ESTABLISHED`
  | name (source : List Char) : Reaction m mgr (.ok { m with collectorName := source })
  | establish {n : Machine} (here : m.state = .clientInit) {source : List Char}
      (named : n = { m with collectorName := source }) : Reaction m mgr (do n.derefSession; n.toEstablished)
  | send (here : m.state = .clientInit ∨ m.state = .established) : Reaction m mgr (do m.derefSession; return m)
  | idle {n : Machine} (here : m.state = .clientInit ∨ m.state = .established) (selected : Selected m n) :
      Reaction m mgr n.toIdle
  | reconnect {n : Machine} (here : m.state = .established) (selected : Selected m n) : Reaction m mgr (n.reconnect mgr)

variable {m : Machine} {mgr : Mgr}

theorem reactIdle_reaction (here : m.state = .idle) (e : Event) : Reaction m mgr (m.reactIdle mgr e) := by
  cases e with
  | start =>
    unfold reactIdle
    dsimp only
    split
    · exact .disconnect here
    · exact .hold here
  | stop => exact .disarm here
  | collectorUpdate collectors => exact .stay (.update collectors)
  | idleHoldTimerExpired run => exact .connect (.inl here) .same
  | _ => exact .stay .same

theorem reactDisconnect_reaction (here : m.state = .disconnect) (e : Event) : Reaction m mgr (m.reactDisconnect mgr e) := by
  cases e with
  | stop => exact .stop
  | collectorUpdate collectors => exact .connect (.inr here) (.update collectors)
  | _ => exact .stay .same

theorem reactConnect_reaction (here : m.state = .connect) (e : Event) : Reaction m mgr (m.reactConnect e) := by
  cases e with
  | stop => exact .stop
  | connectTimerExpired run | tcpConnectFail s | tcpClose s => exact .fail here .change
  | tcpConnected s => exact .init here
  | collectorUpdate collectors =>
    unfold reactConnect
    dsimp only
    split
    · exact .fail here (.update collectors)
    · exact .stay (.update collectors)
  | _ => exact .stay .same

theorem reactClientInit_reaction (here : m.state = .clientInit) (e : Event) : Reaction m mgr (m.reactClientInit mgr e) := by
  cases e with
  | stop => exact .stop
  | connectTimerExpired run | tcpClose s => exact .idle (.inl here) .change
  | sandeshMessageRecv s control source =>
    unfold reactClientInit
    dsimp only
    split
    · split
      · exact .establish here rfl
      · exact .name source
    · exact .idle (.inl here) .same
  | sandeshSend uve =>
    unfold reactClientInit
    dsimp only
    split
    · exact .stay .same
    · exact .send (.inl here)
  | collectorUpdate collectors =>
    unfold reactClientInit
    dsimp only
    split
    · exact .idle (.inl here) (.update collectors)
    · exact .stay (.update collectors)
  | _ => exact .stay .same

theorem reactEstablished_reaction (here : m.state = .established) (e : Event) :
    Reaction m mgr (m.reactEstablished mgr e) := by
  cases e with
  | stop => exact .stop
  | tcpClose s =>
    unfold reactEstablished
    dsimp only
    split
    · exact .reconnect here .change
    · exact .idle (.inr here) .change
  | sandeshMessageRecv s control source =>
    unfold reactEstablished
    dsimp only
    split
    · exact .stay .same
    · exact .idle (.inr here) .same
  | sandeshSend uve => exact .send (.inr here)
  | collectorUpdate collectors =>
    unfold reactEstablished
    dsimp only
    split
    · exact .reconnect here (.update collectors)
    · exact .stay (.update collectors)
  | _ => exact .stay .same

theorem dequeueEvent_reaction (m : Machine) (mgr : Mgr) (e : Event) : Reaction m mgr (m.dequeueEvent mgr e) := by
  unfold dequeueEvent
  split
  · unfold processEvent
    split
    · exact reactIdle_reaction ‹_› e
    · exact reactDisconnect_reaction ‹_› e
    · exact reactConnect_reaction ‹_› e
    · exact reactClientInit_reaction ‹_› e
    · exact reactEstablished_reaction ‹_› e
  · exact .stay .same

end TFCommon.SandeshClient.Machine
