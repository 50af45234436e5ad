import TFCommon.SandeshClient.Reactions

/-! The sessions of the client over any sequence of dequeued events: which states have one, and what becomes of each. -/
namespace TFCommon.SandeshClient

def State.hasSession : State → Bool
  | .connect | .clientInit | .established => true
  | .idle | .disconnect => false

inductive Input where
  | reset
  | event (e : Event) (mgr : Mgr)
deriving DecidableEq, Repr

namespace Machine

def feed (m : Machine) : Input → Except Fault Machine
  | .reset => .ok (m.setIdleHoldTime 0)
  | .event e mgr => m.dequeueEvent mgr e

def deletes (m : Machine) (s : SessionId) : Nat := m.queue.count (.tcpDeleteSession s)

def Ledger (m : Machine) : Prop :=
  (∀ s, m.session = some s → s < m.created) ∧
    ∀ s, m.deletes s = if s < m.created ∧ m.session ≠ some s then 1 else 0

def Sound (m : Machine) : Prop := m.session.isSome = m.state.hasSession ∧ m.Ledger

def link (m : Machine) : Option SessionId × Nat × List Event := (m.session, m.created, m.queue)

variable {m next : Machine} {mgr : Mgr}

theorem Ledger.congr (ledger : m.Ledger) (same : next.link = m.link) : next.Ledger := by
  simp only [link, Prod.mk.injEq] at same
  obtain ⟨session, created, queue⟩ := same
  unfold Ledger deletes
  rw [session, created, queue]
  exact ledger

theorem link_startIdleHoldTimer : m.startIdleHoldTimer.link = m.link := by
  unfold startIdleHoldTimer
  split <;> rfl

theorem link_leave : m.leave.link = m.link := by
  unfold leave
  split <;> rfl

theorem state_startIdleHoldTimer : m.startIdleHoldTimer.state = m.state := by
  unfold startIdleHoldTimer
  split <;> rfl

theorem session_of_link (same : next.link = m.link) : next.session = m.session := congrArg Prod.fst same

section
variable (ledger : m.Ledger)
include ledger

theorem Ledger.setSession_none : (m.setSession none).Ledger ∧ (m.setSession none).session = none := by
  unfold setSession
  rcases Option.eq_none_or_eq_some m.session with free | ⟨old, held⟩
  · rw [free]
    refine ⟨?_, rfl⟩
    exact ledger.congr (by simp only [link, free])
  · rw [held]
    refine ⟨⟨nofun, fun s => ?_⟩, rfl⟩
    have before := ledger.2 s
    have made := ledger.1 old held
    simp only [deletes, enqueue, List.count_append] at before ⊢
    rw [before, held]
    by_cases same : s = old
    · subst same
      simp [made]
    · have other : old ≠ s := fun h => same h.symm
      simp [other]

theorem Ledger.startSession (free : m.session = none) :
    ({ m with created := m.created + 1 }.setSession (some m.created)).Ledger := by
  unfold setSession
  rw [free]
  refine ⟨fun s h => (by cases h; exact Nat.lt_succ_self _), fun s => ?_⟩
  have before := ledger.2 s
  simp only [deletes] at before ⊢
  rw [before, free]
  by_cases same : s = m.created
  · subst same
    simp
  · have other : m.created ≠ s := fun h => same h.symm
    have older : s < m.created + 1 ↔ s < m.created :=
      ⟨fun below => (Nat.lt_succ_iff_lt_or_eq.mp below).resolve_right same, Nat.lt_succ_of_lt⟩
    simp [other, older]

theorem Ledger.onIdle : m.onIdle.Ledger ∧ m.onIdle.session = none := by
  exact Ledger.setSession_none (ledger.congr rfl)

theorem Ledger.toIdleState (free : m.session = none) : m.toIdleState.Sound := by
  have same : m.toIdleState.link = m.link := link_leave
  exact ⟨by rw [session_of_link same, free]; rfl, ledger.congr same⟩

theorem transitToIdle_sound : m.transitToIdle.Sound := by
  obtain ⟨kept, free⟩ := (ledger.congr link_leave).onIdle
  exact ⟨by rw [transitToIdle, free]; rfl, kept.congr rfl⟩

theorem afterIdle_sound : m.onIdle.startIdleHoldTimer.toIdleState.Sound := by
  obtain ⟨kept, free⟩ := ledger.onIdle
  exact (kept.congr link_startIdleHoldTimer).toIdleState ((session_of_link link_startIdleHoldTimer).trans free)

end

/-! ### Outcomes of the reactions -/

abbrev Fine (result : Except Fault Machine) : Prop := Verdict Sound (· = .nullSession) result

theorem derefSession_ok (held : m.session ≠ none) : m.derefSession = .ok () := if_neg held

section
variable (ledger : m.Ledger)
include ledger

section
variable (held : m.session ≠ none)
include held

theorem toIdle_fine : Fine m.toIdle := by
  rw [toIdle, derefSession_ok held]
  exact afterIdle_sound ledger

theorem connectToIdle_fine : Fine m.connectToIdle := by
  rw [connectToIdle, derefSession_ok held]
  exact afterIdle_sound (ledger.congr rfl)

omit held in
theorem toConnect_fine (free : m.session = none) (creates : mgr.createSMSession = true) : Fine (m.toConnect mgr) := by
  have left : ({ m.leave with state := .connect } : Machine).link = m.link := link_leave (m := m)
  have started := (ledger.congr left).startSession (session_of_link left ▸ free)
  rw [toConnect, Machine.startSession, if_pos creates]
  refine ⟨?_, started.congr rfl⟩
  unfold setSession
  split <;> rfl

theorem reconnect_fine (creates : mgr.createSMSession = true) : Fine (m.reconnect mgr) := by
  rw [reconnect, derefSession_ok held]
  obtain ⟨kept, free⟩ := ledger.onIdle
  exact toConnect_fine kept free creates

theorem toClientInit_fine : Fine (.ok m.toClientInit) := by
  have left : m.toClientInit.link = m.link := link_leave
  refine ⟨?_, ledger.congr left⟩
  rw [session_of_link left]
  exact Option.isSome_iff_ne_none.mpr held

theorem toEstablished_fine : Fine m.toEstablished := by
  have left : ({ m.leave with state := .established, attempts := 0 } : Machine).link = m.link := link_leave
  have still : ({ m.leave with state := .established, attempts := 0 } : Machine).session ≠ none :=
    session_of_link left ▸ held
  rw [toEstablished]
  simp only [derefSession_ok still]
  exact ⟨Option.isSome_iff_ne_none.mpr still, ledger.congr left⟩

end

end

theorem Sound.congr (sound : m.Sound) (same : next.link = m.link) (state : next.state = m.state) : next.Sound :=
  ⟨by rw [session_of_link same, state]; exact sound.1, sound.2.congr same⟩

theorem Sound.held (sound : m.Sound) (state : m.state.hasSession = true) : m.session ≠ none :=
  Option.isSome_iff_ne_none.mp (sound.1.trans state)

theorem Sound.free (sound : m.Sound) (state : m.state.hasSession = false) : m.session = none :=
  Option.not_isSome_iff_eq_none.mp (by rw [sound.1, state]; exact Bool.false_ne_true)

theorem Selected.link (selected : Selected m next) : next.link = m.link := by
  cases selected <;> rfl

theorem Selected.state (selected : Selected m next) : next.state = m.state := by
  cases selected <;> rfl

theorem Reaction.fine {result : Except Fault Machine} (reaction : Reaction m mgr result) (sound : m.Sound)
    (creates : mgr.createSMSession = true) : Fine result := by
  have held (state : m.state.hasSession = true) {n : Machine} (selected : Selected m n) : n.session ≠ none :=
    session_of_link selected.link ▸ sound.held state
  have ledger {n : Machine} (selected : Selected m n) : n.Ledger := sound.2.congr selected.link
  cases reaction with
  | stay selected => exact sound.congr selected.link selected.state
  | stop => exact transitToIdle_sound sound.2
  | hold here => exact sound.congr link_startIdleHoldTimer state_startIdleHoldTimer
  | disarm here => exact sound.congr rfl rfl
  | disconnect here =>
    have left : m.toDisconnect.link = m.link := link_leave
    exact ⟨by rw [session_of_link left, sound.free (by rw [here]; rfl)]; rfl, sound.2.congr left⟩
  | connect here selected =>
    have free : m.session = none := sound.free (by rcases here with here | here <;> rw [here] <;> rfl)
    exact toConnect_fine (ledger selected) ((session_of_link selected.link).trans free) creates
  | fail here selected => exact connectToIdle_fine (ledger selected) (held (by rw [here]; rfl) selected)
  | init here => exact toClientInit_fine (sound.2.congr rfl) (sound.held (by rw [here]; rfl))
  | name source => exact sound.congr rfl rfl
  | @establish n here source named =>
    have same : n.link = m.link := by rw [named]; rfl
    have still : n.session ≠ none := session_of_link same ▸ sound.held (by rw [here]; rfl)
    rw [derefSession_ok still]
    exact toEstablished_fine (sound.2.congr same) still
  | send here =>
    rw [derefSession_ok (sound.held (by rcases here with here | here <;> rw [here] <;> rfl))]
    exact sound
  | idle here selected =>
    exact toIdle_fine (ledger selected) (held (by rcases here with here | here <;> rw [here] <;> rfl) selected)
  | reconnect here selected => exact reconnect_fine (ledger selected) (held (by rw [here]; rfl) selected) creates

/-- The event makes the machine call `CreateSMSession`. -/
def asks (m : Machine) : Event → Bool
  | .idleHoldTimerExpired _ => m.state = .idle
  | .collectorUpdate collectors => m.state = .disconnect || (m.state = .established && (m.collectorUpdate collectors).1)
  | .tcpClose _ => m.state = .established && m.collectorChange.1
  | _ => false

theorem dequeueEvent_unasked {e : Event} (unasked : m.asks e = false) :
    m.dequeueEvent mgr e = m.dequeueEvent { mgr with createSMSession := true } e := by
  unfold dequeueEvent processEvent
  cases state : m.state <;> cases e <;>
    simp_all [asks, reactIdle, reactDisconnect, reactClientInit, reactEstablished]

def Creates (m : Machine) : Input → Prop
  | .reset => True
  | .event e mgr => m.asks e = true → mgr.createSMSession = true

instance (m : Machine) (i : Input) : Decidable (Creates m i) :=
  match i with
  | .reset => isTrue trivial
  | .event e mgr => inferInstanceAs (Decidable (m.asks e = true → mgr.createSMSession = true))

/-- In every run in which `CreateSMSession` returns a session whenever it is called: a session is current exactly in `CONNECT`, `CLIENT_INIT` and
`ESTABLISHED`, the deletion of a session is enqueued once, when it stops being current, and no reaction dereferences a
NULL session. -/
theorem session_lifecycle (inputs : List Input) (creates : Throughout feed Creates {} inputs) :
    Safe feed
      (fun m => (m.session ≠ none ↔ m.state = .connect ∨ m.state = .clientInit ∨ m.state = .established) ∧
        ∀ s, s < m.created → m.deletes s = if m.session = some s then 0 else 1)
      (· = .nullSession) {} inputs := by
  refine safe_of_throughout (I := Sound) ?_ ?_ inputs {} ⟨rfl, nofun, fun s => rfl⟩ creates
  · intro m sound
    constructor
    · rw [← Option.isSome_iff_ne_none, sound.1]
      cases m.state <;> decide
    · intro s made
      rw [sound.2.2 s]
      by_cases current : m.session = some s
      · simp [current]
      · simp [made]
  · intro m i sound creates
    cases i with
    | reset => exact sound.congr rfl rfl
    | event e mgr =>
      by_cases asked : m.asks e = true
      · exact (dequeueEvent_reaction m mgr e).fine sound (creates asked)
      · rw [feed, dequeueEvent_unasked (Bool.eq_false_iff.mpr asked)]
        exact (dequeueEvent_reaction m { mgr with createSMSession := true } e).fine sound rfl

/-- The first collector, when the socket of the session cannot be opened. -/
theorem session_not_created :
    run feed {} [.event .start {}, .event (.collectorUpdate [1]) { createSMSession := false }] = .error .nullSession := by
  decide

theorem session_lifecycle_reconnect :
    ∃ m, run feed {} [.event .start {}, .event (.collectorUpdate [1, 2]) {}, .event (.tcpConnected 0) {},
        .event (.sandeshMessageRecv 0 true []) {}, .event (.tcpClose 0) {}] = .ok m ∧
      m.session = some 1 ∧ ((m.session ≠ none ↔ m.state = .connect ∨ m.state = .clientInit ∨ m.state = .established) ∧
        ∀ s, s < m.created → m.deletes s = if m.session = some s then 0 else 1) := by
  have safe := session_lifecycle [.event .start {}, .event (.collectorUpdate [1, 2]) {}, .event (.tcpConnected 0) {},
    .event (.sandeshMessageRecv 0 true []) {}, .event (.tcpClose 0) {}] (throughout_of_check _ _ _ (by decide +kernel)) _ []
    (List.append_nil _).symm
  obtain ⟨m, ran, seen⟩ := ok_of_seen (f := session) (b := some 1)
    (x := run feed {} [.event .start {}, .event (.collectorUpdate [1, 2]) {}, .event (.tcpConnected 0) {},
      .event (.sandeshMessageRecv 0 true []) {}, .event (.tcpClose 0) {}]) (by decide +kernel)
  rw [ran] at safe
  exact ⟨m, ran, seen, safe⟩

end Machine

end TFCommon.SandeshClient
