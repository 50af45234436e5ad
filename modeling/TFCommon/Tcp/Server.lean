import TFCommon.Lib.Run
import Mathlib.Data.List.Basic

/-! The session map of `TcpServer`: the accept and connect handlers, `CloseInternal` and `DeleteSession` on any number
of sessions. Each section under the mutex of the server or of a session is one step, and so is `SessionEstablished`,
which an accept handler calls without a lock. -/
namespace TFCommon.Tcp.Server

inductive Handler (Endpoint : Type) where
  | fresh
  -- Accepted: before the socket options and `SessionEstablished`.
  | allocated (remote : Endpoint)
  -- Before the section of `AcceptHandlerComplete`.
  | accepting (remote : Endpoint)
  -- Connected: before `InsertSessionToMap`.
  | connecting (remote : Endpoint)
  -- Before `Connected`.
  | inserted (remote : Endpoint)
  -- Before `RemoveSessionFromMap`, since the session is closed.
  | refused (remote : Endpoint)
  -- After `AcceptHandlerComplete` of a session that `AcceptSession` has not accepted.
  | rejected
  | done
deriving DecidableEq, Repr

structure TcpSession (Endpoint : Type) [Inhabited Endpoint] where
  handler : Handler Endpoint := .fresh
  established : Bool := false
  closed : Bool := false
  remote : Endpoint := default
  -- Calls of `CloseInternal` before `OnSessionClose`.
  closing : Nat := 0
deriving Repr

structure TcpServer (Endpoint : Type) [Inhabited Endpoint] where
  sessions : Nat → TcpSession Endpoint := fun _ => {}
  sessionRef : List Nat := []
  sessionMap : List (Endpoint × Nat) := []

inductive Action (Endpoint : Type) where
  | acceptCompletes (session : Nat) (remote : Endpoint)
  | socketOptionsFail (session : Nat)
  | sessionEstablished (session : Nat)
  | acceptHandlerComplete (session : Nat) (accepts : Bool)
  | connectCompletes (session : Nat) (remote : Endpoint)
  | insertSessionToMap (session : Nat)
  | connected (session : Nat)
  | removeSessionFromMap (session : Nat)
  | closeInternal (session : Nat)
  | onSessionClose (session : Nat)
  | deleteSession (session : Nat)
deriving DecidableEq, Repr

inductive Fault where
  | disabled
  | assertion
deriving DecidableEq, Repr

variable {Endpoint : Type} [Inhabited Endpoint]

namespace TcpSession

def closeInternal (x : TcpSession Endpoint) (notifyServer : Bool) : TcpSession Endpoint :=
  if x.established then { x with closed := true, established := false, closing := x.closing + notifyServer.toNat }
  else { x with closed := true }

end TcpSession

namespace TcpServer

def update (s : TcpServer Endpoint) (i : Nat) (x : TcpSession Endpoint) : TcpServer Endpoint :=
  { s with sessions := fun j => if j = i then x else s.sessions j }

def insertSessionToMap (s : TcpServer Endpoint) (remote : Endpoint) (i : Nat) : TcpServer Endpoint :=
  { s with sessionMap := s.sessionMap ++ [(remote, i)] }

section
variable [DecidableEq Endpoint]

/-- The entry with the endpoint and the session is erased; the result tells whether there is one. -/
def removeSessionFromMap (s : TcpServer Endpoint) (remote : Endpoint) (i : Nat) : TcpServer Endpoint × Bool :=
  ({ s with sessionMap := s.sessionMap.erase (remote, i) }, decide ((remote, i) ∈ s.sessionMap))

def onSessionClose (s : TcpServer Endpoint) (i : Nat) : Except Fault (TcpServer Endpoint) :=
  if s.sessionMap.isEmpty then .ok s
  else
    let (next, found) := s.removeSessionFromMap (s.sessions i).remote i
    if found then .ok next else .error .assertion

def acceptHandlerComplete (s : TcpServer Endpoint) (i : Nat) (remote : Endpoint) (accepts : Bool) : TcpServer Endpoint :=
  if accepts then
    ({ s with sessionRef := s.sessionRef ++ [i] }.update i { s.sessions i with handler := .done }).insertSessionToMap remote i
  else s.update i ({ s.sessions i with handler := .rejected }.closeInternal false)

def step (s : TcpServer Endpoint) : Action Endpoint → Except Fault (TcpServer Endpoint)
  | .acceptCompletes i remote =>
    match (s.sessions i).handler with
    | .fresh => .ok (s.update i { s.sessions i with handler := .allocated remote })
    | _ => .error .disabled
  | .socketOptionsFail i =>
    match (s.sessions i).handler with
    | .allocated _ => .ok (s.update i { (s.sessions i).closeInternal false with handler := .done })
    | _ => .error .disabled
  | .sessionEstablished i =>
    match (s.sessions i).handler with
    | .allocated remote =>
      .ok (s.update i { s.sessions i with handler := .accepting remote, established := true, remote := remote })
    | _ => .error .disabled
  | .acceptHandlerComplete i accepts =>
    match (s.sessions i).handler with
    | .accepting remote => .ok (s.acceptHandlerComplete i remote accepts)
    | _ => .error .disabled
  | .connectCompletes i remote =>
    match (s.sessions i).handler with
    | .fresh => .ok (s.update i { s.sessions i with handler := .connecting remote })
    | _ => .error .disabled
  | .insertSessionToMap i =>
    match (s.sessions i).handler with
    | .connecting remote =>
      .ok ((s.update i { s.sessions i with handler := .inserted remote }).insertSessionToMap remote i)
    | _ => .error .disabled
  | .connected i =>
    match (s.sessions i).handler with
    | .inserted remote =>
      if (s.sessions i).closed then .ok (s.update i { s.sessions i with handler := .refused remote })
      else .ok (s.update i { s.sessions i with handler := .done, established := true, remote := remote })
    | _ => .error .disabled
  | .removeSessionFromMap i =>
    match (s.sessions i).handler with
    | .refused remote => .ok ((s.update i { s.sessions i with handler := .done }).removeSessionFromMap remote i).1
    | _ => .error .disabled
  | .closeInternal i => .ok (s.update i ((s.sessions i).closeInternal true))
  | .onSessionClose i =>
    if (s.sessions i).closing = 0 then .error .disabled
    else (s.update i { s.sessions i with closing := (s.sessions i).closing - 1 }).onSessionClose i
  | .deleteSession i => .ok { s with sessionRef := s.sessionRef.erase i }

end

def registered (s : TcpServer Endpoint) (i : Nat) : List Endpoint :=
  (s.sessionMap.filter fun entry => entry.2 = i).map Prod.fst

/-- A session without a handler and without a close between their steps is in the map once, under its remote endpoint,
if it is established, and not at all otherwise. -/
def Consistent (s : TcpServer Endpoint) : Prop :=
  ∀ i, (s.sessions i).handler ∈ [.fresh, .rejected, .done] → (s.sessions i).closing = 0 →
    s.registered i = if (s.sessions i).established then [(s.sessions i).remote] else []

/-- The steps that do no harm: while there are sessions in the map, the close of a session comes to `OnSessionClose` after
the handler has inserted the session, and not between `SessionEstablished` and the insertion or after a rejection; and a
session is not inserted after its close has finished. -/
def Harmless (s : TcpServer Endpoint) : Action Endpoint → Prop
  | .onSessionClose i => (s.sessions i).closing = 0 ∨ s.sessionMap = [] ∨ (s.sessions i).handler = .done
  | .acceptHandlerComplete i true =>
    (∃ remote, (s.sessions i).handler = .accepting remote) → (s.sessions i).established = true ∨ 0 < (s.sessions i).closing
  | _ => True

variable {s : TcpServer Endpoint} {i j : Nat} {remote : Endpoint} {x : TcpSession Endpoint}

/-! ### The map -/

@[simp] theorem update_self : (s.update i x).sessions i = x := if_pos rfl

theorem update_other (other : j ≠ i) : (s.update i x).sessions j = s.sessions j := if_neg other

@[simp] theorem update_sessionMap : (s.update i x).sessionMap = s.sessionMap := rfl

@[simp] theorem update_registered : (s.update i x).registered j = s.registered j := rfl

@[simp] theorem insert_sessions : (s.insertSessionToMap remote i).sessions = s.sessions := rfl

theorem insert_registered :
    (s.insertSessionToMap remote i).registered j = if j = i then s.registered j ++ [remote] else s.registered j := by
  unfold registered insertSessionToMap
  split
  · rename_i same
    simp [same]
  · rename_i other
    simp [Ne.symm other]

theorem registered_empty (empty : s.sessionMap = []) : s.registered i = [] := by
  simp [registered, empty]

theorem mem_registered : remote ∈ s.registered i ↔ (remote, i) ∈ s.sessionMap := by
  simp [registered]

section
variable [DecidableEq Endpoint]

@[simp] theorem remove_sessions : (s.removeSessionFromMap remote i).1.sessions = s.sessions := rfl

omit [Inhabited Endpoint] in
theorem map_fst_erase {i : Nat} (entries : List (Endpoint × Nat)) (own : ∀ entry ∈ entries, entry.2 = i) :
    (entries.erase (remote, i)).map Prod.fst = (entries.map Prod.fst).erase remote := by
  induction entries with
  | nil => rfl
  | cons entry rest ih =>
    obtain ⟨r, k⟩ := entry
    obtain rfl : k = i := own _ List.mem_cons_self
    have later := ih fun entry inside => own entry (List.mem_cons_of_mem _ inside)
    by_cases same : r = remote
    · subst same
      simp
    · rw [List.erase_cons_tail (by simpa using same), List.map_cons, List.map_cons,
        List.erase_cons_tail (by simpa using same), later]

theorem erase_registered :
    (s.removeSessionFromMap remote i).1.registered j = if j = i then (s.registered j).erase remote else s.registered j := by
  unfold registered removeSessionFromMap
  rw [← List.erase_filter]
  split
  · rename_i same
    subst same
    exact map_fst_erase _ (by simp)
  · rename_i other
    rw [List.erase_of_not_mem]
    simp [Ne.symm other]

end

/-! ### The invariant -/

def Held (x : TcpSession Endpoint) (entries : List Endpoint) : Prop :=
  match x.handler with
  | .fresh | .allocated _ | .connecting _ => entries = [] ∧ x.established = false ∧ x.closing = 0
  | .accepting remote => entries = [] ∧ x.remote = remote ∧ x.established.toNat + x.closing ≤ 1
  | .inserted remote | .refused remote => entries = [remote] ∧ x.established = false ∧ x.closing = 0
  | .rejected => entries = [] ∧ x.established = false ∧ x.closing ≤ 1
  | .done =>
    entries = [x.remote] ∧ x.established.toNat + x.closing = 1 ∨ entries = [] ∧ x.established = false ∧ x.closing = 0

def Inv (s : TcpServer Endpoint) : Prop := ∀ i, Held (s.sessions i) (s.registered i)

theorem inv_start : Inv ({} : TcpServer Endpoint) := fun _ => ⟨rfl, rfl, rfl⟩

theorem Inv.change {next : TcpServer Endpoint} (inv : Inv s) (i : Nat)
    (others : ∀ j, j ≠ i → next.sessions j = s.sessions j ∧ next.registered j = s.registered j)
    (own : Held (next.sessions i) (next.registered i)) : Inv next := by
  intro j
  by_cases same : j = i
  · subst same
    exact own
  · obtain ⟨session, entries⟩ := others j same
    rw [session, entries]
    exact inv j

theorem Inv.update (inv : Inv s) (own : Held x (s.registered i)) : Inv (s.update i x) := by
  refine inv.change i (fun j other => ⟨update_other other, rfl⟩) ?_
  rw [update_self]
  exact own

theorem Inv.insert (inv : Inv s) (own : Held x (s.registered i ++ [remote])) :
    Inv ((s.update i x).insertSessionToMap remote i) := by
  refine inv.change i (fun j other => ⟨update_other other, ?_⟩) ?_
  · rw [insert_registered, if_neg other, update_registered]
  · rw [insert_sessions, update_self, insert_registered, if_pos rfl]
    exact own

theorem Inv.remove [DecidableEq Endpoint] (inv : Inv s) (own : Held x ((s.registered i).erase remote)) :
    Inv ((s.update i x).removeSessionFromMap remote i).1 := by
  refine inv.change i (fun j other => ⟨update_other other, ?_⟩) ?_
  · rw [erase_registered, if_neg other, update_registered]
  · rw [remove_sessions, update_self, erase_registered, if_pos rfl]
    exact own

theorem Inv.consistent (inv : Inv s) : Consistent s := by
  intro i idle unclosed
  have held := inv i
  unfold Held at held
  simp only [List.mem_cons, List.not_mem_nil, or_false] at idle
  rcases idle with handler | handler | handler
  · simp only [handler] at held
    rw [held.1, held.2.1]
    rfl
  · simp only [handler] at held
    rw [held.1, held.2.1]
    rfl
  · simp only [handler, unclosed] at held
    rcases held with ⟨entries, established⟩ | ⟨entries, established, _⟩
    · rw [entries, Bool.toNat_eq_one.mp established]
      rfl
    · rw [entries, established]
      rfl

theorem Held.closeInternal {entries : List Endpoint} (held : Held x entries) : Held (x.closeInternal true) entries := by
  unfold TcpSession.closeInternal
  split
  · rename_i established
    unfold Held at held ⊢
    simp only [established] at held ⊢
    cases handler : x.handler with
    | accepting remote =>
      simp only [handler] at held ⊢
      exact ⟨held.1, held.2.1, by simpa [Nat.add_comm] using held.2.2⟩
    | done =>
      simp only [handler] at held ⊢
      rcases held with ⟨entries, one⟩ | ⟨_, unestablished, _⟩
      · exact .inl ⟨entries, by simpa [Nat.add_comm] using one⟩
      · cases unestablished
    | _ =>
      simp only [handler] at held
      cases held.2.1
  · exact held

/-- While a close is not finished, the session is in the map exactly if its handler has inserted it. -/
theorem Held.inserted_iff {entries : List Endpoint} (held : Held x entries) (positive : x.closing ≠ 0) :
    x.remote ∈ entries ↔ x.handler = .done := by
  unfold Held at held
  cases handler : x.handler with
  | accepting remote =>
    simp only [handler] at held
    simp [held.1]
  | rejected =>
    simp only [handler] at held
    simp [held.1]
  | done =>
    simp only [handler] at held
    rcases held with ⟨entries, _⟩ | ⟨_, _, none_⟩
    · simp [entries]
    · exact absurd none_ positive
  | _ =>
    simp only [handler] at held
    exact absurd held.2.2 positive

/-! ### The steps -/

section
variable [DecidableEq Endpoint]

theorem Held.finish {entries : List Endpoint} (held : Held x entries) (positive : x.closing ≠ 0) :
    Held { x with closing := x.closing - 1 } (entries.erase x.remote) := by
  unfold Held at held ⊢
  cases handler : x.handler with
  | accepting remote =>
    simp only [handler] at held ⊢
    rw [held.1]
    exact ⟨rfl, held.2.1, by omega⟩
  | rejected =>
    simp only [handler] at held ⊢
    rw [held.1]
    exact ⟨rfl, held.2.1, by omega⟩
  | done =>
    simp only [handler] at held ⊢
    rcases held with ⟨entries, one⟩ | ⟨_, _, none_⟩
    · exact .inr ⟨by simp [entries], Bool.toNat_eq_zero.mp (by omega), by omega⟩
    · exact absurd none_ positive
  | _ =>
    simp only [handler] at held
    exact absurd held.2.2 positive

theorem Inv.onSessionClose (inv : Inv s) (positive : (s.sessions i).closing ≠ 0) :
    Hinges Inv Consistent (· = .assertion)
      ((s.update i { s.sessions i with closing := (s.sessions i).closing - 1 }).onSessionClose i)
      (s.sessionMap = [] ∨ (s.sessions i).handler = .done) := by
  have finished := (inv i).finish positive
  have inserted := (inv i).inserted_iff positive
  rw [mem_registered] at inserted
  unfold TcpServer.onSessionClose
  by_cases empty : s.sessionMap = []
  · rw [if_pos (by simpa using empty)]
    refine ⟨fun _ => inv.update ?_, fun _ => .inl empty⟩
    rw [registered_empty empty] at finished ⊢
    exact finished
  · rw [if_neg (by simpa using empty)]
    have removed := inv.remove finished
    simp only [update_self, TcpServer.removeSessionFromMap, update_sessionMap] at removed ⊢
    by_cases inside : ((s.sessions i).remote, i) ∈ s.sessionMap
    · rw [if_pos (decide_eq_true inside)]
      exact ⟨fun _ => removed, fun _ => .inr (inserted.mp inside)⟩
    · rw [if_neg (by simpa using inside)]
      exact ⟨fun found => absurd (inserted.mpr (found.resolve_left empty)) inside, fun failed => absurd rfl failed⟩

/-- A session that is inserted after its close has finished stays in the map and is not established. -/
theorem Inv.acceptHandlerComplete (inv : Inv s) (handler : (s.sessions i).handler = .accepting remote) (accepts : Bool) :
    Hinges Inv Consistent (· = .assertion) (s.step (.acceptHandlerComplete i accepts))
      (s.Harmless (.acceptHandlerComplete i accepts)) := by
  have held := inv i
  simp only [Held, handler] at held
  obtain ⟨none_, same, few⟩ := held
  simp only [step, handler]
  cases accepts with
  | false =>
    refine .free (inv.update ?_)
    unfold TcpSession.closeInternal
    split
    · exact ⟨none_, rfl, by simp only [Bool.toNat_false]; omega⟩
    · rename_i unestablished
      exact ⟨none_, by simpa using unestablished, by simp only; omega⟩
  | true =>
    have inv' : Inv { s with sessionRef := s.sessionRef ++ [i] } := inv
    have none' : registered { s with sessionRef := s.sessionRef ++ [i] } i = [] := none_
    refine ⟨fun harmless => inv'.insert (.inl ⟨?_, ?_⟩), fun consistent _ => ?_⟩
    · rw [none', List.nil_append, same]
    · rcases harmless ⟨remote, handler⟩ with established | closing
      · simp only [established, Bool.toNat_true] at few ⊢
        omega
      · simp only
        omega
    · by_contra closed
      rw [not_or] at closed
      have after := consistent i
      simp only [TcpServer.acceptHandlerComplete, if_true, insert_sessions, update_self, insert_registered,
        update_registered, none', List.nil_append] at after
      have wrong := after (by simp) (by omega)
      rw [if_neg closed.1] at wrong
      cases wrong

theorem step_hinges (inv : Inv s) (a : Action Endpoint) : Hinges Inv Consistent (· = .assertion) (s.step a) (s.Harmless a) := by
  cases a with
  | acceptCompletes i remote | connectCompletes i remote =>
    simp only [step]
    split
    · rename_i handler
      have held := inv i
      simp only [Held, handler] at held
      exact .free (inv.update held)
    · exact .failed (by simp) trivial
  | socketOptionsFail i =>
    simp only [step]
    split
    · rename_i handler
      have held := inv i
      simp only [Held, handler] at held
      refine .free (inv.update (.inr ?_))
      simp [TcpSession.closeInternal, held]
    · exact .failed (by simp) trivial
  | sessionEstablished i =>
    simp only [step]
    split
    · rename_i handler
      have held := inv i
      simp only [Held, handler] at held
      exact .free (inv.update ⟨held.1, rfl, by simp [held.2.2]⟩)
    · exact .failed (by simp) trivial
  | acceptHandlerComplete i accepts =>
    cases handler : (s.sessions i).handler with
    | accepting remote => exact inv.acceptHandlerComplete handler accepts
    | _ =>
      simp only [step, handler]
      exact .failed (by simp) (by cases accepts <;> simp [Harmless, handler])
  | insertSessionToMap i =>
    simp only [step]
    split
    · rename_i handler
      have held := inv i
      simp only [Held, handler] at held
      refine .free (inv.insert ?_)
      rw [held.1]
      exact ⟨rfl, held.2⟩
    · exact .failed (by simp) trivial
  | connected i =>
    simp only [step]
    split
    · rename_i handler
      have held := inv i
      simp only [Held, handler] at held
      split
      · exact .free (inv.update held)
      · exact .free (inv.update (.inl ⟨held.1, by simp [held.2.2]⟩))
    · exact .failed (by simp) trivial
  | removeSessionFromMap i =>
    simp only [step]
    split
    · rename_i handler
      have held := inv i
      simp only [Held, handler] at held
      refine .free (inv.remove (.inr ?_))
      simp [held]
    · exact .failed (by simp) trivial
  | closeInternal i => exact .free (inv.update (inv i).closeInternal)
  | onSessionClose i =>
    simp only [step]
    split
    · rename_i none_
      exact .failed (by simp) (.inl none_)
    · rename_i positive
      exact (inv.onSessionClose positive).congr (or_iff_right positive).symm
  | deleteSession i => exact .free inv

/-- The session map is consistent throughout a run, and no assertion fails, exactly if every step is harmless. -/
theorem session_map_iff (actions : List (Action Endpoint)) :
    Safe step Consistent (· = .assertion) ({} : TcpServer Endpoint) actions ↔ Throughout step Harmless {} actions :=
  safe_iff (I := Inv) (fun _ inv => inv.consistent) (fun _ a inv => (step_hinges inv a).keeps)
    (fun _ a inv => (step_hinges inv a).exposes) actions _ inv_start

end

/-- A close between `SessionEstablished` and the insertion of an accepted session: with another session in the map the
assertion fails; with an empty map the closed session is inserted and stays in the map. -/
theorem close_before_insertion :
    run step ({} : TcpServer Nat) [.acceptCompletes 0 80, .sessionEstablished 0, .acceptHandlerComplete 0 true,
        .acceptCompletes 1 81, .sessionEstablished 1, .closeInternal 1, .onSessionClose 1] = .error .assertion ∧
      ∃ s, run step ({} : TcpServer Nat) [.acceptCompletes 0 80, .sessionEstablished 0, .closeInternal 0,
          .onSessionClose 0, .acceptHandlerComplete 0 true] = .ok s ∧
        (∀ i, (s.sessions i).closing = 0 ∧ (s.sessions i).handler ∈ [.fresh, .done]) ∧
        (s.sessions 0).established = false ∧ s.sessionMap = [(80, 0)] := by
  refine ⟨rfl, _, rfl, fun i => ?_, rfl, rfl⟩
  cases i with
  | zero => exact ⟨rfl, List.mem_cons_of_mem _ List.mem_cons_self⟩
  | succ i => exact ⟨rfl, List.mem_cons_self⟩

end TcpServer

end TFCommon.Tcp.Server
