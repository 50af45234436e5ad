import TFCommon.Lib.Run

/-! The two sessions of `CqlIf` with Cassandra and the state variables kept for them, over any calls of `Db_Init`, `Db_Uninit`
and `Db_SetInitDone` and any outcomes of connecting and closing that the driver reports. -/
namespace TFCommon.Cql

inductive SessionState where
  | init | connected | disconnected
deriving DecidableEq, Repr

/-- A session object of the driver: whether it has connected and whether it has been closed. -/
structure CassSession where
  connected : Bool := false
  closed : Bool := false
deriving DecidableEq, Repr

/-- `session_` with `session_state_`, or `schema_session_` with `schema_session_state_`. -/
structure Held where
  session : CassSession := {}
  state : SessionState := .init
deriving DecidableEq, Repr

/-- `ConnectSync` and `ConnectSchemaSync`: the object is replaced before the outcome is known. -/
def Held.connectSync (h : Held) (success : Bool) : Held :=
  let replaced : Held := { h with session := {} }
  if success then { session := { replaced.session with connected := true }, state := .connected } else replaced

def Held.disconnectSync (h : Held) (success : Bool) : Held :=
  if success then { session := { h.session with closed := true }, state := .disconnected } else h

structure CqlIf where
  createSchema : Bool
  initialized : Bool := false
  session : Held := {}
  schemaSession : Held := {}
deriving DecidableEq, Repr

def CqlIf.dbInit (c : CqlIf) (schema main : Bool) : Bool × CqlIf :=
  if c.createSchema then
    let c := { c with schemaSession := c.schemaSession.connectSync schema }
    if schema then (main, { c with session := c.session.connectSync main }) else (false, c)
  else (main, { c with session := c.session.connectSync main })

def CqlIf.dbUninit (c : CqlIf) (schema main : Bool) : CqlIf :=
  let c := if c.createSchema then { c with schemaSession := c.schemaSession.disconnectSync schema } else c
  { c with session := c.session.disconnectSync main }

def CqlIf.dbSetInitDone (c : CqlIf) (initDone schema : Bool) : CqlIf :=
  let c := { c with initialized := initDone }
  if c.createSchema ∧ c.initialized then { c with schemaSession := c.schemaSession.disconnectSync schema } else c

/-- A call, with the outcomes that the driver reports for the schema session and for the other one. -/
inductive Call where
  | dbInit (schema main : Bool)
  | dbUninit (schema main : Bool)
  | dbSetInitDone (initDone schema : Bool)
deriving DecidableEq, Repr

def CqlIf.step (c : CqlIf) : Call → Except Empty CqlIf
  | .dbInit schema main => .ok (c.dbInit schema main).2
  | .dbUninit schema main => .ok (c.dbUninit schema main)
  | .dbSetInitDone initDone schema => .ok (c.dbSetInitDone initDone schema)

def Held.Truthful (h : Held) : Prop := h.state = .connected ↔ h.session.connected = true ∧ h.session.closed = false

def CqlIf.Truthful (c : CqlIf) : Prop := c.session.Truthful ∧ c.schemaSession.Truthful

/-- No attempt to connect fails on a session whose state is `CONNECTED`. -/
def CqlIf.Harmless (c : CqlIf) : Call → Prop
  | .dbInit schema main =>
    (c.createSchema = true → schema = true ∨ c.schemaSession.state ≠ .connected) ∧
      ((c.createSchema = true → schema = true) → main = true ∨ c.session.state ≠ .connected)
  | _ => True

theorem Held.connectSync_truthful {h : Held} {success : Bool} :
    (h.connectSync success).Truthful ↔ success = true ∨ h.state ≠ .connected := by
  cases success with
  | false => simp [connectSync, Truthful]
  | true => simp [connectSync, Truthful]

theorem Held.Truthful.disconnectSync {h : Held} (truthful : h.Truthful) (success : Bool) :
    (h.disconnectSync success).Truthful := by
  cases success with
  | false => exact truthful
  | true => simp [Held.disconnectSync, Truthful]

theorem CqlIf.Truthful.dbInit {c : CqlIf} (truthful : c.Truthful) (schema main : Bool) :
    (c.dbInit schema main).2.Truthful ↔ c.Harmless (.dbInit schema main) := by
  unfold CqlIf.dbInit
  simp only [CqlIf.Harmless]
  cases c.createSchema with
  | false => simp [CqlIf.Truthful, Held.connectSync_truthful, truthful.2]
  | true =>
    cases schema with
    | false => simp [CqlIf.Truthful, Held.connectSync_truthful, truthful.1]
    | true => simp [CqlIf.Truthful, Held.connectSync_truthful]

theorem CqlIf.Truthful.dbUninit {c : CqlIf} (truthful : c.Truthful) (schema main : Bool) :
    (c.dbUninit schema main).Truthful := by
  unfold CqlIf.dbUninit
  cases c.createSchema with
  | false => exact ⟨truthful.1.disconnectSync main, truthful.2⟩
  | true => exact ⟨truthful.1.disconnectSync main, truthful.2.disconnectSync schema⟩

theorem CqlIf.Truthful.dbSetInitDone {c : CqlIf} (truthful : c.Truthful) (initDone schema : Bool) :
    (c.dbSetInitDone initDone schema).Truthful := by
  unfold CqlIf.dbSetInitDone
  dsimp only
  split
  · exact ⟨truthful.1, truthful.2.disconnectSync schema⟩
  · exact truthful

/-- Both state variables tell the truth after every call exactly if no attempt to connect fails while a session is connected. -/
theorem CqlIf.session_states_truthful_iff (createSchema : Bool) (calls : List Call) :
    Safe step Truthful (fun _ => True) { createSchema } calls ↔ Throughout step Harmless { createSchema } calls := by
  refine safe_iff (I := Truthful) (fun _ truthful => truthful) ?_ ?_ calls _ ?_
  · intro c call truthful harmless
    cases call with
    | dbInit schema main => exact (truthful.dbInit schema main).mpr harmless
    | dbUninit schema main => exact truthful.dbUninit schema main
    | dbSetInitDone initDone schema => exact truthful.dbSetInitDone initDone schema
  · intro c call truthful after
    cases call with
    | dbInit schema main => exact (truthful.dbInit schema main).mp after
    | _ => trivial
  · simp [Truthful, Held.Truthful]

/-- A second `Db_Init` that fails leaves the state `CONNECTED` with a session that never connected. -/
theorem CqlIf.failed_reconnect_untruthful :
    let c := (({ createSchema := false } : CqlIf).dbInit true true).2
    let again := (c.dbInit true false).2
    again.session.state = .connected ∧ again.session.session.connected = false := by
  decide

end TFCommon.Cql
