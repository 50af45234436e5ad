import TFCommon.Lib.Run

/-! `ZookeeperLock` (zookeeper/zookeeper_client.cc): clients that create and delete one znode, each with one
thread. A request is served in one step and its answer is received in a later one. Connecting (which blocks
until it succeeds), sleeping and logging have no effect on the lock. -/
namespace TFCommon.Zookeeper

/-- The name of a client: a C string that is not empty and fits the buffer of `Lock`. -/
def Name := { bytes : List UInt8 // bytes ≠ [] ∧ bytes.length < 256 ∧ 0 ∉ bytes }

instance : DecidableEq Name := inferInstanceAs (DecidableEq { bytes : List UInt8 // bytes ≠ [] ∧ bytes.length < 256 ∧ 0 ∉ bytes })

inductive ZooCode where
  | ok
  | nodeExists
  | noNode
  | connectionLoss
  | operationTimeout
  | invalidState
  -- Any code that the client does not look at.
  | other
deriving DecidableEq, Repr

def ZooCode.isRecoverable (rc : ZooCode) : Bool := rc = .connectionLoss || rc = .operationTimeout

def ZooCode.isUnrecoverable (rc : ZooCode) : Bool := rc = .invalidState

/-- The loops of `CreateNodeSync`, `GetNodeDataSync` and `DeleteNodeSync`: they repeat the request, after
`Reconnect` if the code is unrecoverable. -/
def ZooCode.retry (rc : ZooCode) : Bool := rc.isRecoverable || rc.isUnrecoverable

inductive Request where
  | create
  | get
  | delete
deriving DecidableEq, Repr

inductive Pc where
  | idle
  | request (r : Request)
  | answer (r : Request) (rc : ZooCode) (data : List UInt8)
deriving DecidableEq, Repr

structure Client where
  pc : Pc := .idle
  isAcquired : Bool := false
  -- What the last call that has returned gave.
  result : Option Bool := none
  -- The last `Lock` returned true and `Release` was not called since.
  holder : Bool := false
deriving DecidableEq, Repr

namespace Client

def acquired (c : Client) : Client := { c with pc := .idle, isAcquired := true, result := some true, holder := true }

/-- `Lock` returns false; `is_acquired_` stays as it was. -/
def lockFailed (c : Client) : Client := { c with pc := .idle, result := some false, holder := false }

def createAnswered (c : Client) (rc : ZooCode) : Client :=
  if rc.retry then { c with pc := .request .create }
  else match rc with
    | .ok => c.acquired
    | .nodeExists => { c with pc := .request .get }
    | _ => c.lockFailed

def getAnswered (c : Client) (name : Name) (rc : ZooCode) (data : List UInt8) : Client :=
  if rc.retry then { c with pc := .request .get }
  else match rc with
    | .ok => if name.val = data.take 256 then c.acquired else { c with pc := .request .create }
    | .noNode => { c with pc := .request .create }
    | _ => c.lockFailed

def deleteAnswered (c : Client) (rc : ZooCode) : Client :=
  if rc.retry then { c with pc := .request .delete }
  else { c with pc := .idle, result := some (rc = .ok) }

def answered (c : Client) (name : Name) (r : Request) (rc : ZooCode) (data : List UInt8) : Client :=
  match r with
  | .create => c.createAnswered rc
  | .get => c.getAnswered name rc data
  | .delete => c.deleteAnswered rc

def release (c : Client) : Client :=
  if c.isAcquired then { c with pc := .request .delete, isAcquired := false, holder := false }
  else { c with result := some false, holder := false }

end Client

inductive Fate where
  | answered
  -- It takes effect, and the answer is `ZCONNECTIONLOSS` or `ZOPERATIONTIMEOUT`.
  | lost (timeout : Bool)
  -- The same answers, without an effect.
  | dropped (timeout : Bool)
  -- It is refused with `ZINVALIDSTATE` or another error.
  | refused (invalid : Bool)
deriving DecidableEq, Repr

namespace Fate

def takesEffect : Fate → Bool
  | .answered | .lost _ => true
  | .dropped _ | .refused _ => false

def error : Fate → Option ZooCode
  | .answered => none
  | .lost timeout | .dropped timeout => some (if timeout then .operationTimeout else .connectionLoss)
  | .refused invalid => some (if invalid then .invalidState else .other)

end Fate

/-- The store: what the znode is after a request that takes effect. -/
def Request.effect (r : Request) (name : Name) (znode : Option (List UInt8)) : Option (List UInt8) :=
  match r, znode with
  | .create, none => some name.val
  | .create, some data => some data
  | .get, znode => znode
  | .delete, _ => none

def Request.reply (r : Request) (znode : Option (List UInt8)) : ZooCode × List UInt8 :=
  match r, znode with
  | .create, none => (.ok, [])
  | .create, some _ => (.nodeExists, [])
  | .get, none => (.noNode, [])
  | .get, some data => (.ok, data)
  | .delete, none => (.noNode, [])
  | .delete, some _ => (.ok, [])

def Request.outcome (r : Request) (name : Name) (fate : Fate) (znode : Option (List UInt8)) : Option (List UInt8) :=
  if fate.takesEffect then r.effect name znode else znode

def Request.answer (r : Request) (fate : Fate) (znode : Option (List UInt8)) : ZooCode × List UInt8 :=
  match fate.error with
  | none => r.reply znode
  | some rc => (rc, [])

structure System where
  znode : Option (List UInt8) := none
  client : Name → Client := fun _ => {}

inductive Action where
  | lock (c : Name)
  | release (c : Name)
  | serve (c : Name) (fate : Fate)
  | receive (c : Name)

inductive Fault where
  | disabled
deriving DecidableEq, Repr

namespace System

def set (s : System) (c : Name) (client : Client) : System :=
  { s with client := fun d => if d = c then client else s.client d }

def serve (s : System) (c : Name) (r : Request) (fate : Fate) : System :=
  let (rc, data) := r.answer fate s.znode
  { s.set c { s.client c with pc := .answer r rc data } with znode := r.outcome c fate s.znode }

def step (s : System) : Action → Except Fault System
  | .lock c =>
    match (s.client c).pc with
    | .idle => .ok (s.set c { s.client c with pc := .request .create })
    | _ => .error .disabled
  | .release c =>
    match (s.client c).pc with
    | .idle => .ok (s.set c (s.client c).release)
    | _ => .error .disabled
  | .serve c fate =>
    match (s.client c).pc with
    | .request r => .ok (s.serve c r fate)
    | _ => .error .disabled
  | .receive c =>
    match (s.client c).pc with
    | .answer r rc data => .ok (s.set c ((s.client c).answered c r rc data))
    | _ => .error .disabled

/-- At most one client is a holder, and the znode contains the name of a holder. -/
def Exclusive (s : System) : Prop :=
  (∀ c d, (s.client c).holder = true → (s.client d).holder = true → c = d) ∧
    ∀ c, (s.client c).holder = true → s.znode = some c.val

end System

def succeeds (name : Name) (r : Request) (rc : ZooCode) (data : List UInt8) : Bool :=
  match r, rc with
  | .create, .ok => true
  | .get, .ok => name.val = data.take 256
  | _, _ => false

inductive Client.After (c : Client) (name : Name) (r : Request) (rc : ZooCode) (data : List UInt8) : Client → Prop where
  | acquired (success : succeeds name r rc data = true) : After c name r rc data c.acquired
  | failed (failure : succeeds name r rc data = false) : After c name r rc data c.lockFailed
  -- The next request. `Release` only repeats its own.
  | requests (failure : succeeds name r rc data = false) (next : Request)
      (repeated : next = .delete → r = .delete ∧ rc.retry = true) : After c name r rc data { c with pc := .request next }
  | released (failure : succeeds name r rc data = false) :
      After c name r rc data { c with pc := .idle, result := some (rc = .ok) }

theorem Client.answered_after (c : Client) (name : Name) (r : Request) (rc : ZooCode) (data : List UInt8) :
    c.After name r rc data (c.answered name r rc data) := by
  cases r with
  | create =>
    cases rc with
    | ok => exact .acquired rfl
    | noNode | other => exact .failed rfl
    | _ => exact .requests rfl _ (by rintro ⟨⟩)
  | get =>
    cases rc with
    | ok =>
      rw [answered, getAnswered, if_neg (by decide)]
      split
      · exact .acquired (decide_eq_true ‹_›)
      · rename_i differ
        have failure : succeeds name .get .ok data = false := decide_eq_false differ
        exact .requests failure _ (by rintro ⟨⟩)
    | nodeExists | other => exact .failed rfl
    | _ => exact .requests rfl _ (by rintro ⟨⟩)
  | delete =>
    cases rc with
    | connectionLoss | operationTimeout | invalidState => exact .requests rfl _ fun _ => ⟨rfl, rfl⟩
    | _ => exact .released rfl

variable {c : Client} {data : List UInt8} {name : Name} {r : Request} {rc : ZooCode} {action : Action} {s next : System}

theorem Client.answered_acquired
    (success : succeeds name r rc data = true) : c.answered name r rc data = c.acquired := by
  have after := c.answered_after name r rc data
  generalize c.answered name r rc data = next at after
  cases after with
  | acquired => rfl
  | failed failure | requests failure | released failure => cases success.symm.trans failure

theorem Client.answered_holder
    (failure : ¬ succeeds name r rc data = true) (now : (c.answered name r rc data).holder = true) : c.holder = true := by
  have after := c.answered_after name r rc data
  generalize c.answered name r rc data = next at after now
  cases after with
  | acquired success => exact absurd success failure
  | failed => cases now
  | requests | released => exact now

namespace System

@[simp] theorem set_znode (s : System) (c : Name) (client : Client) : (s.set c client).znode = s.znode := rfl

@[simp] theorem set_same (s : System) (c : Name) (client : Client) : (s.set c client).client c = client := if_pos rfl

theorem set_other (s : System) {c d : Name} (apart : d ≠ c) (client : Client) : (s.set c client).client d = s.client d :=
  if_neg apart

theorem forall_set {P : Name → Client → Prop} {c : Name} {client : Client} (mine : P c client)
    (others : ∀ d ≠ c, P d (s.client d)) (d : Name) : P d ((s.set c client).client d) := by
  by_cases same : d = c
  · subst same
    rw [set_same]
    exact mine
  · rw [set_other s same]
    exact others d same

inductive Stepped (s : System) : Action → System → Prop where
  | lock (c : Name) (idle : (s.client c).pc = .idle) : Stepped s (.lock c) (s.set c { s.client c with pc := .request .create })
  | release (c : Name) (idle : (s.client c).pc = .idle) : Stepped s (.release c) (s.set c (s.client c).release)
  | serve (c : Name) (fate : Fate) (r : Request) (waiting : (s.client c).pc = .request r) :
      Stepped s (.serve c fate) (s.serve c r fate)
  | receive (c : Name) (r : Request) (rc : ZooCode) (data : List UInt8) (waiting : (s.client c).pc = .answer r rc data) :
      Stepped s (.receive c) (s.set c ((s.client c).answered c r rc data))

theorem step_stepped (ran : s.step action = .ok next) : s.Stepped action next := by
  cases action with
  | lock c | release c | serve c fate | receive c =>
    rw [step] at ran
    split at ran
    · cases ran
      constructor
      assumption
    · cases ran

theorem exclusive_iff (s : System) : s.Exclusive ↔ ∀ c, (s.client c).holder = true → s.znode = some c.val := by
  refine ⟨And.right, fun named => ⟨fun c d first second => ?_, named⟩⟩
  exact Subtype.ext (Option.some.inj ((named c first).symm.trans (named d second)))

theorem serve_holder (s : System) (c d : Name) (r : Request) (fate : Fate) :
    ((s.serve c r fate).client d).holder = (s.client d).holder := by
  change ((s.set c _).client d).holder = _
  by_cases same : d = c
  · rw [same, set_same]
  · rw [set_other s same]

/-- No delete takes effect while the znode contains the name of a holder, and a `Lock` that is answered with
success returns while the znode contains its client's name. -/
def Undisturbed (s : System) : Action → Prop
  | .serve c fate =>
    (s.client c).pc = .request .delete → fate.takesEffect = true → ∀ d, (s.client d).holder = true → s.znode ≠ some d.val
  | .receive c =>
    ∀ r rc data, (s.client c).pc = .answer r rc data → succeeds c r rc data = true → s.znode = some c.val
  | _ => True

theorem Exclusive.set (exclusive : s.Exclusive) {c : Name} {client : Client}
    (mine : client.holder = true → s.znode = some c.val) : (s.set c client).Exclusive :=
  (exclusive_iff _).mpr
    (forall_set (P := fun d client => client.holder = true → s.znode = some d.val) mine fun d _ => exclusive.2 d)

theorem Exclusive.step_hinges (exclusive : s.Exclusive) (action : Action) :
    Hinges Exclusive Exclusive (fun _ => False) (s.step action) (s.Undisturbed action) := by
  have named := exclusive.2
  cases action with
  | lock c =>
    refine .free ?_
    rw [step]
    split
    · exact exclusive.set (named c)
    · exact id
  | release c =>
    refine .free ?_
    rw [step]
    split
    · refine exclusive.set fun mine => ?_
      rw [Client.release] at mine
      split at mine <;> cases mine
    · exact id
  | serve c fate =>
    cases waiting : (s.client c).pc with
    | request r =>
      rw [step, waiting]
      refine ⟨fun undisturbed => (exclusive_iff _).mpr fun d holder => ?_, fun after deleting effective d holder _ => ?_⟩
      · rw [serve_holder] at holder
        have named := named d holder
        change r.outcome c fate s.znode = _
        rw [Request.outcome]
        split
        · rename_i effective
          cases r with
          | create => rw [named, Request.effect]
          | get => exact named
          | delete => exact absurd named (undisturbed waiting effective d holder)
        · exact named
      · cases waiting.symm.trans deleting
        have gone : (s.serve c .delete fate).znode = none := if_pos effective
        have kept := after.2 d ((serve_holder s c d .delete fate).trans holder)
        cases gone.symm.trans kept
    | idle | answer =>
      rw [step, waiting]
      exact ⟨fun _ => id, fun _ deleting => by cases waiting.symm.trans deleting⟩
  | receive c =>
    cases waiting : (s.client c).pc with
    | answer r rc data =>
      rw [step, waiting]
      refine ⟨fun undisturbed => exclusive.set fun mine => ?_, fun after r' rc' data' answered success => ?_⟩
      · by_cases success : succeeds c r rc data = true
        · exact undisturbed r rc data waiting success
        · exact named c (Client.answered_holder success mine)
      · cases waiting.symm.trans answered
        refine after.2 c ?_
        rw [set_same, Client.answered_acquired success]
        rfl
    | idle | request =>
      rw [step, waiting]
      exact ⟨fun _ => id, fun _ r rc data answered => by cases waiting.symm.trans answered⟩

def DeletesAnswered (s : System) : Action → Prop
  | .serve c fate => (s.client c).pc = .request .delete → fate.takesEffect = true → fate = .answered
  | _ => True

end System

def Pc.releasing : Pc → Bool
  | .request .delete | .answer .delete _ _ => true
  | _ => false

/-- A thread that relies on the znode: its delete is still to take effect, or its `Lock` is about to return true. -/
def Pc.claims (name : Name) : Pc → Bool
  | .request .delete => true
  | .answer .delete rc _ => rc.retry
  | .answer r rc data => succeeds name r rc data
  | _ => false

def Client.Claims (c : Client) (name : Name) : Prop := c.isAcquired = true ∨ c.pc.claims name = true

structure Client.Fair (c : Client) : Prop where
  releasing : c.pc.releasing = true → c.isAcquired = false
  held : c.holder = true → c.isAcquired = true

theorem Client.Fair.answered (fair : c.Fair) (waiting : c.pc = .answer r rc data) :
    (c.answered name r rc data).Fair ∧ ((c.answered name r rc data).Claims name → c.Claims name) := by
  have after := c.answered_after name r rc data
  generalize c.answered name r rc data = next at after
  cases after with
  | acquired success =>
    refine ⟨⟨by rintro ⟨⟩, fun _ => rfl⟩, fun _ => .inr ?_⟩
    rw [waiting]
    cases r with
    | delete => cases success
    | _ => exact success
  | failed => exact ⟨⟨by rintro ⟨⟩, by rintro ⟨⟩⟩, fun now => now.imp_right nofun⟩
  | released => exact ⟨⟨by rintro ⟨⟩, fair.held⟩, fun now => now.imp_right nofun⟩
  | requests failure next repeated =>
    cases next with
    | delete =>
      obtain ⟨rfl, again⟩ := repeated rfl
      exact ⟨⟨fun _ => fair.releasing (by rw [waiting]; rfl), fair.held⟩, fun now => now.imp_right fun _ => by rwa [waiting]⟩
    | _ => exact ⟨⟨by rintro ⟨⟩, fair.held⟩, fun now => now.imp_right nofun⟩

theorem Client.fair_release (idle : c.pc = .idle) : c.release.Fair := by
  rw [Client.release]
  split
  · exact ⟨fun _ => rfl, by rintro ⟨⟩⟩
  · refine ⟨fun now => ?_, by rintro ⟨⟩⟩
    rw [idle] at now
    cases now

theorem Client.Claims.of_release (now : c.release.Claims name) : c.Claims name := by
  rw [Client.release] at now
  split at now
  · exact .inl ‹_›
  · exact now

namespace System

structure Owned (s : System) : Prop where
  named : ∀ c, (s.client c).Claims c → s.znode = some c.val
  fair : ∀ c, (s.client c).Fair

theorem owned_start (znode : Option (List UInt8)) : Owned { znode := znode } :=
  ⟨fun _ claims => by rcases claims with ⟨⟨⟩⟩ | ⟨⟨⟩⟩, fun _ => ⟨by rintro ⟨⟩, by rintro ⟨⟩⟩⟩

theorem Owned.set (owned : s.Owned) {c : Name} {client : Client}
    (claims : client.Claims c → (s.client c).Claims c) (fair : client.Fair) : (s.set c client).Owned := by
  exact ⟨forall_set (P := fun d client => client.Claims d → s.znode = some d.val) (fun now => owned.named c (claims now))
    fun d _ => owned.named d, forall_set (P := fun _ client => client.Fair) fair fun d _ => owned.fair d⟩

theorem eq_name_of_take (same : name.val = data.take 256) : data = name.val := by
  have short : (data.take 256).length < 256 := same ▸ name.property.2.1
  rw [List.length_take] at short
  rw [same, List.take_of_length_le (by omega)]

variable {fate : Fate}

theorem outcome_some (kind : r = .delete → ¬ fate.takesEffect = true) (name : Name) (data : List UInt8) :
    r.outcome name fate (some data) = some data := by
  rw [Request.outcome]
  split
  · cases r with
    | delete => exact absurd ‹_› (kind rfl)
    | _ => rfl
  · rfl

theorem outcome_of_succeeds {znode : Option (List UInt8)}
    (success : succeeds name r (r.answer fate znode).1 (r.answer fate znode).2 = true) :
    r.outcome name fate znode = some name.val := by
  cases fate with
  | answered =>
    cases r with
    | create =>
      cases znode with
      | none => rfl
      | some data => cases success
    | get =>
      cases znode with
      | none => cases success
      | some data => exact congrArg some (eq_name_of_take (of_decide_eq_true success))
    | delete => cases success
  | lost timeout | dropped timeout => cases timeout <;> cases r <;> cases success
  | refused invalid => cases invalid <;> cases r <;> cases success

theorem Owned.serve (owned : s.Owned) {c : Name} (waiting : (s.client c).pc = .request r)
    (answered : r = .delete → fate.takesEffect = true → fate = .answered) : (s.serve c r fate).Owned := by
  have releasing : r = .delete → (s.client c).isAcquired = false := by
    rintro rfl
    exact (owned.fair c).releasing (by rw [waiting]; rfl)
  refine ⟨forall_set (P := fun d client => client.Claims d → r.outcome c fate s.znode = some d.val) (fun now => ?_)
    fun d other now => ?_, forall_set (P := fun _ client => client.Fair) ⟨fun now => ?_, (owned.fair c).held⟩ fun d _ => owned.fair d⟩
  · rcases now with acquired | claims
    · have kept : r = .delete → ¬ fate.takesEffect = true := fun deleting _ => by
        cases (releasing deleting).symm.trans acquired
      rw [owned.named c (.inl acquired), outcome_some kept]
    · cases r with
      | create | get => exact outcome_of_succeeds claims
      | delete =>
        -- The delete is going to be repeated, so it had no effect.
        have kept (effective : fate.takesEffect = true) : False := by
          rw [answered rfl effective] at claims
          cases present : s.znode <;> rw [present] at claims <;> cases claims
        rw [owned.named c (.inr (by rw [waiting]; rfl)), outcome_some fun _ => kept]
  · have named := owned.named d now
    have kept : r = .delete → ¬ fate.takesEffect = true := by
      rintro rfl
      have mine : s.znode = some c.val := owned.named c (.inr (by rw [waiting]; rfl))
      exact absurd (Subtype.ext (Option.some.inj (named.symm.trans mine))) other
    rw [named, outcome_some kept]
  · cases r with
    | delete => exact releasing rfl
    | _ => cases now

theorem Owned.step (owned : s.Owned) (answered : s.DeletesAnswered action)
    (ran : s.step action = .ok next) : next.Owned := by
  cases step_stepped ran with
  | lock c idle =>
    refine owned.set (fun now => now.imp_right nofun) ⟨by rintro ⟨⟩, (owned.fair c).held⟩
  | release c idle => exact owned.set .of_release (Client.fair_release idle)
  | serve c fate r waiting =>
    refine owned.serve waiting fun deleting => ?_
    subst deleting
    exact answered waiting
  | receive c r rc data waiting =>
    obtain ⟨fair, claims⟩ := (owned.fair c).answered waiting
    exact owned.set claims fair

theorem Owned.undisturbed (owned : s.Owned) : s.Undisturbed action := by
  cases action with
  | lock c => trivial
  | release c => trivial
  | serve c fate =>
    intro waiting _ d holder named
    have mine : s.znode = some c.val := owned.named c (.inr (by rw [waiting]; rfl))
    have same : d = c := Subtype.ext (Option.some.inj (named.symm.trans mine))
    have given := (owned.fair c).releasing (by rw [waiting]; rfl)
    cases given.symm.trans ((owned.fair c).held (same ▸ holder))
  | receive c =>
    intro r rc data waiting success
    refine owned.named c (.inr ?_)
    rw [waiting]
    cases r with
    | delete => cases success
    | _ => exact success

/-- From any znode and with every client idle: the lock excludes exactly if no delete takes effect while the znode
contains the name of a holder and every `Lock` that is answered with success returns while the znode contains its
client's name. That is so if every delete that takes effect is answered. -/
theorem lock_exclusive_iff (znode : Option (List UInt8)) (actions : List Action) :
    (TFCommon.Safe step Exclusive (fun _ => False) { znode := znode } actions ↔
        Throughout step Undisturbed { znode := znode } actions) ∧
      (Throughout step DeletesAnswered { znode := znode } actions →
        Throughout step Undisturbed { znode := znode } actions) := by
  constructor
  · exact safe_iff (fun _ => id) (fun _ action exclusive => (exclusive.step_hinges action).keeps)
      (fun _ action exclusive => (exclusive.step_hinges action).exposes) actions _ ⟨by rintro _ _ ⟨⟩, by rintro _ ⟨⟩⟩
  · exact Throughout.imp (fun _ _ _ => Owned.step) (fun _ _ owned _ => owned.undisturbed) (owned_start znode)

def hostA : Name := ⟨[65], by decide⟩
def hostB : Name := ⟨[66], by decide⟩
def hostC : Name := ⟨[67], by decide⟩

/-- A delete takes effect and its answer is lost; before it is repeated, another client has got the lock, and
after that a third one gets it too. -/
def repeatedDelete : List Action :=
  [.lock hostA, .serve hostA .answered, .receive hostA, .release hostA, .serve hostA (.lost false),
    .lock hostB, .serve hostB .answered, .receive hostB, .receive hostA, .serve hostA .answered,
    .lock hostC, .serve hostC .answered, .receive hostC]

theorem repeatedDelete_two_holders :
    ∃ final, run step {} repeatedDelete = .ok final ∧ (final.client hostB).holder = true ∧ (final.client hostC).holder = true ∧
      final.znode = some hostC.val ∧ ¬ final.Exclusive := by
  have seen : (run step {} repeatedDelete).toOption.map
      (fun s => ((s.client hostB).holder, (s.client hostC).holder, s.znode)) = some (true, true, some hostC.val) := by decide
  obtain ⟨final, ran, same⟩ := ok_of_seen seen
  simp only [Prod.mk.injEq] at same
  obtain ⟨first, second, named⟩ := same
  exact ⟨final, ran, first, second, named, fun exclusive => absurd (exclusive.1 hostB hostC first second) (by decide)⟩

end System

end TFCommon.Zookeeper
