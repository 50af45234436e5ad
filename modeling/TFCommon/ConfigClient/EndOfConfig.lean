import TFCommon.Lib.Run
import Mathlib.Data.String.Basic

/-! The bulk read of the Cassandra and the etcd client: the reader of the database hands a `CREATE` request for every
object and then one `EndOfConfig` request to each partition. There the requests go through a work queue into a map that is
keyed by the uuid, and a second task, `ConfigReader`, goes through that map in the order of its keys. -/
namespace TFCommon.ConfigClient.Bulk

inductive Kind where
  | cassandra
  | etcd
deriving DecidableEq, Repr

inductive Oper where
  | create
  | update
  | delete
  | endOfConfig
deriving DecidableEq, Repr

structure Request where
  oper : Oper
  uuid : String
  -- It is, or has absorbed, a `CREATE` that was enqueued before the partition's `EndOfConfig`.
  early : Bool := false
deriving DecidableEq, Repr

inductive Reader where
  | idle
  | triggered
  | running (handled : Nat)
deriving DecidableEq, Repr

structure Partition where
  queue : List Request := []
  -- `uuid_read_set_` or `uuid_process_set_`, in the order of the keys. While the reader runs, what its iterator has not
  -- reached yet.
  set : List Request := []
  -- What the reader has passed over and not yet read from the database.
  bunch : List Request := []
  reader : Reader := .idle
  -- The partition's reader has called `BulkSyncDone`.
  done : Bool := false
deriving DecidableEq, Repr

inductive BulkReader where
  | triggered
  | reading
  -- It has enqueued `EndOfConfig` to so many partitions.
  | sending (partitions : Nat)
  | aborted
deriving DecidableEq, Repr

structure Config where
  kind : Kind
  workers : Nat
  positive : 0 < workers
  hash : String → Nat
  inRange : ∀ uuid, hash uuid < workers
  -- `GetNumReadRequestToBunch` and `GetMaxRequestsToYield`.
  bunchSize : Nat
  yield : Nat

structure Client where
  partitions : Nat → Partition := fun _ => {}
  bulk : BulkReader := .triggered
  bulkSyncStatus : Int
  reinitTriggered : Bool := false
  endOfRibComputed : Bool := false
  -- How often `ConfigClientManager::EndOfConfig` has run.
  endOfConfigs : Nat := 0

inductive Action where
  | bulkStart
  | bulkCreate (uuid : String)
  | bulkDone
  | bulkSend
  | bulkAbort
  -- A request of the AMQP client, of the etcd watcher or of a retry timer.
  | request (oper : Oper) (uuid : String)
  -- The work queue hands its first request to the map.
  | process (partition : Nat)
  | readerStart (partition : Nat)
  -- One turn of the loop of `ConfigReader`, in which a read of the database succeeds or not.
  | readerTurn (partition : Nat) (success : Bool)
  | reinit
  | init
deriving DecidableEq, Repr

inductive Fault where
  | disabled
  | assertion
deriving DecidableEq, Repr

/-! ### A partition -/

/-- A request for a key that is in the map: it takes the place of the one there, or, for etcd, a `DELETE` takes a `CREATE`
away. -/
def absorb (kind : Kind) (old new : Request) : List Request :=
  match kind, old.oper, new.oper with
  | .etcd, .create, .delete => []
  | _, _, _ => [⟨new.oper, new.uuid, old.early || new.early⟩]

def insertRequest (kind : Kind) (r : Request) : List Request → List Request
  | [] => [r]
  | e :: rest =>
    if r.uuid < e.uuid then r :: e :: rest
    else if r.uuid = e.uuid then absorb kind e r ++ rest
    else e :: insertRequest kind r rest

namespace Partition

def enqueue (p : Partition) (r : Request) : Partition := { p with queue := p.queue ++ [r] }

def addRequest (p : Partition) (kind : Kind) (r : Request) (queue : List Request) : Partition :=
  { p with
    queue
    set := insertRequest kind r p.set
    reader := if p.set = [] then .triggered else p.reader }

def again (p : Partition) (rest : List Request) : Partition :=
  { p with set := p.bunch ++ rest, bunch := [], reader := .triggered }

def handled (p : Partition) (yield count : Nat) (rest : List Request) : Partition :=
  if count + 1 = yield then p.again rest else { p with set := rest, reader := .running (count + 1) }

def readBunch (p : Partition) (yield count : Nat) (success : Bool) (rest : List Request) : Partition :=
  if success then
    if yield ≤ count + p.bunch.length then { p with set := rest, bunch := [], reader := .triggered }
    else { p with set := rest, bunch := [], reader := .running (count + p.bunch.length) }
  else p.again rest

def turn (p : Partition) (c : Config) (count : Nat) (success : Bool) : Partition × Bool :=
  match p.set with
  | [] =>
    if p.bunch = [] ∨ success = true then ({ p with bunch := [], reader := .idle }, false)
    else (p.again [], false)
  | e :: rest =>
    if e.oper = .endOfConfig then ({ p with done := true }.handled c.yield count rest, true)
    else if c.kind = .cassandra ∧ e.oper ≠ .delete then
      let p := { p with set := rest, bunch := p.bunch ++ [e] }
      if rest = [] ∨ p.bunch.length = c.bunchSize then (p.readBunch c.yield count success rest, false)
      else (p, false)
    else (p.handled c.yield count rest, false)

def clear (p : Partition) : Partition := { p with set := [], bunch := [], reader := .idle }

def pending (p : Partition) : List Request := p.queue ++ (p.bunch ++ p.set)

end Partition

/-! ### The client -/

def Reader.isRunning : Reader → Bool
  | .running _ => true
  | _ => false

def BulkReader.sentTo : BulkReader → Nat → Bool
  | .sending partitions, i => i < partitions
  | _, _ => false

def BulkReader.isRunning (workers : Nat) : BulkReader → Bool
  | .reading => true
  | .sending partitions => partitions < workers
  | _ => false

namespace Client

def setPartition (s : Client) (i : Nat) (p : Partition) : Client :=
  { s with partitions := fun j => if j = i then p else s.partitions j }

def enqueueRequest (s : Client) (c : Config) (oper : Oper) (uuid : String) : Client :=
  let i := c.hash uuid
  s.setPartition i ((s.partitions i).enqueue ⟨oper, uuid, oper = .create && !s.bulk.sentTo i⟩)

/-- `BulkSyncDone`, with `ConfigClientManager::EndOfConfig` for the last partition. -/
def bulkSyncDone (s : Client) : Except Fault Client :=
  if s.bulkSyncStatus = 1 then
    if s.endOfRibComputed then .error .assertion
    else .ok { s with bulkSyncStatus := 0, endOfRibComputed := true, endOfConfigs := s.endOfConfigs + 1 }
  else .ok { s with bulkSyncStatus := s.bulkSyncStatus - 1 }

def fresh (c : Config) : Client := { bulkSyncStatus := c.workers }

def ReadersIdle (s : Client) (c : Config) : Prop := ∀ i < c.workers, (s.partitions i).reader = .idle

instance (s : Client) (c : Config) : Decidable (s.ReadersIdle c) :=
  inferInstanceAs (Decidable (∀ i < c.workers, (s.partitions i).reader = .idle))

def NoneRunning (s : Client) (c : Config) : Prop := ∀ i < c.workers, (s.partitions i).reader.isRunning = false

instance (s : Client) (c : Config) : Decidable (s.NoneRunning c) :=
  inferInstanceAs (Decidable (∀ i < c.workers, (s.partitions i).reader.isRunning = false))

def enabledIf (condition : Prop) [Decidable condition] (next : Except Fault Client) : Except Fault Client :=
  if condition then next else .error .disabled

def process (s : Client) (c : Config) (i : Nat) : Except Fault Client :=
  match (s.partitions i).queue with
  | [] => .error .disabled
  | r :: queue => .ok (s.setPartition i ((s.partitions i).addRequest c.kind r queue))

def readerTurn (s : Client) (c : Config) (i : Nat) (success : Bool) : Except Fault Client :=
  match (s.partitions i).reader with
  | .running count =>
    if s.reinitTriggered then .ok (s.setPartition i (s.partitions i).clear)
    else
      let (p, announces) := (s.partitions i).turn c count success
      if announces then (s.setPartition i p).bulkSyncDone else .ok (s.setPartition i p)
  | _ => .error .disabled

/-- The steps, as far as the policies of the tasks allow: the bulk reader and the readers exclude each other, the reader
of a partition and its work queue too, and `Init` excludes all of them. -/
def step (c : Config) (s : Client) : Action → Except Fault Client
  | .bulkStart => enabledIf (s.bulk = .triggered ∧ s.NoneRunning c) (.ok { s with bulk := .reading })
  | .bulkCreate uuid => enabledIf (s.bulk = .reading ∧ uuid ≠ "") (.ok (s.enqueueRequest c .create uuid))
  | .bulkDone => enabledIf (s.bulk = .reading) (.ok { s with bulk := .sending 0 })
  | .bulkSend =>
    match s.bulk with
    | .sending i =>
      enabledIf (i < c.workers) (.ok
        { s.setPartition i ((s.partitions i).enqueue ⟨.endOfConfig, "", false⟩) with bulk := .sending (i + 1) })
    | _ => .error .disabled
  | .bulkAbort => enabledIf (s.bulk = .reading ∧ s.reinitTriggered = true) (.ok { s with bulk := .aborted })
  | .request oper uuid => enabledIf (oper ≠ .endOfConfig ∧ uuid ≠ "") (.ok (s.enqueueRequest c oper uuid))
  | .process i => enabledIf (i < c.workers ∧ (s.partitions i).reader.isRunning = false) (s.process c i)
  | .readerStart i =>
    enabledIf (i < c.workers ∧ (s.partitions i).reader = .triggered ∧ s.bulk.isRunning c.workers = false)
      (.ok (s.setPartition i { s.partitions i with reader := .running 0 }))
  | .readerTurn i success => enabledIf (i < c.workers) (s.readerTurn c i success)
  | .reinit => .ok { s with reinitTriggered := true }
  | .init =>
    enabledIf (s.reinitTriggered = true ∧ s.bulk ≠ .triggered ∧ s.bulk.isRunning c.workers = false ∧ s.ReadersIdle c)
      (.ok (fresh c))

end Client

end TFCommon.ConfigClient.Bulk
