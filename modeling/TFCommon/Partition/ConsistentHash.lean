import TFCommon.Lib.HashRing
import TFCommon.Lib.Run
import Mathlib.Data.List.AList

/-! The hash ring of the partition library (`consistent_hash.py`), and the assignment of partitions that a client computes
with it. The ring is changed node by node when the list of the cluster changes, and never built again. -/
namespace TFCommon.Partition

abbrev Node := List Char

/-- `_hash_digest`, of which nothing is used but that it is a function. -/
abbrev Digest := List Char → Vector (BitVec 8) 16

def str (n : Nat) : List Char := Nat.toDigits 10 n

inductive Fault where
  -- `list.remove` of an element that is not there.
  | valueError
  | keyError
  -- The local name is not in the list of the cluster.
  | missingName
deriving DecidableEq, Repr

structure ConsistentHash where
  keys : List Nat := []
  keyNode : AList (fun _ : Nat => Node) := ∅
  nodes : List Node := []
  index : Nat := 0

def interleaveCount : Nat := 40

def hashVal (b : Vector (BitVec 8) 16) (i : Fin 4) : Nat :=
  (b.get ⟨3 + i * 4, by omega⟩).toNat <<< 24 ||| (b.get ⟨2 + i * 4, by omega⟩).toNat <<< 16 |||
    (b.get ⟨1 + i * 4, by omega⟩).toNat <<< 8 ||| (b.get ⟨0 + i * 4, by omega⟩).toNat

namespace ConsistentHash

section
variable (digest : Digest)

def nodeKeys (node : Node) : List Nat :=
  (List.range interleaveCount).flatMap fun j =>
    (List.finRange 4).map fun i => hashVal (digest (node ++ '-' :: str j)) i

def place (node : Node) (h : ConsistentHash) (key : Nat) : ConsistentHash :=
  { h with keyNode := h.keyNode.insert key node, keys := h.keys ++ [key] }

def generateRing (h : ConsistentHash) (start : Nat) : ConsistentHash :=
  (h.nodes.drop start).foldl (fun h node => (nodeKeys digest node).foldl (place node) h) h

def addNodes (h : ConsistentHash) (nodes : List Node) : ConsistentHash :=
  let h := { h with nodes := h.nodes ++ nodes }.generateRing digest h.index
  { h with index := h.nodes.length, keys := h.keys.insertionSort (· ≤ ·) }

def unplace (h : ConsistentHash) (key : Nat) : Except Fault ConsistentHash :=
  if key ∈ h.keys then
    if key ∈ h.keyNode then .ok { h with keys := h.keys.erase key, keyNode := h.keyNode.erase key } else .error .keyError
  else .error .valueError

def delNode (h : ConsistentHash) (node : Node) : Except Fault ConsistentHash :=
  if node ∈ h.nodes then do
    let h ← (nodeKeys digest node).foldlM unplace h
    return { h with index := h.index - 1, nodes := h.nodes.erase node }
  else .ok h

def delNodes (h : ConsistentHash) (nodes : List Node) : Except Fault ConsistentHash := nodes.foldlM (delNode digest) h

def bisect (keys : List Nat) (key : Nat) : Nat := (keys.takeWhile (· ≤ key)).length

def genKey (key : List Char) : Nat := hashVal (digest key) 0

def getNodePos (h : ConsistentHash) (key : List Char) : Option Nat :=
  if h.keyNode.entries = [] then none
  else
    let pos := bisect h.keys (genKey digest key)
    some (if pos = h.keys.length then 0 else pos)

def getNode (h : ConsistentHash) (key : List Char) : Except Fault (Option Node) :=
  match h.getNodePos digest key with
  | none => .ok none
  | some pos =>
    match h.keys[pos]? >>= (h.keyNode.lookup ·) with
    | some node => .ok (some node)
    | none => .error .keyError

end

end ConsistentHash

structure Client where
  name : Node
  clusterList : List Node
  conHash : ConsistentHash
  target : List Nat

/-- A new list of the cluster. The servers that are new and those that are gone come in the order of the sets. -/
structure Update where
  list : List Node
  newServers : List Node
  deletedServers : List Node
deriving DecidableEq, Repr

namespace Client

section
variable (digest : Digest) (maxPartition : Nat)

def initialTargets (name : Node) (h : ConsistentHash) : Except Fault (List Nat) :=
  (List.range maxPartition).foldlM (fun target part => do
    let node ← h.getNode digest (str part)
    return if node = some name then target ++ [part] else target) []

def updatedTargets (name : Node) (h : ConsistentHash) : Except Fault (List Nat) :=
  (List.range maxPartition).foldlM (fun target part => do
    let node ← h.getNode digest (str part)
    return if node = some name ∧ part ∉ target then target ++ [part] else target) []

def start (name : Node) (list : List Node) : Except Fault Client :=
  if name ∈ list then do
    let h := ({} : ConsistentHash).addNodes digest list
    return ⟨name, list, h, ← initialTargets digest maxPartition name h⟩
  else .error .missingName

def updateHash (h : ConsistentHash) (u : Update) : Except Fault ConsistentHash :=
  let h := if u.newServers = [] then h else h.addNodes digest u.newServers
  if u.deletedServers = [] then .ok h else h.delNodes digest u.deletedServers

def updateClusterList (c : Client) (u : Update) : Except Fault Client :=
  if c.name ∈ u.list then do
    let h ← updateHash digest c.conHash u
    return ⟨c.name, u.list, h, ← updatedTargets digest maxPartition c.name h⟩
  else .error .missingName

/-- A list without the local name is refused, and the client goes on. -/
def step (c : Client) (u : Update) : Except Fault Client :=
  match c.updateClusterList digest maxPartition u with
  | .error .missingName => .ok c
  | result => result

end

/-- A list without duplicates, with its differences to the one before in any order, when the hash values on the ring are
distinct. -/
def Fine (digest : Digest) (c : Client) (u : Update) : Prop :=
  c.name ∈ u.list → u.list.Nodup ∧ u.newServers.Perm (u.list.filter (· ∉ c.clusterList)) ∧
    u.deletedServers.Perm (c.clusterList.filter (· ∉ u.list)) ∧
    HashRing.Apart (ConsistentHash.nodeKeys digest) (c.clusterList ++ u.newServers)

instance (digest : Digest) (c : Client) (u : Update) : Decidable (Fine digest c u) :=
  inferInstanceAs (Decidable (_ → _ ∧ _ ∧ _ ∧ _))

end Client

end TFCommon.Partition
