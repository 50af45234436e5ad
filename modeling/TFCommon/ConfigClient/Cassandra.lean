import TFCommon.ConfigClient.DbClient
import TFCommon.Lib.KeyedList
import TFCommon.Lib.Run
import Mathlib.Data.List.Lex
import Mathlib.Data.Char

/-! The object cache of `ConfigCassandraPartition` for one uuid: a row of the database is compared with the fields that are
cached, and what has changed is pushed to a consumer. -/
namespace TFCommon.ConfigClient.Cassandra

structure Column where
  key : Str
  value : Str
  timestamp : Nat
deriving DecidableEq, Repr

structure Adapter where
  key : Str
  value : Str
  refFqName : Str := []
deriving DecidableEq, Repr

structure Field where
  key : Str
  value : Str
  refFqName : Str := []
  timestamp : Nat
  refreshed : Bool
deriving DecidableEq, Repr

structure Context where
  listMapProperties : List (Str × Adapter) := []
  updated : List Str := []
  candidates : List Str := []
  objType : Str := []
  fqName : Str := []
  fqNamePresent : Bool := false
  ignoreObject : Bool := false
  fqNameUnknown : Bool := false
deriving DecidableEq, Repr

inductive Fault where
  -- `substr` from beyond the end of the string.
  | outOfRange
  | assertion
  -- The end iterator of the map is dereferenced.
  | endOfMap
  | disabled
deriving DecidableEq, Repr

/-! ### Keys -/

def typeField (key : Str) : Str := if ':' ∈ key then key.takeWhile (· ≠ ':') ++ [':'] else []

def afterFirst (key : Str) : Str := (key.dropWhile (· ≠ ':')).tail

def beforeLast (key : Str) : Str := (key.reverse.dropWhile (· ≠ ':')).tail.reverse

def afterLast (key : Str) : Str := (key.reverse.takeWhile (· ≠ ':')).reverse

def isRef (key : Str) : Bool := typeField key = "ref:".toList
def isParent (key : Str) : Bool := typeField key = "parent:".toList
def isProp (key : Str) : Bool := typeField key = "prop:".toList
def isList (key : Str) : Bool := typeField key = "propl:".toList || typeField key = "propm:".toList

/-! ### One column -/

def setInsert (x : Str) (s : List Str) : List Str := KeyedList.insert id x s

def noteName (c : Column) (context : Context) : Except Fault Context :=
  if c.key = typeKey then
    .ok (if context.objType = [] then { context with objType := c.value.filter (· ≠ '"') } else context)
  else if c.key = fqNameKey then
    if context.fqName = [] then
      if c.value = [] then .error .outOfRange
      else
        let name := ((c.value.drop 1).take (c.value.length - 2)).filter fun x => x ≠ '"' && x ≠ ' '
        .ok { context with fqNamePresent := true, fqName := name.map fun x => if x = ',' then ':' else x }
    else .ok { context with fqNamePresent := true }
  else .ok context

/-- The field of a column is refreshed or entered; the flag says whether its value is new. Of the columns that name the
object it always is (`SkipTimeStampCheckForTypeAndFQName`). -/
def refresh (fields : List Field) (a : Adapter) (timestamp : Nat) : List Field × Bool :=
  match fields.find? (·.key = a.key) with
  | none => (KeyedList.insert Field.key ⟨a.key, a.value, a.refFqName, timestamp, true⟩ fields, true)
  | some f =>
    if isName a.key then (KeyedList.update Field.key a.key ({ · with refreshed := true }) fields, true)
    else
      (KeyedList.update Field.key a.key ({ · with refreshed := true, timestamp }) fields,
        timestamp = 0 || f.timestamp ≠ timestamp)

structure Parse where
  fields : List Field
  context : Context := {}
  data : List Adapter := []
deriving DecidableEq, Repr

def isSkipped (key : Str) : Bool := isProp key && skipProperties.contains (afterFirst key)

def isUnknown (names : Names) (key : Str) : Bool :=
  (isRef key || isParent key) && uuidToFqName names (afterLast key) = "ERROR".toList

def adapterOf (names : Names) (c : Column) : Adapter :=
  ⟨c.key, c.value, if isRef c.key then uuidToFqName names (afterLast c.key) else []⟩

def storeKeyIfUpdated (names : Names) (p : Parse) (c : Column) : Except Fault Parse := do
  if isSkipped c.key then
    let draft := afterFirst c.key = "draft_mode_state".toList && c.value ≠ []
    return { p with context := { p.context with ignoreObject := p.context.ignoreObject || draft } }
  if isUnknown names c.key then
    return { p with context := { p.context with fqNameUnknown := true } }
  let a := adapterOf names c
  let context ← noteName c p.context
  let (fields, new) := refresh p.fields a c.timestamp
  if isList c.key then
    let name := beforeLast c.key
    let context := { context with listMapProperties := context.listMapProperties ++ [(name, a)] }
    if new then
      return { p with fields, context := { context with updated := setInsert name context.updated } }
    else
      return { p with fields, context := { context with candidates := setInsert name context.candidates } }
  else if new then
    return ⟨fields, context, p.data ++ [a]⟩
  else
    return { p with fields, context }

def parseRow (names : Names) : Parse → List Column → Except Fault Parse
  | p, [] => .ok p
  | p, c :: rest => do
    let p ← storeKeyIfUpdated names p c
    parseRow names p rest

/-! ### List and map properties -/

/-- The keys agree but for the last character of the name, as far as the source compares them. -/
def sameName (name key : Str) : Bool := name.take (name.length - 1) = key.take (name.length - 1)

/-- Whether a field that was not refreshed comes before the first key that does not agree. -/
def scan (name : Str) : List Field → Except Fault Bool
  | [] => .error .endOfMap
  | f :: rest => if sameName name f.key then if f.refreshed then scan name rest else .ok true else .ok false

def hasStale (fields : List Field) (name : Str) : Except Fault Bool :=
  match KeyedList.lowerBound Field.key name fields with
  | [] => .error .assertion
  | f :: rest => if sameName name f.key then scan name (f :: rest) else .error .assertion

def reviseUpdateList (fields : List Field) : List Str → List Str → Except Fault (List Str)
  | [], updated => .ok updated
  | name :: rest, updated =>
    if updated.contains name then reviseUpdateList fields rest updated
    else do
      let stale ← hasStale fields name
      reviseUpdateList fields rest (if stale then setInsert name updated else updated)

/-! ### The consumer -/

abbrev Held := Str → Option Str

def sameProperty (k l : Str) : Bool := isList k && isList l && beforeLast k = beforeLast l

/-- An add or change push: a list or map property is replaced as a whole. -/
def applyChange (data : List Adapter) (held : Held) : Held := fun k =>
  if isName k then none
  else match data.find? (·.key = k) with
    | some a => some a.value
    | none => if data.any (fun a => sameProperty a.key k) then none else held k

/-- A delete push. Of a list or map property it takes effect only when no entry is left in the cache. -/
def applyDelete (data left : List Field) (held : Held) : Held := fun k =>
  if data.any (·.key = k) && !left.any (fun f => sameProperty f.key k) then none else held k

/-! ### The cache -/

structure Partition where
  -- The entry of the uuid in `object_cache_map_`.
  cache : Option (List Field) := none
  names : Names
  held : Held := fun _ => none
  -- The columns of the last row that count, if the last thing read was an object.
  shown : Option (List Column) := none

inductive Action where
  | row (columns : List Column)
  | delete
  | rename (uuid : Str) (entry : Option NameEntry)
deriving DecidableEq, Repr

namespace Partition

def markCacheDirty (s : Partition) : List Field := (s.cache.getD []).map fun f => { f with refreshed := false }

/-- `HandleObjectDelete` with `add_change`: the fields that were not refreshed are deleted. -/
def deleteStale (s : Partition) (fields : List Field) : Partition :=
  let stale := fields.filter fun f => !f.refreshed && !isName f.key
  let left := fields.filter fun f => f.refreshed || isName f.key
  { s with cache := some left, held := applyDelete stale left s.held }

def deleteObject (s : Partition) (uuid : Str) : Partition :=
  if uuidToFqName s.names uuid true = "ERROR".toList then s
  else match s.cache with
    | none => s
    | some fields =>
      { s with
        cache := none
        held := applyDelete (fields.filter fun f => !isName f.key) [] s.held
        names := purgeFqNameCache s.names uuid }

def stored (names : Names) (columns : List Column) : List Column :=
  columns.filter fun c => !isSkipped c.key && !isUnknown names c.key

def processRow (s : Partition) (uuid : Str) (columns : List Column) : Except Fault Partition := do
  let p ← parseRow s.names { fields := s.markCacheDirty } columns
  if p.context.ignoreObject then
    .ok { s with cache := none, names := purgeFqNameCache s.names uuid, shown := none }
  else if p.context.objType = [] ∨ p.context.fqNamePresent = false then
    .ok { ({ s with cache := some p.fields }.deleteObject uuid) with shown := none }
  else
    let updated ← reviseUpdateList p.fields p.context.candidates p.context.updated
    let lists := updated.flatMap fun name => (p.context.listMapProperties.filter (·.1 = name)).map Prod.snd
    let s := { s with held := applyChange (p.data ++ lists) s.held, shown := some (stored s.names columns) }
    .ok (s.deleteStale p.fields)

/-- A column whose value has changed since it was shown has another timestamp. -/
def Stamped (s : Partition) (columns : List Column) : Prop :=
  ∀ c ∈ columns, ∀ d ∈ s.shown.getD [], c.key = d.key → c.timestamp = d.timestamp → c.value = d.value

instance (s : Partition) (columns : List Column) : Decidable (s.Stamped columns) :=
  inferInstanceAs (Decidable (∀ c ∈ columns, ∀ d ∈ s.shown.getD [], c.key = d.key → c.timestamp = d.timestamp → c.value = d.value))

/-- The steps. A row has each column once; a row without columns is handled as a delete (`ReadObjUUIDTable`). -/
def step (uuid : Str) (s : Partition) : Action → Except Fault Partition
  | .row columns =>
    if (columns.map Column.key).Nodup ∧ s.Stamped columns then
      if columns = [] then .ok { s.deleteObject uuid with shown := none } else s.processRow uuid columns
    else .error .disabled
  | .delete => .ok { s.deleteObject uuid with shown := none }
  | .rename u entry => .ok { s with names := fun v => if v = u then entry else s.names v }

end Partition

end TFCommon.ConfigClient.Cassandra
