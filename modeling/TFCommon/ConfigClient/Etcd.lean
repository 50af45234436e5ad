import TFCommon.ConfigClient.DbClient
import TFCommon.Lib.Run
import Mathlib.Data.List.AList

/-! The etcd client for one uuid: watch events go through the work queue of the partition into its process set, in which they
are merged, and from there to the object cache; what has changed is pushed to a consumer, and an object that refers to an
unknown parent or object is tried again by a timer. -/
namespace TFCommon.ConfigClient.Etcd

/-- The name of a reference: the parts that etcd gives, or the string that is made of them. -/
inductive RefName where
  | parts (l : List Str)
  | whole (s : Str)
deriving DecidableEq, Repr

/-- An element of a `_refs` member; the attribute `none` is null. -/
structure Ref where
  uuid : Str
  fqName : Option RefName
  attr : Option Str
deriving DecidableEq, Repr

inductive Val where
  | text (s : Str)
  | names (l : List Str)
  | refs (l : List Ref)
  | other (json : Str)
deriving DecidableEq, Repr

abbrev Doc := AList fun _ : Str => Val

abbrev Member := Sigma fun _ : Str => Val

/-- What the JSON parser of the consumer says of the fields of a type. -/
structure Schema where
  -- `GetWrapperFieldName` is not empty: a list or map property.
  wrapped : Str → Str → Bool
  linkWithAttr : Str → Str → Bool

inductive Fault where
  -- An assertion, of the client or of the JSON library.
  | assertion
  -- The last character of an empty string is erased.
  | undefined
  -- A retry timer calls an entry of the cache that is gone.
  | useAfterFree
  -- The FQ name of a parent or reference is not known: the object is to be tried again.
  | unresolved
  | disabled
deriving DecidableEq, Repr

def parentTypeKey : Str := "parent_type".toList
def parentUuidKey : Str := "parent_uuid".toList
def bgpaasKey : Str := "bgpaas_session_attributes".toList
def draftKey : Str := "draft_mode_state".toList

def isRefs (key : Str) : Bool := "_refs".toList <:+: key

def joinName (parts : List Str) : Except Fault Str :=
  if parts = [] then .error .undefined else .ok (parts.flatMap (· ++ [':'])).dropLast

/-! ### What is pushed of a document -/

def fixRef (names : Names) (link : Bool) (r : Ref) : Except Fault Ref :=
  let attr := if link && r.attr.isNone then some "{}".toList else r.attr
  if findFqName names r.uuid = "ERROR".toList then
    match r.fqName with
    | none => .error .unresolved
    | some (.whole _) => .error .assertion
    | some (.parts l) => do
      let name ← joinName l
      .ok { r with fqName := some (.whole name), attr }
  else .ok { r with fqName := some (.whole (findFqName names r.uuid)), attr }

def fixField (schema : Schema) (names : Names) (objType : Str) (add : Bool) (key : Str) (v : Val) : Except Fault Val :=
  if schema.wrapped objType key then .ok v
  else if key = parentTypeKey then
    match v with
    | .text s => .ok (.text (s.map fun c => if c = '-' then '_' else c))
    | _ => .error .assertion
  else if key = parentUuidKey then
    if add then
      match v with
      | .text u => if findFqName names u = "ERROR".toList then .error .unresolved else .ok v
      | _ => .error .assertion
    else .ok v
  else if key = bgpaasKey then .ok (.text [])
  else if isRefs key && add then
    match v with
    | .refs l => do
      let l ← l.mapM (fixRef names (schema.linkWithAttr objType (key.take (key.length - 5))))
      .ok (.refs l)
    | _ => .error .assertion
  else .ok v

/-- The walk of `GenerateAndPushJson` over the members of a document. References are fixed in the cached document too. -/
def walk (schema : Schema) (names : Names) (objType : Str) (add : Bool) :
    List Member → Doc → Doc → Except Fault (Doc × Doc)
  | [], doc, json => .ok (doc, json)
  | ⟨key, v⟩ :: rest, doc, json =>
    if skipProperties.contains key then walk schema names objType add rest (doc.erase key) json
    else if key = typeKey then
      match v with
      | .text _ => walk schema names objType add rest (doc.erase key) json
      | _ => .error .assertion
    else do
      let v ← fixField schema names objType add key v
      let json := if isRefs key && add && !schema.wrapped objType key then json.insert key v else json
      walk schema names objType add rest (doc.insert key v) json

def applyAdd (doc held : Doc) : Doc := doc.erase fqNameKey ∪ held

def applyDelete (doc held : Doc) : Doc := doc.keys.foldl (fun held k => held.erase k) held

def generateAndPushJson (schema : Schema) (names : Names) (objType : Str) (add : Bool) (doc json held : Doc) :
    Except Fault (Doc × Doc) := do
  let (pushed, json) ← walk schema names objType add doc.entries doc json
  if doc.keys.any (!isName ·) then .ok (json, if add then applyAdd pushed held else applyDelete pushed held)
  else .ok (json, held)

/-! ### What has changed in a document -/

structure Diff where
  -- The members that are new or have changed.
  updated : Doc
  cached : Doc
  objType : Str

/-- The walk of `ProcessUUIDUpdate` over the members of a value; `none` for a draft. -/
def diff (isNew : Bool) : List Member → Diff → Except Fault (Option Diff)
  | [], d => .ok (some d)
  | ⟨key, v⟩ :: rest, d =>
    if key = draftKey then
      match v with
      | .text mode => if mode = [] then diff isNew rest { d with updated := d.updated.erase key } else .ok none
      | _ => .error .assertion
    else if isNew then
      if key = typeKey then
        match v with
        | .text objType => diff isNew rest { d with objType }
        | _ => .error .assertion
      else if key = fqNameKey then
        match v with
        | .names parts => do
          let _ ← joinName parts
          diff isNew rest d
        | _ => .error .assertion
      else diff isNew rest d
    else if key ∈ d.cached ∧ isName key = false then
      -- A member that has changed is visited again, and then it is not in the cached document.
      diff isNew rest
        { d with
          updated := if d.cached.lookup key = some v then d.updated.erase key else d.updated
          cached := d.cached.erase key }
    else diff isNew rest d

/-! ### The client -/

structure Object where
  schema : Schema
  uuid : Str
  -- The type in the path of the key.
  pathType : Str

inductive Request where
  | create (value : Doc)
  | update (value : Doc)
  | delete

structure Entry where
  -- The cached document; `none` is the string "retry".
  json : Option Doc
  objType : Str := []
  -- The value with which the retry timer runs.
  timer : Option Doc := none

structure Client where
  names : Names
  queue : List Request := []
  -- The entry of the uuid in `uuid_process_set_`.
  pending : Option Request := none
  -- The entry of the uuid in `uuid_cache_map_`.
  cache : Option Entry := none
  -- A retry timer runs whose entry is gone.
  orphan : Bool := false
  held : Doc := ∅
  -- The value of the last event, unless that was a delete.
  last : Option Doc := none

namespace Client

def nameValue (o : Object) (names : Names) (v : Doc) : Except Fault Names :=
  match v.lookup typeKey, v.lookup fqNameKey with
  | some (.text _), some (.names parts) => do
    let fqName ← joinName parts
    .ok (if findFqName names o.uuid = "ERROR".toList then addFqNameCache names o.uuid fqName else names)
  | some _, some _ => .error .assertion
  | _, _ => .ok names

def withType (o : Object) (v : Doc) : Doc := if typeKey ∈ v then v else v.insert typeKey (.text o.pathType)

def enqueueUUIDRequest (o : Object) (s : Client) : Request → Except Fault Client
  | .create v => do
    let names ← nameValue o s.names (withType o v)
    .ok { s with names, queue := s.queue ++ [.create (withType o v)] }
  | .update v => do
    let names ← nameValue o s.names (withType o v)
    .ok { s with names, queue := s.queue ++ [.update (withType o v)] }
  | .delete => .ok { s with names := invalidateFqNameCache s.names o.uuid, queue := s.queue ++ [.delete] }

def addUUIDToProcessList (o : Object) (s : Client) (r : Request) : Client :=
  match s.pending, r with
  | some (.create _), .delete => { s with pending := none, names := purgeFqNameCache s.names o.uuid }
  | _, r => { s with pending := some r }

def processUUIDDelete (o : Object) (s : Client) : Except Fault Client :=
  if findFqName s.names o.uuid = "ERROR".toList then .ok s
  else match s.cache with
    | none => .ok s
    | some e =>
      if e.timer.isSome then
        .ok { s with cache := some { e with timer := none }, names := purgeFqNameCache s.names o.uuid }
      else match e.json with
        | none => .error .assertion
        | some json => do
          let (_, held) ← generateAndPushJson o.schema s.names e.objType false json json s.held
          .ok { s with held, cache := none, names := purgeFqNameCache s.names o.uuid }

def pushUpdate (o : Object) (s : Client) (v : Doc) (d : Diff) : Except Fault (Entry × Doc) :=
  match generateAndPushJson o.schema s.names d.objType true d.updated v s.held with
  | .ok (json, held) => .ok ({ json := some json, objType := d.objType }, held)
  | .error .unresolved => .ok ({ json := none, objType := d.objType, timer := some v }, s.held)
  | .error e => .error e

def processUUIDUpdate (o : Object) (s : Client) (v : Doc) : Except Fault Client :=
  let entry := s.cache.getD { json := some v }
  let isNew := s.cache.isNone || entry.json.isNone
  if fqNameKey ∈ v ∧ typeKey ∈ v then do
    match ← diff isNew v.entries ⟨v, entry.json.getD v, entry.objType⟩ with
    | none =>
      .ok { s with
        names := purgeFqNameCache s.names o.uuid
        cache := none
        orphan := s.orphan || entry.timer.isSome }
    | some d =>
      let (entry, held) ← pushUpdate o s v d
      if isNew then .ok { s with cache := some entry, held }
      else
        let (_, held) ← generateAndPushJson o.schema s.names d.objType false d.cached v held
        .ok { s with cache := some entry, held }
  else { s with cache := some { entry with timer := none } }.processUUIDDelete o

inductive Action where
  | watch (event : Request)
  -- `RequestHandler`, in the task of the object processor.
  | process
  -- `ConfigReader` handles the pending request.
  | read
  | expire
  | expireOrphan
  | rename (uuid : Str) (entry : Option NameEntry)

/-- The steps. The values of events have a type and an FQ name. -/
def step (o : Object) (s : Client) : Action → Except Fault Client
  | .watch .delete => { s with last := none }.enqueueUUIDRequest o .delete
  | .watch (.create v) =>
    if typeKey ∈ v ∧ fqNameKey ∈ v then { s with last := some v }.enqueueUUIDRequest o (.create v) else .error .disabled
  | .watch (.update v) =>
    if typeKey ∈ v ∧ fqNameKey ∈ v then { s with last := some v }.enqueueUUIDRequest o (.update v) else .error .disabled
  | .process =>
    match s.queue with
    | [] => .error .disabled
    | r :: rest => .ok ({ s with queue := rest }.addUUIDToProcessList o r)
  | .read =>
    match s.pending with
    | none => .error .disabled
    | some .delete => { s with pending := none }.processUUIDDelete o
    | some (.create v) => { s with pending := none }.processUUIDUpdate o v
    | some (.update v) => { s with pending := none }.processUUIDUpdate o v
  | .expire =>
    match s.cache with
    | none => .error .disabled
    | some e =>
      match e.timer with
      | none => .error .disabled
      | some v => { s with cache := some { e with timer := none } }.enqueueUUIDRequest o (.update v)
  | .expireOrphan => .error (if s.orphan then .useAfterFree else .disabled)
  | .rename u entry => .ok { s with names := fun v => if v = u then entry else s.names v }

end Client

end TFCommon.ConfigClient.Etcd
