import TFCommon.ConfigClient.Converge
import TFCommon.Lib.Loop
import Mathlib.Data.List.TakeWhile

/-! `ConfigEtcdPartition::ProcessUUIDUpdate` of an object that the cache holds, turn by turn. The walk erases members of the
document that it iterates, and it visits a member that has changed twice: first it takes it from the cached document. It
has the outcome of `diff`, unless a name has a NUL in it, at which the walk cuts it. -/
namespace TFCommon.ConfigClient.EtcdDiff
open Etcd

/-- A name as the C string that `GetString` answers. -/
def cString (name : Str) : Str := name.takeWhile (· ≠ '\x00')

/-- The members from the iterator on, and the two documents. -/
structure Walk where
  rest : List Member
  docs : Diff

def turn (w : Walk) : Option (Turn Walk (Except Fault (Option Diff))) :=
  match w.rest with
  | [] => some (.exit (.ok (some w.docs)))
  | ⟨name, v⟩ :: rest =>
    let key := cString name
    if key = draftKey then
      match v with
      | .text mode =>
        if cString mode = [] then some (.again ⟨rest, { w.docs with updated := w.docs.updated.erase name }⟩)
        else some (.exit (.ok none))
      | _ => some (.exit (.error .assertion))
    else if key ∈ w.docs.cached ∧ isName key = false then
      let cached := w.docs.cached.erase key
      match w.docs.updated.lookup key with
      -- `updDoc[key.c_str()]` of a member that is not there
      | none => some (.exit (.error .assertion))
      | some v =>
        -- an equal member is erased, and the iterator then stands at the next one
        if w.docs.cached.lookup key = some v then
          some (.again ⟨rest, { w.docs with updated := w.docs.updated.erase name, cached }⟩)
        else some (.again { w with docs := { w.docs with cached } })
    else some (.again { w with rest })

inductive Outcome where
  -- A value without a type or FQ name: `ProcessUUIDDelete`.
  | deleted
  | draft
  -- `GenerateAndPushJson` was called for an add and for a delete.
  | pushed (add delete : Doc) (entry : Entry) (held : Doc)

def push (o : Object) (s : Client) (v : Doc) : Option Diff → Except Fault Outcome
  | none => .ok .draft
  | some d => do
    let (entry, held) ← s.pushUpdate o v d
    let (_, held) ← generateAndPushJson o.schema s.names d.objType false d.cached v held
    .ok (.pushed d.updated d.cached entry held)

/-- `ProcessUUIDUpdate`, for an object with a type and a document in the cache. -/
def processUUIDUpdate (o : Object) (s : Client) (objType : Str) (c v : Doc) (turns : Nat) : Option (Except Fault Outcome) :=
  if fqNameKey ∈ v ∧ typeKey ∈ v then (loop turn turns ⟨v.entries, ⟨v, c, objType⟩⟩).map (· >>= push o s v)
  else some (.ok .deleted)

variable {key : Str} {v old : Val} {rest : List Member} {d : Diff}

section
variable {k : Str} {c value : Doc} {objType : Str} (changed : DiffAt false k (value.lookup k) ⟨value, c, objType⟩ d)
  (undrafted : draftKey ∉ value)
include changed undrafted

end

end TFCommon.ConfigClient.EtcdDiff
