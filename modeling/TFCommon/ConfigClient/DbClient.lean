import Mathlib.Data.List.Infix

/-! What the Cassandra and the etcd client share: the FQ name cache of `ConfigDbClient` and the names of columns. Strings are
lists of characters. -/
namespace TFCommon.ConfigClient

abbrev Str := List Char

def typeKey : Str := "type".toList
def fqNameKey : Str := "fq_name".toList

def isName (key : Str) : Bool := key = typeKey || key = fqNameKey

def skipProperties : List Str := ["perms2".toList, "draft_mode_state".toList]

/-! ### The FQ name cache -/

structure NameEntry where
  fqName : Str
  deleted : Bool := false
deriving DecidableEq, Repr

abbrev Names := Str → Option NameEntry

def uuidToFqName (names : Names) (uuid : Str) (deletedOk : Bool := true) : Str :=
  match names uuid with
  | some entry => if !entry.deleted || deletedOk then entry.fqName else "ERROR".toList
  | none => "ERROR".toList

def findFqName (names : Names) (uuid : Str) : Str := uuidToFqName names uuid

def addFqNameCache (names : Names) (uuid fqName : Str) : Names := fun u =>
  if u = uuid then some ((names u).getD { fqName }) else names u

def invalidateFqNameCache (names : Names) (uuid : Str) : Names := fun u =>
  if u = uuid then (names u).map ({ · with deleted := true }) else names u

def purgeFqNameCache (names : Names) (uuid : Str) : Names := fun u => if u = uuid then none else names u

end TFCommon.ConfigClient
