import TFCommon.BitSet.Block
import TFCommon.Lib.Vec

/-! The class `BitSet`: a vector of 64-bit blocks without trailing zero blocks.
Reading `size_t` as `Fin (2 ^ 64)` keeps its wrap-around. A resize that no address
space can hold fails with `badAlloc`, and a failed `assert` is a fault as well. -/
namespace TFCommon

abbrev SizeT := Fin (2 ^ 64)

instance sizeT_neZero : NeZero (2 ^ 64) := inferInstance

inductive Fault where
  | badAlloc | assertion
  deriving DecidableEq, Repr

structure BitSet where
  blocks : List BitSet.Block
  deriving DecidableEq, Repr

namespace BitSet

def npos : SizeT := Fin.last (2 ^ 64 - 1)

/-- With more blocks the number of bits, `size()`, would not fit in `size_t`. -/
def maxBlocks : Nat := 2 ^ 58 - 1

def blockIndex (pos : SizeT) : Nat := pos.val / 64
def blockOffset (pos : SizeT) : Nat := pos.val % 64
def bitPosition (idx offset : Nat) : SizeT := Fin.ofNat (2 ^ 64) (idx * 64 + offset)

def block (b : BitSet) (idx : Nat) : Block := b.blocks.getD idx 0#64

def resize (b : BitSet) (n : Nat) : Except Fault BitSet :=
  if n ≤ maxBlocks then .ok ⟨Vec.resize 0#64 n b.blocks⟩ else .error .badAlloc

def set (b : BitSet) (pos : SizeT) : Except Fault BitSet := do
  let idx := blockIndex pos
  let grown ← if b.blocks.length ≤ idx then b.resize (idx + 1) else .ok b
  .ok ⟨grown.blocks.modify idx (fun old => old ||| (1#64 <<< blockOffset pos))⟩

/-- The descending loop of `compact`; index 0 is handled after the loop. -/
def compactFrom (blocks : List Block) : Nat → List Block
  | 0 => if blocks.getD 0 0#64 ≠ 0#64 then Vec.resize 0#64 1 blocks else []
  | idx + 1 =>
    if blocks.getD (idx + 1) 0#64 ≠ 0#64 then Vec.resize 0#64 (idx + 1 + 1) blocks
    else compactFrom blocks idx

def compact (b : BitSet) : BitSet :=
  if b.blocks.length = 0 then b else ⟨compactFrom b.blocks (b.blocks.length - 1)⟩

def reset (b : BitSet) (pos : SizeT) : BitSet :=
  let idx := blockIndex pos
  if idx < b.blocks.length then
    compact ⟨b.blocks.modify idx (fun old => old &&& ~~~(1#64 <<< blockOffset pos))⟩
  else b

def test (b : BitSet) (pos : SizeT) : Bool :=
  let idx := blockIndex pos
  if idx < b.blocks.length then (b.block idx &&& (1#64 <<< blockOffset pos)) != 0#64 else false

def clear (_ : BitSet) : BitSet := ⟨[]⟩
def empty (b : BitSet) : Bool := b.blocks.length == 0
def none (b : BitSet) : Bool := b.blocks.length == 0
def any (b : BitSet) : Bool := b.blocks.length != 0
def size (b : BitSet) : SizeT := Fin.ofNat (2 ^ 64) (b.blocks.length * 64)

def count (b : BitSet) : Nat := b.blocks.foldl (fun count value => count + numBitsSet value) 0

def checkInvariants (b : BitSet) : Except Fault BitSet :=
  if b.blocks.length ≠ 0 ∧ b.block (b.blocks.length - 1) = 0#64 then .error .assertion else .ok b

def searchFrom (find : Block → Nat) : Nat → List Block → Option SizeT
  | _, [] => Option.none
  | idx, value :: rest =>
    if 0 < find value then some (bitPosition idx (find value - 1)) else searchFrom find (idx + 1) rest

def findFirst (b : BitSet) : SizeT := (searchFrom findFirstSet64 0 b.blocks).getD npos

def findNext (b : BitSet) (pos : SizeT) : SizeT :=
  let idx := blockIndex pos
  if b.blocks.length ≤ idx then npos
  else
    let temp := b.block idx &&& ~~~((1#64 <<< (blockOffset pos + 1)) - 1)
    if blockOffset pos < 63 ∧ 0 < findFirstSet64 temp then bitPosition idx (findFirstSet64 temp - 1)
    else (searchFrom findFirstSet64 (idx + 1) (b.blocks.drop (idx + 1))).getD npos

def findLast (b : BitSet) : SizeT :=
  if b.blocks.length = 0 then npos
  else
    let idx := b.blocks.length - 1
    let bit := findLastSet64 (b.block idx)
    if 0 < bit then bitPosition idx (bit - 1) else npos

def findFirstClear (b : BitSet) : SizeT := (searchFrom findFirstClear64 0 b.blocks).getD b.size

def findNextClear (b : BitSet) (pos : SizeT) : SizeT :=
  let idx := blockIndex pos
  if b.blocks.length ≤ idx then pos + 1
  else
    let temp := b.block idx ||| ((1#64 <<< (blockOffset pos + 1)) - 1)
    if blockOffset pos < 63 ∧ 0 < findFirstClear64 temp then bitPosition idx (findFirstClear64 temp - 1)
    else (searchFrom findFirstClear64 (idx + 1) (b.blocks.drop (idx + 1))).getD b.size

def intersects (b rhs : BitSet) : Bool :=
  (List.range (min b.blocks.length rhs.blocks.length)).any (fun idx => (b.block idx &&& rhs.block idx) != 0#64)

def equal (b rhs : BitSet) : Bool :=
  b.blocks.length == rhs.blocks.length &&
    (List.range b.blocks.length).all (fun idx => b.block idx == rhs.block idx)

def contains (b rhs : BitSet) : Bool :=
  !decide (b.blocks.length < rhs.blocks.length) &&
    (List.range rhs.blocks.length).all (fun idx => (rhs.block idx &&& ~~~b.block idx) == 0#64)

def intersectionStep (lhs rhs : BitSet) (idx : Nat) (blocks : List Block) : List Block :=
  if lhs.block idx &&& rhs.block idx ≠ 0#64 then
    (if blocks.length = 0 then Vec.resize 0#64 (idx + 1) blocks else blocks).set idx
      (lhs.block idx &&& rhs.block idx)
  else blocks

def intersectionFrom (lhs rhs : BitSet) : Nat → List Block → List Block
  | 0, blocks => intersectionStep lhs rhs 0 blocks
  | idx + 1, blocks => intersectionFrom lhs rhs idx (intersectionStep lhs rhs (idx + 1) blocks)

def buildIntersection (lhs rhs : BitSet) : Except Fault BitSet :=
  let minsize := min lhs.blocks.length rhs.blocks.length
  if minsize = 0 then .ok ⟨[]⟩
  else checkInvariants ⟨intersectionFrom lhs rhs (minsize - 1) []⟩

def and (b rhs : BitSet) : Except Fault BitSet := do
  let temp ← buildIntersection b rhs
  checkInvariants temp

def or (b rhs : BitSet) : Except Fault BitSet :=
  let minsize := min b.blocks.length rhs.blocks.length
  let maxsize := max b.blocks.length rhs.blocks.length
  let temp := Vec.resize 0#64 maxsize []
  let temp := Vec.updateRange (fun idx _ => b.block idx ||| rhs.block idx) 0 minsize temp
  let temp := Vec.updateRange (fun idx _ => b.block idx) minsize (b.blocks.length - minsize) temp
  let temp := Vec.updateRange (fun idx _ => rhs.block idx) minsize (rhs.blocks.length - minsize) temp
  checkInvariants ⟨temp⟩

def andAssign (b rhs : BitSet) : Except Fault BitSet :=
  let minsize := min b.blocks.length rhs.blocks.length
  let blocks := Vec.updateRange (fun idx old => old &&& rhs.block idx) 0 minsize b.blocks
  let blocks := Vec.updateRange (fun _ _ => 0#64) minsize (b.blocks.length - minsize) blocks
  checkInvariants (compact ⟨blocks⟩)

def orAssign (b rhs : BitSet) : Except Fault BitSet :=
  let blocks := if b.blocks.length < rhs.blocks.length then
    Vec.resize 0#64 rhs.blocks.length b.blocks else b.blocks
  checkInvariants ⟨Vec.updateRange (fun idx old => old ||| rhs.block idx) 0 rhs.blocks.length blocks⟩

def setAll (b rhs : BitSet) : Except Fault BitSet := do
  let result ← orAssign b rhs
  checkInvariants result

def resetAll (b rhs : BitSet) : Except Fault BitSet :=
  let minsize := min b.blocks.length rhs.blocks.length
  checkInvariants (compact ⟨Vec.updateRange (fun idx old => old &&& ~~~rhs.block idx) 0 minsize b.blocks⟩)

def buildComplement (lhs rhs : BitSet) : Except Fault BitSet :=
  let blocks := Vec.resize 0#64 lhs.blocks.length []
  let minsize := min blocks.length rhs.blocks.length
  let blocks := Vec.updateRange (fun idx _ => lhs.block idx &&& ~~~rhs.block idx) 0 minsize blocks
  let blocks := Vec.updateRange (fun idx _ => lhs.block idx) minsize (lhs.blocks.length - minsize) blocks
  checkInvariants (compact ⟨blocks⟩)

def fromStringStep (str : List Char) (idx : Nat) (b : BitSet) : Except Fault BitSet :=
  if str[idx]? = some '1' then b.set (Fin.ofNat (2 ^ 64) idx) else .ok b

/-- The descending loop of `FromString`; index 0 is handled after the loop. -/
def fromStringFrom (str : List Char) : Nat → BitSet → Except Fault BitSet
  | 0, b => fromStringStep str 0 b
  | idx + 1, b => do
    let next ← fromStringStep str (idx + 1) b
    fromStringFrom str idx next

def fromString (str : List Char) : Except Fault BitSet :=
  if str.length = 0 then .ok ⟨[]⟩ else fromStringFrom str (str.length - 1) ⟨[]⟩

end BitSet

end TFCommon
