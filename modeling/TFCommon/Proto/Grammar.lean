import TFCommon.Lib.Keeps
import Mathlib.Algebra.Group.Nat.Defs
import Mathlib.Algebra.Group.Int.Defs

/-! Message grammars and the parser that `ProtoElement`, `ProtoChoice` and `ProtoSequence` make of them. Sizes of type
`size_t` are natural numbers that wrap at 2^64, an `int` is converted from them at 32 bits. -/
namespace TFCommon.Proto

def asInt (n : Nat) : Int := if n % 2 ^ 32 < 2 ^ 31 then (n % 2 ^ 32 : Nat) else (n % 2 ^ 32 : Nat) - 2 ^ 32

def asSize (i : Int) : Nat := (i % 2 ^ 64).toNat

/-- The `Setter` of an element: of an integer member, of a string, or of a vector whose items have a width. -/
inductive Setter where
  | none
  | value
  | string
  | vector (width : Nat) (positive : 0 < width)

structure Element where
  kSize : Int := 0
  setter : Setter := .none
  -- `SequenceLength` is `int`, not `void`
  sequenceLength : Bool := false
  -- `ContextType` is not `void`
  contextType : Bool := false

structure Choice where
  kSize : Nat := 0
  contextType : Bool := false
  -- `ContextStorer` is not `void`
  contextStorer : Bool := false

structure Sequence where
  kSize : Nat := 0
  kMinOccurs : Int := 1
  kMaxOccurs : Int := 1
  contextType : Bool := false
  contextStorer : Bool := false

mutual

inductive Grammar where
  | element (element : Element)
  | choice (choice : Choice) (alternatives : Alternatives)
  | sequence (sequence : Sequence) (parts : Parts)

inductive Alternatives where
  | nil
  | cons (value : Int) (grammar : Grammar) (rest : Alternatives)

inductive Parts where
  | nil
  | cons (grammar : Grammar) (rest : Parts)

end

def Grammar.contextType : Grammar → Bool
  | .element e => e.contextType
  | .choice c _ => c.contextType
  | .sequence s _ => s.contextType

structure Frame where
  lensize : Int := 0
  size : Nat := 2 ^ 64 - 1
deriving DecidableEq, Repr

structure ParseContext where
  stack : List Frame := []
deriving DecidableEq, Repr

/-- How a parse ends without a length: with a negative return value, or not at all. -/
inductive Stop where
  | rejected (code : Int) (negative : code < 0)
  | outOfBounds
  | assertion
  -- The size of a string or vector is negative, and so far too large as a `size_t`.
  | tooLong
  | endless
deriving DecidableEq, Repr

abbrev Parser := StateT ParseContext (Except Stop)

namespace ParseContext

def push (c : ParseContext) (frame : Frame) : ParseContext := ⟨frame :: c.stack⟩

def pop (c : ParseContext) : ParseContext :=
  if c.stack.length ≤ 1 then c else ⟨c.stack.tail⟩

def size (c : ParseContext) : Nat :=
  match c.stack with
  | [] => 2 ^ 64 - 1
  | top :: _ => top.size

def lensize (c : ParseContext) : Int :=
  match c.stack with
  | [] => -1
  | top :: _ => top.lensize

def setTop (c : ParseContext) (change : Frame → Frame) : ParseContext :=
  match c.stack with
  | [] => c
  | top :: rest => ⟨change top :: rest⟩

def setSize (c : ParseContext) (size : Nat) : ParseContext := c.setTop fun top => { top with size }

def setLensize (c : ParseContext) (lensize : Int) : ParseContext := c.setTop fun top => { top with lensize }

end ParseContext

def onlyIf (condition : Prop) [Decidable condition] (program : Parser Unit) : Parser Unit :=
  if condition then program else pure ()

def demand (condition : Prop) [Decidable condition] (stop : Stop) : Parser Unit :=
  if condition then pure () else throw stop

def rejectIf (condition : Prop) [Decidable condition] : Parser Unit :=
  if condition then throw (.rejected (-1) (by decide)) else pure ()

def subSize (size result : Nat) : Nat := (size + (2 ^ 64 - result % 2 ^ 64)) % 2 ^ 64

/-! ### Elements -/

section
variable (data : List UInt8)

def bytes (at_ count : Nat) : Parser (List UInt8) :=
  if count = 0 ∨ at_ + count ≤ data.length then pure ((data.drop at_).take count) else throw .outOfBounds

/-- `get_value`, which reads nothing if it is asked for more than eight bytes. -/
def getValue (at_ : Nat) (size : Int) : Parser Nat :=
  if size ≤ 8 then do
    let read ← bytes data at_ size.toNat
    pure (read.foldl (fun value byte => (value * 256 + byte.toNat) % 2 ^ 64) 0)
  else pure (2 ^ 64 - 1)

def sequenceLengthSetter (at_ : Nat) (size : Int) (msgsize : Nat) : Parser Unit := do
  let value ← getValue data at_ size
  modify fun c => c.setLensize size
  rejectIf (msgsize < asSize (asInt value))
  modify fun c => c.setSize (asSize (asInt value))

/-- The bytes that `VectorAccessor::set` reads: whole items until it has had the amount, by `get_value`. -/
def vectorBytes (amount width : Nat) : Nat :=
  if width ≤ 8 then (amount + (width - 1)) / width * width else 0

def setMember (setter : Setter) (at_ amount : Nat) : Parser Unit :=
  match setter with
  | .vector width _ => demand (vectorBytes amount width ≤ data.length - at_) .outOfBounds
  | _ => do
    let _ ← bytes data at_ amount

def variableLengthSetter (setter : Setter) (at_ size : Nat) : Parser Nat := do
  let c ← get
  if asInt c.size < 0 then
    demand (0 ≤ asInt size) .tooLong
    setMember data setter at_ (asInt size).toNat
    pure (asInt size).toNat
  else
    rejectIf (size < (asInt c.size).toNat)
    setMember data setter at_ (asInt c.size).toNat
    pure (asInt c.size).toNat

/-- The setter of `ProtoElement::Parse`, by the element's `kSize`. -/
def setElement (e : Element) (at_ size : Nat) : Parser Nat :=
  if e.kSize = -1 then
    match e.setter with
    | .none => pure 0
    | setter => variableLengthSetter data setter at_ size
  else if 0 < e.kSize then
    match e.setter with
    | .none => pure e.kSize.toNat
    | _ => do
      let _ ← getValue data at_ e.kSize
      pure e.kSize.toNat
  else if negative : e.kSize < 0 then throw (.rejected e.kSize negative)
  else pure 0

def parseElement (e : Element) (at_ size : Nat) : Parser Nat := do
  rejectIf (0 < e.kSize ∧ asInt size < e.kSize)
  onlyIf e.sequenceLength (sequenceLengthSetter data at_ e.kSize size)
  setElement data e at_ size

/-! ### Choices and sequences -/

/-- `ContextPop` for an object that was pushed; a `ContextStorer` asserts that it is there. -/
def contextPop (contextStorer : Bool) : Parser Unit := do
  let c ← get
  onlyIf contextStorer (demand (2 ≤ c.stack.length) .assertion)
  set c.pop

/-- `DescendentParser`: a child with a context of its own is parsed in a new frame. -/
def descend (contextStorer : Bool) (contextType : Bool) (child : Parser Nat) : Parser Nat :=
  if contextType then do
    modify fun c => c.push {}
    let result ← child
    contextPop contextStorer
    pure result
  else child

/-- The size that is left after one part of a sequence, for the parts that follow. -/
def takeSize (prevSize size result : Nat) : Parser Nat := do
  let c ← get
  if c.size ≠ prevSize then pure c.size
  else
    set (c.setSize (subSize prevSize result))
    pure (subSize size result)

def Stop.ofPart : Stop → Stop
  | .rejected _ _ => .rejected (-1) (by decide)
  | stop => stop

def refail (parts : Parser Nat) : Parser Nat := fun c => (parts c).mapError Stop.ofPart

/-- One turn of the loop in `ProtoSequence::Parse`. Unless the object is of type `void`, it has a frame of its own. -/
def occurrence (typed contextStorer : Bool) (parts : Parser Nat) : Parser Nat := do
  onlyIf (typed || contextStorer) (modify fun c => c.push {})
  let sublen ← refail parts
  let c ← get
  rejectIf ((sublen : Int) < asInt ((c.size + asSize c.lensize) % 2 ^ 64))
  onlyIf (typed || contextStorer) (contextPop contextStorer)
  pure sublen

/-- The loop. Without a bound it has a turn for each byte; a turn that takes no byte is repeated for ever. -/
def occurrences (body : Nat → Nat → Parser Nat) (unbounded : Bool) : Nat → Nat → Nat → Parser Nat
  | 0, _, _ => pure 0
  | turns + 1, at_, length =>
    if length = 0 then pure 0
    else do
      let sublen ← body at_ length
      onlyIf unbounded (demand (0 < sublen) .endless)
      let later ← occurrences body unbounded turns (at_ + sublen) (length - sublen)
      pure (sublen + later)

def sequenceLength (kSize at_ size : Nat) : Parser Int :=
  if kSize = 0 then pure (asInt size)
  else do
    rejectIf (size < kSize)
    let value ← getValue data at_ kSize
    demand (0 ≤ asInt value) .assertion
    rejectIf (size - kSize < (asInt value).toNat)
    pure (asInt value)

mutual

/-- `Parse`, of the bytes from a position on, for an object that is of type `void` or not. -/
def parse (typed : Bool) : Grammar → Nat → Nat → Parser Nat
  | .element e, at_, size => parseElement data e at_ size
  | .choice c alternatives, at_, size => do
    rejectIf (size < c.kSize)
    let value ← getValue data at_ c.kSize
    let result ← parseChoice typed c.contextStorer (asInt value) alternatives (at_ + c.kSize) (size - c.kSize)
    pure (c.kSize + result)
  | .sequence s parts, at_, size =>
    if s.kMinOccurs = 0 ∧ size = 0 then pure 0
    else do
      let length ← sequenceLength data s.kSize at_ size
      let unbounded := s.kMaxOccurs = -1
      let turns := if unbounded then length.toNat else s.kMaxOccurs.toNat
      let body := fun at_ length =>
        occurrence typed s.contextStorer (parseParts (typed || s.contextStorer) s.contextStorer parts at_ length)
      let result ← occurrences body unbounded turns (at_ + s.kSize) length.toNat
      pure (s.kSize + result)

def parseChoice (typed contextStorer : Bool) (value : Int) : Alternatives → Nat → Nat → Parser Nat
  | .nil, _, _ => throw (.rejected (-2) (by decide))
  | .cons first g rest, at_, size =>
    if first ≠ -1 ∧ first ≠ value then parseChoice typed contextStorer value rest at_ size
    else descend contextStorer g.contextType (parse (typed || g.contextType) g at_ size)

def parseParts (typed contextStorer : Bool) : Parts → Nat → Nat → Parser Nat
  | .nil, _, _ => pure 0
  | .cons g rest, at_, size => do
    let c ← get
    let result ← descend contextStorer g.contextType (parse (typed || g.contextType) g at_ size)
    let left ← takeSize c.size size result
    let later ← parseParts typed contextStorer rest (at_ + result) left
    pure (result + later)

end

end

end TFCommon.Proto
