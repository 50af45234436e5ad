import TFCommon.Lib.Loop
import TFCommon.Lib.Replace
import TFCommon.Sandesh.Reader

/-! The reading functions of `TXMLProtocol` over a `TMemoryBuffer`, and the strings as `TXMLProtocol.h` and
`TXMLProtocol.py` escape them. A loop that has not ended after the given number of turns gives `none`. Counts are integers
where the source has `int32_t` or `uint32_t`: inputs and messages are shorter than 2^31 bytes. -/
namespace TFCommon.Sandesh.Xml
open Decimal Replace

def tagO : UInt8 := 60
def tagC : UInt8 := 62
def slash : UInt8 := 47
def sBracketC : UInt8 := 93
def cdataO : List UInt8 := text ['<', '!', '[', 'C', 'D', 'A', 'T', 'A', '[']
def cdataC : List UInt8 := [sBracketC, sBracketC, tagC]

/-- `input` is what the transport still has. The bytes of the buffers hold anything before they are first read. -/
structure LookaheadReader where
  input : List UInt8
  hasData : Bool := false
  data : UInt8
  has2Data : Bool := false
  data2 : UInt8 × UInt8
  firstRead : Bool := false
deriving DecidableEq

namespace LookaheadReader

def fresh (input : List UInt8) (data : UInt8) (data2 : UInt8 × UInt8) : LookaheadReader := { input, data, data2 }

/-- `trans_->readAll(&data_, 1)`. At the end of the input it returns -1, which no caller looks at, and leaves the byte. -/
def readAll1 (r : LookaheadReader) : LookaheadReader :=
  match r.input with
  | [] => r
  | b :: rest => { r with data := b, input := rest }

/-- `trans_->readAll(data2_, 2)`, which copies what there is. -/
def readAll2 (r : LookaheadReader) : LookaheadReader :=
  match r.input with
  | [] => r
  | [b] => { r with data2 := (b, r.data2.2), input := [] }
  | b :: b' :: rest => { r with data2 := (b, b'), input := rest }

def read (r : LookaheadReader) : UInt8 × LookaheadReader :=
  if r.hasData then (r.data, { r with hasData := false })
  else if r.has2Data then
    if r.firstRead then (r.data2.2, { r with has2Data := false, firstRead := false })
    else (r.data2.1, { r with firstRead := true })
  else (r.readAll1.data, r.readAll1)

def peek (r : LookaheadReader) : UInt8 × LookaheadReader :=
  if r.hasData then (r.data, r) else (r.readAll1.data, { r.readAll1 with hasData := true })

def peek2 (r : LookaheadReader) : UInt8 × LookaheadReader :=
  if r.has2Data then (r.data2.2, r) else (r.readAll2.data2.1, { r.readAll2 with has2Data := true })

end LookaheadReader

def isXMLNumeric (ch : UInt8) : Bool := ch == 43 || ch == 45 || isDigit ch

def readSyntaxChar (r : LookaheadReader) (ch : UInt8) : Int × LookaheadReader :=
  let (ch2, r) := r.read
  if ch2 ≠ ch then (-1, r) else (1, r)

def readSyntaxString (result : Int) (r : LookaheadReader) : List UInt8 → Int × LookaheadReader
  | [] => (result, r)
  | ch :: str =>
    let (ret, r) := readSyntaxChar r ch
    if ret < 0 then (ret, r) else readSyntaxString (result + ret) r str

abbrev Chars := Int × List UInt8 × LookaheadReader

def charsTurn (ends : UInt8 → Bool) : Chars → Option (Turn Chars Chars)
  | (result, str, r) =>
    let (ch, r) := r.peek
    if ends ch then some (.exit (result, str, r)) else some (.again (result + 1, str ++ [ch], r.read.2))

def readXMLString (turns : Nat) (r : LookaheadReader) : Option Chars := loop (charsTurn fun ch => ch == tagO) turns (0, [], r)

def readXMLNumericChars (turns : Nat) (r : LookaheadReader) : Option Chars :=
  loop (charsTurn fun ch => !isXMLNumeric ch) turns (0, [], r)

def tagTurn : Chars → Option (Turn Chars Chars)
  | (result, str, r) =>
    let (ch, r) := r.read
    if ch = tagC then some (.exit (result + 1, str, r)) else some (.again (result + 1, str ++ [ch], r))

def readXMLTag (turns : Nat) (endTag : Bool) (r : LookaheadReader) : Option Chars :=
  let (ret, r) := readSyntaxChar r tagO
  if ret < 0 then some (ret, [], r)
  else if endTag then
    let (ret', r) := readSyntaxChar r slash
    if ret' < 0 then some (ret', [], r) else loop tagTurn turns (ret + ret', [], r)
  else loop tagTurn turns (ret, [], r)

/-- The state of the loop of `readXMLCDATA`; a character that is not read is `none`. -/
structure CData where
  result : Int
  str : List UInt8
  ch : Option UInt8
  ch2 : Option UInt8
  ch3 : Option UInt8
  reader : LookaheadReader

def fetch (ch : Option UInt8) (result : Int) (r : LookaheadReader) : UInt8 × Int × LookaheadReader :=
  match ch with
  | some ch => (ch, result, r)
  | none => (r.peek.1, result + 1, r.peek.2.read.2)

def cdataTurn (c : CData) : Option (Turn CData Chars) :=
  let (ch, result, r) := fetch c.ch c.result c.reader
  if ch = sBracketC then
    let (ch2, result, r) := fetch c.ch2 result r
    if ch2 = sBracketC then
      let (ch3, result, r) := fetch c.ch3 result r
      if ch3 = tagC then some (.exit (result, c.str, r))
      else some (.again ⟨result, c.str ++ [ch], some ch2, some ch3, none, r⟩)
    else some (.again ⟨result, c.str ++ [ch], some ch2, none, c.ch3, r⟩)
  else some (.again ⟨result, c.str ++ [ch], none, c.ch2, c.ch3, r⟩)

def readXMLCDATA (turns : Nat) (r : LookaheadReader) : Option Chars :=
  let (ret, r) := readSyntaxString 0 r cdataO
  if ret < 0 then some (ret, [], r) else loop cdataTurn turns ⟨ret, [], none, none, none, r⟩

/-- A call that returned, with what it stored for its caller, or that ended the program: an iterator over the tokens
is read at its end. -/
inductive Outcome (σ : Type) where
  | returned (ret : Int) (out : σ) (r : LookaheadReader)
  | aborted

def Outcome.ret {σ : Type} : Outcome σ → Option Int
  | returned ret _ _ => some ret
  | aborted => none

def tokens (str : List UInt8) : List (List UInt8) :=
  (str.splitOnP fun b => b == 61 || b == 34 || b == 32).filter fun token => !token.isEmpty

inductive Stop (σ : Type) where
  | rejected (out : σ)
  | aborted

/-- `if (*it == key) { ++it; .. *it .. }`. -/
structure Attribute (σ : Type) where
  key : List UInt8
  store : σ → List UInt8 → Except (Stop σ) σ

section
variable {σ : Type}

def attributeTests : List (Attribute σ) → σ → List (List UInt8) → Except (Stop σ) (σ × List (List UInt8))
  | [], out, it => .ok (out, it)
  | _ :: _, _, [] => .error .aborted
  | a :: attributes, out, token :: rest =>
    if token = a.key then
      match rest with
      | [] => .error .aborted
      | value :: _ => do
        let out ← a.store out value
        attributeTests attributes out rest
    else attributeTests attributes out (token :: rest)

/-- `for (; it != tokens.end(); ++it)`. A turn takes a token at least, so their number bounds the turns. -/
def attributeLoop (attributes : List (Attribute σ)) : Nat → σ → List (List UInt8) → Except (Stop σ) σ
  | 0, out, _ => .ok out
  | turns + 1, out, it =>
    if it.isEmpty then .ok out
    else do
      let (out, it) ← attributeTests attributes out it
      attributeLoop attributes turns out (it.drop 1)

def parseTag (first : σ → List UInt8 → Except (Stop σ) σ) (attributes : List (Attribute σ)) (out : σ) (str : List UInt8) :
    Except (Stop σ) σ :=
  match tokens str with
  | [] => .error .aborted
  | token :: rest => do
    let out ← first out token
    attributeLoop attributes rest.length out rest

def readParsedTag (turns : Nat) (parse : σ → List UInt8 → Except (Stop σ) σ) (out : σ) (r : LookaheadReader) :
    Option (Outcome σ) :=
  (readXMLTag turns false r).map fun (ret, str, r) =>
    if ret < 0 then .returned ret out r
    else
      match parse out str with
      | .ok out => .returned ret out r
      | .error (.rejected out) => .returned (-1) out r
      | .error .aborted => .aborted

def expect (name : List UInt8) (out : σ) (token : List UInt8) : Except (Stop σ) σ :=
  if token ≠ name then .error (.rejected out) else .ok out

end

inductive TType where
  | stop | bool | byte | i16 | i32 | i64 | u16 | u32 | u64 | ipv4 | ipaddr | double | string | struct | map | set | list
  | sandesh | xml | uuid
deriving DecidableEq

/-- `name[size]` is the terminator. `name[3]` of a name of two characters, behind the terminator, is taken as one too. -/
def getTypeIDForTypeName (name : List UInt8) : TType :=
  let char (i : Nat) : Char := Char.ofNat (name.getD i 0).toNat
  if name.length ≤ 1 then .stop
  else
    match char 0, char 1 with
    | 'b', 'o' => .bool
    | 'b', 'y' => .byte
    | 'd', _ => .double
    | 'i', '1' => .i16
    | 'i', '3' => .i32
    | 'i', '6' => .i64
    | 'i', 'p' =>
      match char 2 with
      | 'a' => .ipaddr
      | 'v' => .ipv4
      | _ => .stop
    | 'l', _ => .list
    | 'm', _ => .map
    | 's', 'a' => .sandesh
    | 's', 'e' => .set
    | 's', 't' =>
      match char 3 with
      | 'i' => .string
      | 'u' => .struct
      | _ => .stop
    | 'u', '1' => .u16
    | 'u', '3' => .u32
    | 'u', '6' => .u64
    | 'u', 'u' => .uuid
    | 'x', _ => .xml
    | _, _ => .stop

def typeKey : List UInt8 := text ['t', 'y', 'p', 'e']
def identifierKey : List UInt8 := text ['i', 'd', 'e', 'n', 't', 'i', 'f', 'i', 'e', 'r']
def keyKey : List UInt8 := text ['k', 'e', 'y']
def valueKey : List UInt8 := text ['v', 'a', 'l', 'u', 'e']
def sizeKey : List UInt8 := text ['s', 'i', 'z', 'e']
def sandeshName : List UInt8 := text ['s', 'a', 'n', 'd', 'e', 's', 'h']
def mapName : List UInt8 := text ['m', 'a', 'p']
def listName : List UInt8 := text ['l', 'i', 's', 't']
def setName : List UInt8 := text ['s', 'e', 't']

structure Field where
  name : List UInt8
  fieldType : TType
  fieldId : Int16

structure MapTypes where
  keyType : TType
  valType : TType
  size : UInt32

structure ElemType where
  elemType : TType
  size : UInt32

def readTag (turns : Nat) (endTag : Bool) (r : LookaheadReader) : Option (Outcome (List UInt8)) :=
  (readXMLTag turns endTag r).map fun (ret, name, r) => .returned ret name r

def sandeshAttributes : List (Attribute (List UInt8)) :=
  [⟨typeKey, fun name value => if sandeshName ≠ value then .error (.rejected name) else .ok name⟩]

def readSandeshBegin (turns : Nat) (name : List UInt8) (r : LookaheadReader) : Option (Outcome (List UInt8)) :=
  readParsedTag turns (parseTag (fun _ token => .ok token) sandeshAttributes) name r

def readSandeshEnd (turns : Nat) (r : LookaheadReader) : Option (Outcome (List UInt8)) := readTag turns true r

def readStructBegin (turns : Nat) (r : LookaheadReader) : Option (Outcome (List UInt8)) := readTag turns false r

def readStructEnd (turns : Nat) (r : LookaheadReader) : Option (Outcome (List UInt8)) := readTag turns true r

def readContainerElementBegin (turns : Nat) (r : LookaheadReader) : Option (Outcome (List UInt8)) := readTag turns false r

def readContainerElementEnd (turns : Nat) (r : LookaheadReader) : Option (Outcome (List UInt8)) := readTag turns true r

def fieldAttributes : List (Attribute Field) :=
  [⟨typeKey, fun field value => .ok { field with fieldType := getTypeIDForTypeName value }⟩,
   ⟨identifierKey, fun field value => .ok { field with fieldId := Int16.ofNat (strtoul value) }⟩]

def readFieldBegin (turns : Nat) (field : Field) (r : LookaheadReader) : Option (Outcome Field) :=
  let (ch, r) := r.peek2
  let (ch1, r) := r.peek2
  if ch = tagO ∧ ch1 = slash then some (.returned 0 { field with fieldType := .stop } r)
  else readParsedTag turns (parseTag (fun field token => .ok { field with name := token }) fieldAttributes) field r

def readFieldEnd (turns : Nat) (r : LookaheadReader) : Option (Outcome (List UInt8)) := readTag turns true r

def mapAttributes : List (Attribute MapTypes) :=
  [⟨keyKey, fun types value => .ok { types with keyType := getTypeIDForTypeName value }⟩,
   ⟨valueKey, fun types value => .ok { types with valType := getTypeIDForTypeName value }⟩,
   ⟨sizeKey, fun types value => .ok { types with size := UInt32.ofNat (strtoul value) }⟩]

def readMapBegin (turns : Nat) (types : MapTypes) (r : LookaheadReader) : Option (Outcome MapTypes) :=
  readParsedTag turns (parseTag (expect mapName) mapAttributes) types r

def readMapEnd (turns : Nat) (r : LookaheadReader) : Option (Outcome (List UInt8)) := readTag turns true r

def elemAttributes : List (Attribute ElemType) :=
  [⟨typeKey, fun types value => .ok { types with elemType := getTypeIDForTypeName value }⟩,
   ⟨sizeKey, fun types value => .ok { types with size := UInt32.ofNat (strtoul value) }⟩]

def readListBegin (turns : Nat) (types : ElemType) (r : LookaheadReader) : Option (Outcome ElemType) :=
  readParsedTag turns (parseTag (expect listName) elemAttributes) types r

def readListEnd (turns : Nat) (r : LookaheadReader) : Option (Outcome (List UInt8)) := readTag turns true r

def readSetBegin (turns : Nat) (types : ElemType) (r : LookaheadReader) : Option (Outcome ElemType) :=
  readParsedTag turns (parseTag (expect setName) elemAttributes) types r

def readSetEnd (turns : Nat) (r : LookaheadReader) : Option (Outcome (List UInt8)) := readTag turns true r

/-- `readI16` and the others differ in the type to which the number is converted. -/
def readXMLInteger {ν : Type} (ofNat : Nat → ν) (turns : Nat) (r : LookaheadReader) : Option (Outcome ν) :=
  (readXMLNumericChars turns r).map fun (ret, str, r) => .returned ret (ofNat (strtoul str)) r

/-- Readers of the text up to the next tag, given by the result and what they store for that text. -/
def readText {σ : Type} (give : Int → List UInt8 → Int × σ) (turns : Nat) (r : LookaheadReader) : Option (Outcome σ) :=
  (readXMLString turns r).map fun (ret, str, r) => .returned (give ret str).1 (give ret str).2 r

/-- `fromString` is `address::from_string`, which fails or gives the bytes of an address. -/
def readIPADDR (fromString : List UInt8 → Option (List UInt8)) : Nat → LookaheadReader → Option (Outcome (List UInt8)) :=
  readText fun ret str =>
    match fromString str with
    | none => (-1, [])
    | some address => (ret, address)

def readBool (value : Bool) : Nat → LookaheadReader → Option (Outcome Bool) :=
  readText fun ret str =>
    (ret,
      if str = text ['t', 'r', 'u', 'e'] then true
      else if str = text ['f', 'a', 'l', 's', 'e'] then false
      else value)

def readBinary : Nat → LookaheadReader → Option (Outcome (List UInt8)) := readText fun ret str => (ret, str)

/-- `extract` is `ss >> uuid`, whose failure is not looked at. -/
def readUUID (extract : List UInt8 → List UInt8) : Nat → LookaheadReader → Option (Outcome (List UInt8)) :=
  readText fun ret str => (ret, extract str)

def readXML (turns : Nat) (r : LookaheadReader) : Option (Outcome (List UInt8)) :=
  (readXMLCDATA turns r).map fun (ret, str, r) => .returned ret str r

def invalid : Int := 22

/-- `header.read(prot)` in `ExtractMsgHeader`, generated from the definition of the header: after the begin of the struct
come its fields and its end, which are `fields`, given what the begin returned. -/
def headerRead (fields : Int → Nat → LookaheadReader → Option (Outcome Unit)) (turns : Nat) (r : LookaheadReader) :
    Option (Outcome Unit) :=
  (readStructBegin turns r).bind fun
    | .returned ret _ r => if ret < 0 then some (.returned ret () r) else fields ret turns r
    | .aborted => some .aborted

/-- `ExtractMsgHeader`, with the name of the message and the offset behind the header. -/
def extractMsgHeader (fields : Int → Nat → LookaheadReader → Option (Outcome Unit)) (turns : Nat) (r : LookaheadReader) :
    Option (Outcome (List UInt8 × Int)) :=
  (headerRead fields turns r).bind fun
    | .aborted => some .aborted
    | .returned ret _ r =>
      if ret ≤ 0 then some (.returned invalid ([], 0) r)
      else
        (readSandeshBegin turns [] r).map fun
          | .aborted => .aborted
          | .returned ret' msgType r => if ret' ≤ 0 then .returned invalid (msgType, ret) r else .returned 0 (msgType, ret) r

def amp : UInt8 := 38
def apos : UInt8 := 39
def ampEntity : List UInt8 := text ['&', 'a', 'm', 'p', ';']
def aposEntity : List UInt8 := text ['&', 'a', 'p', 'o', 's', ';']
def ltEntity : List UInt8 := text ['&', 'l', 't', ';']
def gtEntity : List UInt8 := text ['&', 'g', 't', ';']

def escapeXMLControlCharsInternal (str : List UInt8) : List UInt8 :=
  str.flatMap fun ch =>
    if ch = amp then ampEntity
    else if ch = apos then aposEntity
    else if ch = tagO then ltEntity
    else if ch = tagC then gtEntity
    else [ch]

/-- `strpbrk` sees the characters before the first NUL. -/
def strpbrk (str : List UInt8) : Bool :=
  (str.takeWhile fun ch => ch != 0).any fun ch => ch == amp || ch == apos || ch == tagO || ch == tagC

def escapeXMLControlChars (str : List UInt8) : List UInt8 :=
  if strpbrk str then escapeXMLControlCharsInternal str else str

def unescapeXMLControlChars (str : List UInt8) : List UInt8 :=
  let str := replaceAll ampEntity [amp] str
  let str := replaceAll aposEntity [apos] str
  let str := replaceAll ltEntity [tagO] str
  replaceAll gtEntity [tagC] str

def writeString (str : List UInt8) : List UInt8 := escapeXMLControlChars str

def readString : Nat → LookaheadReader → Option (Outcome (List UInt8)) :=
  readText fun _ str => ((unescapeXMLControlChars str).length, unescapeXMLControlChars str)

namespace Python

def writeString (string : List UInt8) : List UInt8 :=
  if string.any fun ch => ch == tagO || ch == tagC || ch == amp || ch == apos || ch == 34 then
    let string := replaceAll [amp] ampEntity string
    let string := replaceAll [apos] aposEntity string
    let string := replaceAll [tagO] ltEntity string
    replaceAll [tagC] gtEntity string
  else string

def readXMLValue (buffer : List UInt8) : Option (List UInt8 × Nat) :=
  if tagO ∈ buffer then
    let value := buffer.takeWhile fun ch => ch != tagO
    some (value, value.length)
  else none

def readString (buffer : List UInt8) : Int × Option (List UInt8) :=
  match readXMLValue buffer with
  | none => (-1, none)
  | some (string, _) =>
    let string := replaceAll ampEntity [amp] string
    let string := replaceAll aposEntity [apos] string
    let string := replaceAll ltEntity [tagO] string
    let string := replaceAll gtEntity [tagC] string
    (string.length, some string)

end Python

end TFCommon.Sandesh.Xml
