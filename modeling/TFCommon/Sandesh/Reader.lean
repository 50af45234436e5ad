import TFCommon.Lib.Decimal

/-! The stream of `sandesh_session.cc`: the envelope that `SandeshWriter::SendMsg` puts around a message, and
`SandeshReader`, which takes the messages out of what it receives. What the receive callback answers is given by
the number of the call. -/
namespace TFCommon.Sandesh
open Decimal

def text (chars : List Char) : List UInt8 := chars.map fun c => UInt8.ofNat c.toNat

def sandeshOpenAttrLength : List UInt8 :=
  text ['<', 's', 'a', 'n', 'd', 'e', 's', 'h', ' ', 'l', 'e', 'n', 'g', 't', 'h', '=', '\x22']

def sandeshOpen : List UInt8 := sandeshOpenAttrLength ++ List.replicate 10 48 ++ text ['\x22', '>']

def sandeshClose : List UInt8 := text ['<', '/', 's', 'a', 'n', 'd', 'e', 's', 'h', '>']

/-- What `SendMsg` sends for the bytes of a header and a message; the total length overwrites the zeros. -/
def sendMsg (payload : List UInt8) : List UInt8 :=
  let buffer := sandeshOpen ++ payload ++ sandeshClose
  let length := padded (sandeshOpen.length - sandeshOpenAttrLength.length - 2) buffer.length
  buffer.take sandeshOpenAttrLength.length ++ length ++ buffer.drop (sandeshOpenAttrLength.length + length.length)

/-- `(size_t)-1`. -/
def unknown : Nat := 2 ^ 64 - 1

/-- A message that is taken out of the buffer: its length, and the offset and the size of the buffer. -/
structure Taken where
  length : Nat
  offset : Nat
  size : Nat
deriving DecidableEq

structure Reader where
  buf : List UInt8 := []
  offset : Nat := 0
  msgLength : Nat := unknown
  -- an access outside of the buffer, with which the program ends
  fault : Bool := false
  -- what the callback got, the extraction errors and the calls of `EnqueueClose`
  delivered : List (List UInt8) := []
  errors : List Int := []
  closes : Nat := 0
  -- the lengths that were accepted, and the messages that were taken
  lengths : List Nat := []
  taken : List Taken := []

namespace Reader

def replaceBuf (r : Reader) (str : List UInt8) : Reader := { r with buf := str, offset := 0 }

def setBuf (r : Reader) (str : List UInt8) : Reader :=
  if r.buf.isEmpty then r.replaceBuf str else { r with buf := r.buf ++ str }

def leftOver (r : Reader) : Bool := if r.buf.isEmpty then false else r.buf.length != r.offset

inductive Found where
  | more
  | error (code : Int)
  | fault
  | length (n : Nat)

def extractMsgLength (r : Reader) : Found :=
  -- if the offset is past the end, the difference wraps around to a large number
  if r.offset ≤ r.buf.length ∧ r.buf.length - r.offset < sandeshOpen.length then .more
  else if r.buf.length < r.offset then .fault
  else
    let rest := r.buf.drop r.offset
    if ¬ sandeshOpenAttrLength.isPrefixOf rest then .error (-1)
    else if rest[sandeshOpen.length - 1]? ≠ some 62 then .error (-2)
    else
      let digits := (rest.drop sandeshOpenAttrLength.length).take (sandeshOpen.length - 2 - sandeshOpenAttrLength.length)
      let msgLength := strtoul digits
      if msgLength = 0 then .error (-3) else .length msgLength

def extractMsg (r : Reader) : Bool × Int × Reader :=
  if r.msgLength = unknown then
    match r.extractMsgLength with
    | .more => (false, 0, r)
    | .error code => (false, code, r)
    | .fault => (false, 0, { r with fault := true })
    | .length n => (decide (n ≤ r.buf.length), 0, { r with msgLength := n, lengths := r.lengths ++ [n] })
  else (decide (r.msgLength ≤ r.buf.length), 0, r)

/-- The message is passed on. The substring is valid if it starts before it ends and ends in the buffer. -/
def takeMsg (r : Reader) : Reader :=
  let st := r.offset + sandeshOpen.length
  let total := r.offset + r.msgLength
  let r := { r with taken := r.taken ++ [Taken.mk r.msgLength r.offset r.buf.length] }
  if st + sandeshClose.length ≤ total ∧ total ≤ r.buf.length + sandeshClose.length then
    let xml := (r.buf.drop st).take (total - sandeshClose.length - st)
    { r with offset := total, msgLength := unknown, delivered := r.delivered ++ [xml] }
  else { r with fault := true }

def readLoop (answers : Nat → Bool) : Nat → Bool × Int × Reader → Option Reader
  | 0, _ => none
  | turns + 1, (done, result, r) =>
    if r.fault then some r
    else if result < 0 then some { r with buf := [], offset := 0, errors := r.errors ++ [result], closes := r.closes + 1 }
    else if done then
      let answer := answers r.delivered.length
      let r := r.takeMsg
      if r.fault then some r
      else if answer = false then some { r with closes := r.closes + 1 }
      else if r.leftOver then
        -- `string(buf_, offset_, ..)` throws if the offset is past the end
        if r.buf.length < r.offset then some { r with fault := true }
        else readLoop answers turns (r.replaceBuf (r.buf.drop r.offset)).extractMsg
      else some { r with buf := [], offset := 0 }
    else some r

def onRead (answers : Nat → Bool) (r : Reader) (buffer : List UInt8) : Option Reader :=
  if r.fault then some r
  else
    let r := r.setBuf buffer
    readLoop answers (r.buf.length + 1) r.extractMsg

def run (answers : Nat → Bool) (buffers : List (List UInt8)) : Option Reader := buffers.foldlM (onRead answers) {}

end Reader

end TFCommon.Sandesh
