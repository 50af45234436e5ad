import TFCommon.Lib.Chunks
import TFCommon.Lib.Run
import Mathlib.Algebra.Group.Nat.Defs

/-! The Python side of the Sandesh stream (`sandesh_session.py`): the reader that takes messages out of what it has received
so far, and the envelope that the writer puts around a message. A Python string is a list of characters. -/
namespace TFCommon.Sandesh.Py

def xmlSandeshOpenAttrLen : List Char := "<sandesh length=\"".toList

def xmlSandeshOpenEnd : List Char := "\">".toList

def xmlSandeshOpen : List Char := "<sandesh length=\"0000000000\">".toList

def xmlSandeshClose : List Char := "</sandesh>".toList

/-! ### Python -/

def place (n : Nat) (i : Int) : Nat := if i < 0 then (n + i).toNat else min i.toNat n

def slice (s : List Char) (i j : Int) : List Char := (s.take (place s.length j)).drop (place s.length i)

def sliceFrom (s : List Char) (i : Int) : List Char := s.drop (place s.length i)

def isSpace (c : Char) : Bool := decide (c.toNat ∈ [9, 10, 11, 12, 13, 28, 29, 30, 31, 32])

/-- Digits with single underscores between them; the flag says whether the last character was a digit. -/
def digits : Bool → Nat → List Char → Option Nat
  | last, value, [] => if last then some value else none
  | last, value, c :: rest =>
    if c.isDigit then digits true (10 * value + (c.toNat - '0'.toNat)) rest
    else if c = '_' ∧ last then digits false value rest
    else none

/-- `int` of a string; `none` is `ValueError`. -/
def int (s : List Char) : Option Int :=
  match ((s.dropWhile isSpace).reverse.dropWhile isSpace).reverse with
  | '-' :: rest => (digits false 0 rest).map fun n => -(n : Int)
  | '+' :: rest => (digits false 0 rest).map fun n => (n : Int)
  | rest => (digits false 0 rest).map fun n => (n : Int)

def str (n : Nat) : List Char := Nat.toDigits 10 n

def zfill (s : List Char) (width : Nat) : List Char := List.replicate (width - s.length) '0' ++ s

/-! ### The reader -/

inductive Fault where
  | unicodeDecodeError
  | readErr
  -- The loop of `read_msg` does not end.
  | endless
deriving DecidableEq, Repr

structure SandeshReader where
  readBuf : List Char := []
  sandeshLen : Int := 0
  -- What the message handler was called with.
  handled : List (List Char) := []
deriving DecidableEq, Repr

/-- `none` is `_READ_ERR`. -/
def extractSandeshLen (buf : List Char) : Option Int :=
  if buf.length < xmlSandeshOpen.length then some 0
  else if slice buf 0 xmlSandeshOpenAttrLen.length ≠ xmlSandeshOpenAttrLen then none
  else if slice buf (xmlSandeshOpen.length - xmlSandeshOpenEnd.length) xmlSandeshOpen.length ≠ xmlSandeshOpenEnd then none
  else int (slice buf xmlSandeshOpenAttrLen.length (xmlSandeshOpen.length - xmlSandeshOpenEnd.length))

namespace SandeshReader

def extractKnown (r : SandeshReader) : Except Fault (Option (List Char) × SandeshReader) :=
  if (r.readBuf.length : Int) < r.sandeshLen then .ok (none, r)
  else if slice r.readBuf (r.sandeshLen - xmlSandeshClose.length) r.sandeshLen ≠ xmlSandeshClose then .error .readErr
  else .ok (some (slice r.readBuf xmlSandeshOpen.length (r.sandeshLen - xmlSandeshClose.length)), r)

def extractSandesh (r : SandeshReader) : Except Fault (Option (List Char) × SandeshReader) :=
  if r.sandeshLen = 0 then
    match extractSandeshLen r.readBuf with
    | none => .error .readErr
    | some length => if length = 0 then .ok (none, r) else { r with sandeshLen := length }.extractKnown
  else r.extractKnown

def handle (r : SandeshReader) (sandesh : List Char) : SandeshReader :=
  ⟨sliceFrom r.readBuf r.sandeshLen, 0, r.handled ++ [sandesh]⟩

/-- The loop of `read_msg`. An empty message is taken for no message. -/
def readLoop : Nat → SandeshReader → Except Fault SandeshReader
  | 0, _ => .error .endless
  | turns + 1, r => do
    let (sandesh, r) ← r.extractSandesh
    match sandesh with
    | none | some [] => return r
    | some (c :: rest) =>
      let r := r.handle (c :: rest)
      if r.readBuf = [] then return r else readLoop turns r

/-- The part of `read_msg` after the chunk is decoded. A turn that does not end the loop makes the buffer shorter, or
changes nothing. -/
def feed (r : SandeshReader) (chars : List Char) : Except Fault SandeshReader :=
  readLoop ((r.readBuf ++ chars).length + 1) { r with readBuf := r.readBuf ++ chars }

def readMsg (r : SandeshReader) (rcvBuf : ByteArray) : Except Fault SandeshReader :=
  match rcvBuf.utf8Decode? with
  | none => .error .unicodeDecodeError
  | some chars => r.feed chars.toList

end SandeshReader

/-! ### The envelope -/

def wrap (length : Nat) (msg : List Char) : List Char :=
  let width := xmlSandeshOpen.length - (xmlSandeshOpenAttrLen.length + xmlSandeshOpenEnd.length)
  xmlSandeshOpenAttrLen ++ zfill (str length) width ++ xmlSandeshOpenEnd ++ msg ++ xmlSandeshClose

def encodeSandesh (msg : List Char) : List Char :=
  wrap (xmlSandeshOpen.length + msg.length + xmlSandeshClose.length) msg

def total (msg : List Char) : Nat := xmlSandeshOpen.length + Chunks.bytes msg + xmlSandeshClose.length

def envelope (msg : List Char) : List Char := wrap (total msg) msg

def stream (payloads : List (List Char)) : List Char := (payloads.map envelope).flatten

end TFCommon.Sandesh.Py
