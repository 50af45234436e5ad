import TFCommon.Lib.Run
import Mathlib.Data.List.Basic
import Mathlib.Algebra.Group.Int.Defs

/-! `TcpMessageReader` of `tcp_session.cc`: the buffers of a stream are cut into messages by a header of fixed size.

Sizes and lengths are integers without a bound. The source holds them in `int`: the model is the code as long as a
buffer, together with what is queued, is shorter than 2^31 bytes. Only the shifts of `AllocBufferSize` are bounded. -/
namespace TFCommon.Tcp

/-- What a subclass provides: `MsgLength` reads the header that follows an offset in a buffer, and is negative
exactly when the buffer ends before the header does. -/
structure Protocol where
  headerLenSize : Nat
  maxMessageSize : Int
  msgLength : List UInt8 → Nat → Int
  callback : List UInt8 → Bool
  short : ∀ bytes offset, msgLength bytes offset < 0 ↔ (bytes.drop offset).length < headerLenSize
  headerOnly : ∀ bytes offset bytes' offset', headerLenSize ≤ (bytes.drop offset).length →
    (bytes.drop offset).take headerLenSize = (bytes'.drop offset').take headerLenSize →
    msgLength bytes offset = msgLength bytes' offset'

structure Buffer where
  number : Nat
  bytes : List UInt8
deriving DecidableEq, Repr

def Buffer.size (buffer : Buffer) : Int := buffer.bytes.length

inductive Event where
  | released (buffer : Buffer)
  | received (message : List UInt8)
deriving DecidableEq, Repr

inductive Fault where
  | assertion
  -- A copy beyond the end of its source.
  | overread
  -- A copy beyond the end of its destination.
  | overrun
  -- A shift that leaves `int`.
  | overflow
  -- The bound on the turns of the loop in `OnRead` is used up.
  | turns
deriving DecidableEq, Repr

structure TcpMessageReader where
  queue : List Buffer := []
  offset : Nat := 0
  remain : Int := -1
  events : List Event := []
deriving DecidableEq, Repr

def require (condition : Prop) [Decidable condition] : Except Fault Unit :=
  if condition then .ok () else .error .assertion

/-- `memcpy` behind the bytes already written to a destination with room for `capacity` bytes. -/
def memcpy (capacity : Int) (data source : List UInt8) (count : Int) : Except Fault (List UInt8) :=
  if count < 0 ∨ source.length < count then .error .overread
  else if capacity < data.length + count then .error .overrun
  else .ok (data ++ source.take count.toNat)

/-- The loop of `AllocBufferSize`, with the shifts that stay inside `int`. -/
def grow (kMaxMessageSize length : Int) : Nat → Int → Except Fault Int
  | 0, _ => .error .overflow
  | shifts + 1, bufsize =>
    if bufsize < kMaxMessageSize ∧ bufsize < length then grow kMaxMessageSize length shifts (bufsize * 2)
    else .ok bufsize

def allocBufferSize (kMaxMessageSize length : Int) : Except Fault Int :=
  if length = -1 then .ok kMaxMessageSize else grow kMaxMessageSize length 23 (2 ^ 8)

namespace TcpMessageReader

def push (r : TcpMessageReader) (buffer : Buffer) : TcpMessageReader := { r with queue := r.queue ++ [buffer] }

def release (r : TcpMessageReader) (buffer : Buffer) : TcpMessageReader :=
  { r with events := r.events ++ [.released buffer] }

def receive (r : TcpMessageReader) (message : List UInt8) : TcpMessageReader :=
  { r with events := r.events ++ [.received message] }

def setRemain (r : TcpMessageReader) (remain : Int) : TcpMessageReader := { r with remain := remain }

def advance (r : TcpMessageReader) (message : List UInt8) (msglength : Int) : TcpMessageReader :=
  { r with offset := r.offset + msglength.toNat, events := r.events ++ [.received message] }

/-- The head of the queue is copied and released. -/
def pop (r : TcpMessageReader) (head : Buffer) (rest : List Buffer) : TcpMessageReader :=
  { queue := rest, offset := 0, remain := -1, events := r.events ++ [.released head] }

def concatQueue (capacity msglength : Int) :
    List Buffer → TcpMessageReader → List UInt8 → Except Fault (TcpMessageReader × List UInt8)
  | [], r, data => .ok (r, data)
  | head :: rest, r, data => do
    let bytes := head.size - r.offset
    require (data.length + bytes < msglength)
    let data ← memcpy capacity data (head.bytes.drop r.offset) bytes
    concatQueue capacity msglength rest (r.pop head rest) data

def bufferConcat (r : TcpMessageReader) (capacity : Int) (buffer : Buffer) (msglength : Int) :
    Except Fault (TcpMessageReader × List UInt8) := do
  let (r, data) ← concatQueue capacity msglength r.queue r []
  let count := msglength - data.length
  require (data.length + count ≤ msglength)
  let data ← memcpy capacity data buffer.bytes count
  return ({ r with offset := count.toNat }, data)

def queueByteLength (r : TcpMessageReader) : Int :=
  r.queue.foldl (fun total buffer => if total = 0 then buffer.size - r.offset else total + buffer.size) 0

/-- What `PullUp` copies of a buffer, with the bytes copied before it. -/
def pullUpFrom (size : Nat) (data source : List UInt8) : Except Fault (List UInt8) := do
  let avail := min (source.length : Int) (size - data.length)
  require (data.length + avail ≤ size)
  memcpy size data source avail

def pullUpQueue (r : TcpMessageReader) (size : Nat) : List Buffer → List UInt8 → Except Fault (List UInt8)
  | [], data => .ok data
  | buffer :: rest, data => do
    let data ← pullUpFrom size data (if data.length = 0 then buffer.bytes.drop r.offset else buffer.bytes)
    pullUpQueue r size rest data

/-- The first `size` unread bytes; none when there are fewer. -/
def pullUp (r : TcpMessageReader) (buffer : Buffer) (size : Nat) : Except Fault (List UInt8) := do
  let data ← pullUpQueue r size r.queue []
  let data ← pullUpFrom size data buffer.bytes
  return if data.length < size then [] else data

/-- The length of the message that the queue holds the beginning of, with the new value of `remain_`; `none` when
its header has not arrived. -/
def announce (p : Protocol) (r : TcpMessageReader) (front buffer : Buffer) : Except Fault (Option (Int × Int)) := do
  let msglength := p.msgLength front.bytes r.offset
  if msglength < 0 then
    let queuelen := r.queueByteLength
    if queuelen + buffer.size < p.headerLenSize then
      return none
    let header ← r.pullUp buffer p.headerLenSize
    require (header.length = p.headerLenSize)
    let msglength := p.msgLength header 0
    return some (msglength, msglength - queuelen)
  else
    return some (msglength, r.remain)

inductive Left where
  | bytes (avail : Int)
  | failed

def readMessages (p : Protocol) (buffer : Buffer) :
    Nat → TcpMessageReader → Int → Except Fault (TcpMessageReader × Left)
  | 0, _, _ => .error .turns
  | turns + 1, r, avail =>
    if 0 < avail then
      let msglength := p.msgLength buffer.bytes r.offset
      if msglength < 0 then .ok (r, .bytes avail)
      else if avail < msglength then .ok (r.setRemain (msglength - avail), .bytes avail)
      else
        let message := (buffer.bytes.drop r.offset).take msglength.toNat
        let r := r.advance message msglength
        if p.callback message then readMessages p buffer turns r (avail - msglength) else .ok (r, .failed)
    else .ok (r, .bytes avail)

/-- `OnRead` behind the message that the queue held the beginning of. -/
def readRest (p : Protocol) (turns : Nat) (r : TcpMessageReader) (buffer : Buffer) : Except Fault TcpMessageReader := do
  match ← readMessages p buffer turns r (buffer.size - r.offset) with
  | (r, .failed) => return r
  | (r, .bytes avail) =>
    if 0 < avail then return r.push buffer
    else
      require (r.remain = -1)
      return { r.release buffer with offset := 0 }

def reassemble (p : Protocol) (r : TcpMessageReader) (buffer : Buffer) (msglength : Int) :
    Except Fault (TcpMessageReader × List UInt8) := do
  let capacity ← allocBufferSize p.maxMessageSize msglength
  let (r, data) ← r.bufferConcat capacity buffer msglength
  require (r.remain = -1)
  return (r, data)

def onRead (p : Protocol) (turns : Nat) (r : TcpMessageReader) (buffer : Buffer) : Except Fault TcpMessageReader :=
  match r.queue with
  | [] => r.readRest p turns buffer
  | front :: _ => do
    match ← r.announce p front buffer with
    | none => return r.push buffer
    | some (msglength, remain) =>
      let r := r.setRemain remain
      require (0 < r.remain)
      if buffer.size < r.remain then
        return (r.push buffer).setRemain (r.remain - buffer.size)
      let (r, data) ← r.reassemble p buffer msglength
      let r := r.receive data
      if p.callback data then r.readRest p turns buffer else return r

def readAll (p : Protocol) (turns : Nat) (buffers : List Buffer) : Except Fault TcpMessageReader :=
  run (onRead p turns) {} buffers

end TcpMessageReader

end TFCommon.Tcp
