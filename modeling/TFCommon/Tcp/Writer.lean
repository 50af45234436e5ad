import TFCommon.Lib.Run
import Mathlib.Data.List.Basic
import Mathlib.Algebra.GroupWithZero.Nat

/-! `TcpMessageWriter` and the sending side of `TcpSession`: `Send`, the `AsyncWriteInternal` step posted to the strand,
the completions of the writes and `Close`. A section under the mutex of the session is one step; what a call does after
it has released the mutex is a step of its own.

The session belongs to a server and its socket is non-blocking. -/
namespace TFCommon.Tcp.Writer

def kMaxPendingBufferSize : Nat := 256 * 1024

def kMinPendingBufferSize : Nat := 64 * 1024

structure TcpSession where
  bufferQueue : List (List UInt8) := []
  offset : Nat := 0
  lastWrite : Nat := 0
  writeBlocked : Bool := false
  established : Bool := true
  closed : Bool := false
  tcpCloseInProgress : Bool := false
  -- Steps posted to the strand.
  posts : Nat := 0
  inFlight : List (List UInt8) := []
  -- Calls of `Close` that have found no data, before `CloseInternal`.
  closing : Nat := 0
  -- Completions before their call of `CloseInternal`.
  finishing : Nat := 0
  -- Completions before their call of `WriteReady`.
  readying : Nat := 0
  -- The data of the calls of `Send` that were not refused, what was handed to `AsyncWrite`, what was written.
  accepted : List UInt8 := []
  handed : List UInt8 := []
  written : List UInt8 := []
  -- What was accepted before the first `Close` that found data.
  deferred : Option (List UInt8) := none
  -- How often `write_blocked_` was set and `WriteReady` called.
  blocks : Nat := 0
  readyCalls : Nat := 0
deriving DecidableEq, Repr

inductive Action where
  | send (data : List UInt8)
  | asyncWriteInternal
  | asyncWriteHandler
  | writeReady
  | finishClose
  | close
  | closeNow
deriving DecidableEq, Repr

inductive Fault where
  | disabled
  | assertion
deriving DecidableEq, Repr

namespace TcpSession

def getBufferQueueSize (s : TcpSession) : Nat := (s.bufferQueue.map List.length).sum

def bufferAppend (s : TcpSession) (data : List UInt8) : TcpSession :=
  { s with bufferQueue := s.bufferQueue ++ [data], accepted := s.accepted ++ data }

def post (s : TcpSession) : TcpSession := { s with posts := s.posts + 1 }

def block (s : TcpSession) : TcpSession :=
  if s.writeBlocked then s else { s with writeBlocked := true, blocks := s.blocks + 1 }

def asyncSend (s : TcpSession) (data : List UInt8) : TcpSession × Nat :=
  let appended := if s.bufferQueue.isEmpty then (s.bufferAppend data).post else s.bufferAppend data
  if kMaxPendingBufferSize < appended.getBufferQueueSize - appended.offset then (appended.block, 0)
  else (appended, data.length)

def send (s : TcpSession) (data : List UInt8) : TcpSession × Bool × Nat :=
  if s.established && !s.tcpCloseInProgress then
    let (next, len) := s.asyncSend data
    (next, len == data.length, len)
  else (s, false, 0)

/-- The bytes of a buffer from an offset on that one write takes. -/
def slice (bufferSendSize : Nat) (head : List UInt8) (offset : Nat) : List UInt8 := (head.drop offset).take bufferSendSize

def triggerAsyncWrite (bufferSendSize : Nat) (s : TcpSession) : Except Fault TcpSession :=
  if s.lastWrite ≠ 0 then .error .assertion
  else match s.bufferQueue with
    | [] => .error .assertion
    | head :: _ =>
      let data := slice bufferSendSize head s.offset
      .ok { s with lastWrite := data.length, inFlight := s.inFlight ++ [data], handed := s.handed ++ data }

def pop (s : TcpSession) (head : List UInt8) (rest : List (List UInt8)) (wrote : Nat) : TcpSession :=
  if s.offset + wrote = head.length then { s with lastWrite := 0, offset := 0, bufferQueue := rest }
  else { s with lastWrite := 0, offset := s.offset + wrote }

def sendReady (s : TcpSession) : Bool :=
  s.writeBlocked && decide (s.getBufferQueueSize - s.offset < kMinPendingBufferSize)

def updateBufferQueue (s : TcpSession) (wrote : Nat) : Except Fault (TcpSession × Bool × Bool) :=
  if s.lastWrite ≠ wrote then .error .assertion
  else match s.bufferQueue with
    | [] => .error .assertion
    | head :: rest =>
      let popped := s.pop head rest wrote
      .ok ({ popped with writeBlocked := popped.writeBlocked && !popped.sendReady }, !popped.bufferQueue.isEmpty,
        popped.sendReady)

def ready (s : TcpSession) (sendReady : Bool) : TcpSession :=
  if sendReady then { s with readying := s.readying + 1 } else s

def asyncWriteHandler (bufferSendSize : Nat) (s : TcpSession) (data : List UInt8) : Except Fault TcpSession :=
  if s.closed then .ok s
  else do
    let (s, moreWrite, sendReady) ← updateBufferQueue { s with written := s.written ++ data } data.length
    if moreWrite then
      let s ← s.triggerAsyncWrite bufferSendSize
      return s.ready sendReady
    else if s.tcpCloseInProgress then
      return { s with finishing := s.finishing + 1 }
    else
      return s.ready sendReady

def asyncWriteInternal (bufferSendSize : Nat) (s : TcpSession) : Except Fault TcpSession :=
  if s.closed then .ok s else s.triggerAsyncWrite bufferSendSize

def closeInternal (s : TcpSession) : TcpSession :=
  { s with closed := true, tcpCloseInProgress := false, established := false }

def close (s : TcpSession) : TcpSession :=
  if s.closed then s
  else if !s.bufferQueue.isEmpty then
    { s with tcpCloseInProgress := true, deferred := some (s.deferred.getD s.accepted) }
  else { s with closing := s.closing + 1 }

def step (bufferSendSize : Nat) (s : TcpSession) : Action → Except Fault TcpSession
  | .send data => .ok (s.send data).1
  | .asyncWriteInternal =>
    if s.posts = 0 then .error .disabled else asyncWriteInternal bufferSendSize { s with posts := s.posts - 1 }
  | .asyncWriteHandler =>
    match s.inFlight with
    | [] => .error .disabled
    | data :: rest => asyncWriteHandler bufferSendSize { s with inFlight := rest } data
  | .writeReady =>
    if s.readying = 0 then .error .disabled
    else .ok { s with readying := s.readying - 1, readyCalls := s.readyCalls + 1 }
  | .finishClose =>
    if s.finishing = 0 then .error .disabled else .ok { s with finishing := s.finishing - 1 }.closeInternal
  | .close => .ok s.close
  | .closeNow =>
    if s.closing = 0 then .error .disabled else .ok { s with closing := s.closing - 1 }.closeInternal

end TcpSession

end TFCommon.Tcp.Writer
