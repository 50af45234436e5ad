import TFCommon.Sandesh.Framing
import TFCommon.Lib.Run
import Mathlib.Data.List.Induction

/-! `SandeshWriter` of `sandesh_session.cc`: while more messages wait in the queue of the session, encoded messages are
collected in a buffer of the writer, and what is collected is passed to `Send` of the session as one. -/
namespace TFCommon.Sandesh

def kDefaultSendSize : Nat := 16384

theorem kDefaultSendSize_pos : 0 < kDefaultSendSize := by decide

structure SendBuf where
  bytes : List UInt8
  size : bytes.length = kDefaultSendSize

def SendBuf.memcpy (b : SendBuf) (offset : Nat) (data : List UInt8) (fits : data.length + offset < kDefaultSendSize) :
    SendBuf where
  bytes := b.bytes.take offset ++ (data ++ b.bytes.drop (offset + data.length))
  size := by
    simp only [List.length_append, List.length_take, List.length_drop, b.size]
    omega

theorem SendBuf.take_memcpy (b : SendBuf) {offset : Nat} {data : List UInt8}
    (fits : data.length + offset < kDefaultSendSize) :
    (b.memcpy offset data fits).bytes.take (offset + data.length) = b.bytes.take offset ++ data := by
  have front : (b.bytes.take offset ++ data).length = offset + data.length := by
    rw [List.length_append, List.length_take, b.size]
    omega
  have joined : (b.memcpy offset data fits).bytes =
      (b.bytes.take offset ++ data) ++ b.bytes.drop (offset + data.length) := (List.append_assoc _ _ _).symm
  rw [joined, ← front]
  exact List.take_left

structure Writer where
  sendBuf : SendBuf
  sendBufOffset : Nat := 0
  -- The buffers that were passed to `Send` of the session.
  sent : List (List UInt8) := []

structure Message where
  -- The bytes of the header and of the message, unless one of them cannot be written.
  payload : Option (List UInt8)
  more : Bool

inductive Fault where
  | assertion

def Message.encoding (m : Message) : List UInt8 := m.payload.elim [] Sandesh.sendMsg

theorem length_sendMsg_pos (payload : List UInt8) : 0 < (Sandesh.sendMsg payload).length := by
  have front : 0 < ((sandeshOpen ++ payload ++ sandeshClose).take sandeshOpenAttrLength.length).length := by
    rw [List.length_take, List.length_append, List.length_append, length_sandeshOpen, length_attr]
    omega
  rw [Sandesh.sendMsg, List.length_append, List.length_append]
  omega

namespace Writer

def setSendBuf (w : Writer) (buf : List UInt8) : Except Fault Writer :=
  if fits : buf.length ≠ 0 ∧ buf.length < kDefaultSendSize then
    .ok { w with sendBuf := w.sendBuf.memcpy 0 buf fits.2, sendBufOffset := buf.length }
  else .error .assertion

def appendSendBuf (w : Writer) (buf : List UInt8) : Except Fault Writer :=
  if fits : buf.length ≠ 0 ∧ buf.length + w.sendBufOffset < kDefaultSendSize then
    .ok { w with
      sendBuf := w.sendBuf.memcpy w.sendBufOffset buf fits.2
      sendBufOffset := w.sendBufOffset + buf.length }
  else .error .assertion

def resetSendBuf (w : Writer) : Writer := { w with sendBufOffset := 0 }

def sendInternal (w : Writer) (buf : List UInt8) : Writer := { w with sent := w.sent ++ [buf] }

def unsent (w : Writer) : List UInt8 := w.sendBuf.bytes.take w.sendBufOffset

def sendMsgMore (w : Writer) (buf : List UInt8) : Except Fault Writer :=
  if w.sendBufOffset ≠ 0 then
    if w.sendBufOffset + buf.length < kDefaultSendSize then w.appendSendBuf buf
    else .ok ((w.sendInternal w.unsent).resetSendBuf.sendInternal buf)
  else if kDefaultSendSize ≤ buf.length then .ok (w.sendInternal buf)
  else w.setSendBuf buf

def sendMsgAll (w : Writer) (buf : List UInt8) : Writer :=
  if w.sendBufOffset ≠ 0 then
    if w.sendBufOffset + buf.length ≤ kDefaultSendSize then (w.sendInternal (w.unsent ++ buf)).resetSendBuf
    else (w.sendInternal w.unsent).resetSendBuf.sendInternal buf
  else w.sendInternal buf

def sendMsg (w : Writer) (m : Message) : Except Fault Writer :=
  match m.payload with
  | none => .ok w
  | some payload =>
    if m.more then w.sendMsgMore (Sandesh.sendMsg payload) else .ok (w.sendMsgAll (Sandesh.sendMsg payload))

/-! ### The stream -/

def stream (w : Writer) : List UInt8 := w.sent.flatten ++ w.unsent

variable {w : Writer} {buf : List UInt8}

theorem stream_empty (empty : w.sendBufOffset = 0) : w.stream = w.sent.flatten := by
  rw [stream, unsent, empty, List.take_zero, List.append_nil]

theorem stream_sendInternal (empty : w.sendBufOffset = 0) : (w.sendInternal buf).stream = w.stream ++ buf := by
  have still : (w.sendInternal buf).sendBufOffset = 0 := empty
  rw [stream_empty empty, stream_empty still, sendInternal, List.flatten_append, List.flatten_singleton]

theorem stream_flush : (w.sendInternal w.unsent).resetSendBuf.stream = w.stream := by
  rw [stream_empty rfl, resetSendBuf, sendInternal, List.flatten_append, List.flatten_singleton, stream]

theorem setSendBuf_spec (empty : w.sendBufOffset = 0) (some_ : 0 < buf.length) (fits : buf.length < kDefaultSendSize) :
    ∃ next, w.setSendBuf buf = .ok next ∧ next.sendBufOffset < kDefaultSendSize ∧ next.stream = w.stream ++ buf := by
  refine ⟨_, dif_pos ⟨by omega, fits⟩, fits, ?_⟩
  have copied := @SendBuf.take_memcpy w.sendBuf 0 buf fits
  rw [Nat.zero_add, List.take_zero, List.nil_append] at copied
  rw [stream_empty empty, stream, unsent, copied]

theorem appendSendBuf_spec (some_ : 0 < buf.length) (fits : w.sendBufOffset + buf.length < kDefaultSendSize) :
    ∃ next, w.appendSendBuf buf = .ok next ∧ next.sendBufOffset < kDefaultSendSize ∧ next.stream = w.stream ++ buf := by
  have room : buf.length + w.sendBufOffset < kDefaultSendSize := by omega
  refine ⟨_, dif_pos ⟨by omega, room⟩, fits, ?_⟩
  rw [stream, unsent, SendBuf.take_memcpy, stream, unsent, List.append_assoc]

theorem sendMsgMore_spec (some_ : 0 < buf.length) :
    ∃ next, w.sendMsgMore buf = .ok next ∧ next.sendBufOffset < kDefaultSendSize ∧ next.stream = w.stream ++ buf := by
  rw [sendMsgMore]
  split
  · split
    · rename_i room
      exact appendSendBuf_spec some_ room
    · exact ⟨_, rfl, kDefaultSendSize_pos, by rw [stream_sendInternal rfl, stream_flush]⟩
  · rename_i empty
    have empty := not_not.mp empty
    split
    · refine ⟨_, rfl, ?_, stream_sendInternal empty⟩
      rw [sendInternal, empty]
      exact kDefaultSendSize_pos
    · rename_i room
      exact setSendBuf_spec empty some_ (not_le.mp room)

theorem sendMsgAll_spec : (w.sendMsgAll buf).sendBufOffset = 0 ∧ (w.sendMsgAll buf).stream = w.stream ++ buf := by
  rw [sendMsgAll]
  split
  · split
    · refine ⟨rfl, ?_⟩
      rw [stream_empty rfl, resetSendBuf, sendInternal, List.flatten_append, List.flatten_singleton, ← List.append_assoc,
        stream]
    · exact ⟨rfl, by rw [stream_sendInternal rfl, stream_flush]⟩
  · rename_i empty
    exact ⟨not_not.mp empty, stream_sendInternal (not_not.mp empty)⟩

theorem sendMsg_spec (w : Writer) (below : w.sendBufOffset < kDefaultSendSize) (m : Message) :
    ∃ next, w.sendMsg m = .ok next ∧ next.sendBufOffset < kDefaultSendSize ∧ next.stream = w.stream ++ m.encoding ∧
      (m.payload ≠ none → m.more = false → next.sendBufOffset = 0) := by
  obtain ⟨payload, more⟩ := m
  cases payload with
  | none => exact ⟨w, rfl, below, (List.append_nil _).symm, fun written => absurd rfl written⟩
  | some payload =>
    cases more with
    | false =>
      have all := @sendMsgAll_spec w (Sandesh.sendMsg payload)
      exact ⟨_, rfl, by rw [all.1]; exact kDefaultSendSize_pos, all.2, fun _ _ => all.1⟩
    | true =>
      obtain ⟨next, ran, small, appended⟩ := sendMsgMore_spec (length_sendMsg_pos payload)
      exact ⟨next, ran, small, appended, nofun⟩

theorem run_sendMsg (space : SendBuf) (messages : List Message) :
    ∃ w, run sendMsg { sendBuf := space } messages = .ok w ∧ w.sendBufOffset < kDefaultSendSize ∧
      w.stream = (messages.map Message.encoding).flatten := by
  induction messages using List.reverseRecOn with
  | nil => exact ⟨_, rfl, kDefaultSendSize_pos, rfl⟩
  | append_singleton messages m ih =>
    obtain ⟨w, ran, below, streamed⟩ := ih
    obtain ⟨next, sent, small, appended, _⟩ := sendMsg_spec w below m
    refine ⟨next, run_concat ran sent, small, ?_⟩
    rw [appended, streamed]
    simp

/-- After any messages, written or not: the stream is that of the encodings in order, no assertion has failed, and nothing
is kept back when the last message was the last of the queue. -/
theorem packing_preserves_stream (space : SendBuf) (messages : List Message) :
    ∃ w, run sendMsg { sendBuf := space } messages = .ok w ∧
      w.sent.flatten ++ w.sendBuf.bytes.take w.sendBufOffset = (messages.map Message.encoding).flatten ∧
      w.sendBufOffset < kDefaultSendSize ∧
      ∀ m ∈ messages.getLast?, m.payload ≠ none → m.more = false → w.sendBufOffset = 0 := by
  obtain ⟨w, ran, below, streamed⟩ := run_sendMsg space messages
  refine ⟨w, ran, streamed, below, fun m isLast => ?_⟩
  obtain ⟨front, rfl⟩ := List.getLast?_eq_some_iff.mp isLast
  obtain ⟨before, reached, small, _⟩ := run_sendMsg space front
  obtain ⟨next, sent, _, _, flushed⟩ := sendMsg_spec before small m
  cases (run_concat reached sent).symm.trans ran
  exact flushed

end Writer

end TFCommon.Sandesh
