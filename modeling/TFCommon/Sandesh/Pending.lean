import TFCommon.Sandesh.PySession
import TFCommon.Sandesh.Writer

/-! What stays in the send buffers of the two writers. A call whose own message cannot be encoded returns before it comes
to the buffer. -/
namespace TFCommon.Sandesh

namespace Py

def maxSendBufSize : Nat := 4096

structure Message where
  -- The text of the header and of the message, unless one of them cannot be written.
  payload : Option (List Char)
  more : Bool

def Message.encoding (m : Message) : List Char := m.payload.elim [] encodeSandesh

structure Writer where
  sendBufCache : List Char := []
  -- The strings that were passed to `write` of the session.
  sent : List (List Char) := []

namespace Writer

def send (w : Writer) (buf : List Char) : Writer := { w with sent := w.sent ++ [buf] }

def sendMsgMore (w : Writer) (buf : List Char) : Writer :=
  let w := { w with sendBufCache := w.sendBufCache ++ buf }
  if maxSendBufSize ≤ w.sendBufCache.length then { w.send w.sendBufCache with sendBufCache := [] } else w

def sendMsgAll (w : Writer) (buf : List Char) : Writer := { w.send (w.sendBufCache ++ buf) with sendBufCache := [] }

def sendMsg (w : Writer) (m : Message) : Writer :=
  match m.payload with
  | none => w
  | some payload => if m.more then w.sendMsgMore (encodeSandesh payload) else w.sendMsgAll (encodeSandesh payload)

def stream (w : Writer) : List Char := w.sent.flatten ++ w.sendBufCache

theorem stream_sendMsg (w : Writer) (m : Message) : (w.sendMsg m).stream = w.stream ++ m.encoding := by
  obtain ⟨payload, more⟩ := m
  cases payload with
  | none => exact (List.append_nil _).symm
  | some payload =>
    cases more with
    | false => simp [sendMsg, sendMsgAll, send, stream, Message.encoding]
    | true =>
      simp only [sendMsg, sendMsgMore, if_true]
      split
      · simp [send, stream, Message.encoding]
      · simp [stream, Message.encoding]

theorem stream_foldl (messages : List Message) : (messages.foldl sendMsg {}).stream = (messages.map Message.encoding).flatten := by
  induction messages using List.reverseRecOn with
  | nil => rfl
  | append_singleton messages m ih =>
    rw [List.foldl_append, List.foldl_cons, List.foldl_nil, stream_sendMsg, ih]
    simp

end Writer

end Py

/-- The last message of a queue, after any others: everything that was accepted has been passed to the session and
nothing is pending, exactly if this message can be encoded or nothing was pending before it. -/
theorem flushed_iff (space : SendBuf) (messages : List Message) (payload : Option (List UInt8))
    (pyMessages : List Py.Message) (pyPayload : Option (List Char)) :
    (∃ before w, run Writer.sendMsg { sendBuf := space } messages = .ok before ∧ before.sendMsg ⟨payload, false⟩ = .ok w ∧
      (w.sendBufOffset = 0 ∧ w.sent.flatten = (messages.map Message.encoding).flatten ++ Message.encoding ⟨payload, false⟩ ↔
        payload ≠ none ∨ before.sendBufOffset = 0)) ∧
    ∃ before w, before = pyMessages.foldl Py.Writer.sendMsg {} ∧ w = before.sendMsg ⟨pyPayload, false⟩ ∧
      (w.sendBufCache = [] ∧ w.sent.flatten = (pyMessages.map Py.Message.encoding).flatten ++ Py.Message.encoding ⟨pyPayload, false⟩ ↔
        pyPayload ≠ none ∨ before.sendBufCache = []) := by
  constructor
  · obtain ⟨before, ran, below, streamed⟩ := Writer.run_sendMsg space messages
    obtain ⟨w, sent, _, appended, flushed⟩ := Writer.sendMsg_spec before below ⟨payload, false⟩
    refine ⟨before, w, ran, sent, ?_⟩
    rw [← streamed, ← appended]
    have passed (empty : w.sendBufOffset = 0) : w.sent.flatten = w.stream := (Writer.stream_empty empty).symm
    cases payload with
    | none =>
      cases sent
      exact ⟨fun now => .inr now.1, fun empty => ⟨empty.resolve_left (absurd rfl), passed (empty.resolve_left (absurd rfl))⟩⟩
    | some payload =>
      have empty := flushed nofun rfl
      exact iff_of_true ⟨empty, passed empty⟩ (.inl nofun)
  · refine ⟨_, _, rfl, rfl, ?_⟩
    rw [← Py.Writer.stream_foldl, ← Py.Writer.stream_sendMsg]
    have passed {w : Py.Writer} (empty : w.sendBufCache = []) : w.sent.flatten = w.stream := by
      rw [Py.Writer.stream, empty, List.append_nil]
    cases pyPayload with
    | none => exact ⟨fun now => .inr now.1, fun empty => ⟨empty.resolve_left (absurd rfl), passed (empty.resolve_left (absurd rfl))⟩⟩
    | some payload => exact iff_of_true ⟨rfl, passed rfl⟩ (.inl nofun)

/-- A message is kept back because more are to come, the next one cannot be encoded, and no other comes. -/
theorem failed_last_message :
    (∀ space, ∃ w, run Writer.sendMsg { sendBuf := space } [⟨some [], true⟩, ⟨none, false⟩] = .ok w ∧ w.sent = [] ∧
      w.sendBufOffset = 39) ∧
    ([⟨some [], true⟩, ⟨none, false⟩].foldl Py.Writer.sendMsg {}).sent = [] ∧
    ([⟨some [], true⟩, ⟨none, false⟩].foldl Py.Writer.sendMsg {}).sendBufCache = Py.encodeSandesh [] := by
  exact ⟨fun _ => ⟨_, rfl, rfl, rfl⟩, rfl, rfl⟩

end TFCommon.Sandesh
