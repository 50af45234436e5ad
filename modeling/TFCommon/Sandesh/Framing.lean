import TFCommon.Sandesh.Reader

/-! However the stream of the messages is cut into buffers, the reader delivers the messages in order. -/
namespace TFCommon.Sandesh
open Decimal Reader

def envelopes : Nat := sandeshOpen.length + sandeshClose.length

variable {payload : List UInt8} {messages : List (List UInt8)} {bytes : List UInt8} {r : Reader}

def header (n : Nat) : List UInt8 := sandeshOpenAttrLength ++ padded 10 n ++ text ['\x22', '>']

theorem length_sandeshOpen : sandeshOpen.length = 29 := rfl

theorem length_attr : sandeshOpenAttrLength.length = 17 := rfl

theorem length_header {n : Nat} (fits : n < 10 ^ 10) : (header n).length = 29 := by
  rw [header, List.length_append, List.length_append, length_padded fits]
  rfl

theorem sendMsg_eq (fits : envelopes + payload.length < 10 ^ 10) :
    sendMsg payload = header (envelopes + payload.length) ++ payload ++ sandeshClose := by
  have total : (sandeshOpen ++ payload ++ sandeshClose).length = envelopes + payload.length := by
    simp only [List.length_append, envelopes]
    omega
  have digits : (padded 10 (envelopes + payload.length)).length = 10 := length_padded fits
  have shape : sandeshOpen ++ payload ++ sandeshClose =
      sandeshOpenAttrLength ++ (List.replicate 10 48 ++ (text ['\x22', '>'] ++ payload ++ sandeshClose)) := by
    simp [sandeshOpen]
  have width : sandeshOpen.length - sandeshOpenAttrLength.length - 2 = 10 := rfl
  unfold sendMsg
  simp only [total, width, digits]
  rw [shape, ← List.drop_drop, List.drop_left, List.drop_left' (List.length_replicate)]
  simp [header]

theorem length_sendMsg (fits : envelopes + payload.length < 10 ^ 10) : (sendMsg payload).length = envelopes + payload.length := by
  rw [sendMsg_eq fits, List.length_append, List.length_append, length_header fits]
  simp only [envelopes, length_sandeshOpen]
  omega

theorem extractMsgLength_header {n : Nat} {tail : List UInt8} (buf : r.buf = header n ++ tail) (offset : r.offset = 0)
    (positive : 0 < n) (fits : n < 10 ^ 10) : r.extractMsgLength = .length n := by
  have digits : (padded 10 n).length = 10 := length_padded fits
  have shape : header n ++ tail = sandeshOpenAttrLength ++ (padded 10 n ++ (text ['\x22', '>'] ++ tail)) := by
    simp [header]
  have long : 29 ≤ r.buf.length := by
    rw [buf, List.length_append, length_header fits]
    omega
  have number : (r.buf.drop 17).take 10 = padded 10 n := by
    rw [buf, shape, ← length_attr, List.drop_left]
    exact List.take_left' digits
  have closing : r.buf[28]? = some 62 := by
    rw [buf, shape, List.getElem?_append_right (by decide), length_attr, List.getElem?_append_right (by omega), digits]
    rfl
  have opening : sandeshOpenAttrLength.isPrefixOf r.buf = true := by
    rw [buf, shape, List.isPrefixOf_iff_prefix]
    exact List.prefix_append _ _
  have value : strtoul (padded 10 n) = n := strtoul_padded (Nat.lt_of_lt_of_le fits (by decide))
  unfold extractMsgLength
  rw [length_sandeshOpen, length_attr, offset, List.drop_zero, if_neg (by omega)]
  simp only [opening, closing, number, value]
  simp [Nat.ne_of_gt positive]

structure Ready (r : Reader) (messages : List (List UInt8)) (bytes : List UInt8) : Prop where
  stream : r.buf ++ bytes = (messages.map sendMsg).flatten
  offset : r.offset = 0
  healthy : r.fault = false ∧ r.errors = [] ∧ r.closes = 0
  known : r.msgLength = unknown ∨
    ∃ payload rest, messages = payload :: rest ∧ 29 ≤ r.buf.length ∧ r.msgLength = envelopes + payload.length

def Incomplete (r : Reader) (messages : List (List UInt8)) : Prop :=
  ∀ payload rest, messages = payload :: rest → r.buf.length < envelopes + payload.length

def Fits (messages : List (List UInt8)) : Prop := ∀ payload ∈ messages, envelopes + payload.length < 10 ^ 10

theorem Ready.extract {rest : List (List UInt8)} (ready : Ready r (payload :: rest) bytes)
    (fits : envelopes + payload.length < 10 ^ 10) (long : 29 ≤ r.buf.length) :
    ∃ r', r.extractMsg = (decide (envelopes + payload.length ≤ r.buf.length), 0, r') ∧ Ready r' (payload :: rest) bytes ∧
      r'.msgLength = envelopes + payload.length ∧ r'.buf = r.buf ∧ r'.delivered = r.delivered := by
  unfold extractMsg
  by_cases fresh : r.msgLength = unknown
  · have opening : header (envelopes + payload.length) <+: r.buf := by
      have whole : header (envelopes + payload.length) <+: r.buf ++ bytes := by
        rw [ready.stream, List.map_cons, List.flatten_cons, sendMsg_eq fits]
        simp only [List.append_assoc]
        exact List.prefix_append _ _
      exact List.prefix_of_prefix_length_le whole (List.prefix_append _ _) (by rw [length_header fits]; exact long)
    obtain ⟨tail, buf⟩ := opening
    have found := extractMsgLength_header buf.symm ready.offset (by simp [envelopes, length_sandeshOpen]) fits
    rw [if_pos fresh, found]
    exact ⟨_, rfl, { ready with known := .inr ⟨payload, rest, rfl, long, rfl⟩ }, rfl, rfl, rfl⟩
  · rcases ready.known with same | ⟨payload', rest', same, _, length⟩
    · exact absurd same fresh
    · cases same
      rw [if_neg fresh, length]
      exact ⟨r, rfl, ready, length, rfl, rfl⟩

def passed (r : Reader) (payload : List UInt8) : Reader :=
  { r with
    offset := envelopes + payload.length, msgLength := unknown, delivered := r.delivered ++ [payload]
    taken := r.taken ++ [Taken.mk r.msgLength r.offset r.buf.length] }

theorem takeMsg_whole {tail : List UInt8} (fits : envelopes + payload.length < 10 ^ 10) (offset : r.offset = 0)
    (length : r.msgLength = envelopes + payload.length) (buf : r.buf = sendMsg payload ++ tail) :
    r.takeMsg = passed r payload := by
  have size : r.buf.length = envelopes + payload.length + tail.length := by
    rw [buf, List.length_append, length_sendMsg fits]
  have xml : (r.buf.drop 29).take payload.length = payload := by
    rw [buf, sendMsg_eq fits, List.append_assoc, List.append_assoc, List.drop_left' (length_header fits)]
    exact List.take_left
  have rest : envelopes + payload.length - sandeshClose.length - sandeshOpen.length = payload.length := by
    simp only [envelopes]
    omega
  unfold takeMsg
  simp only [offset, length, Nat.zero_add, rest]
  rw [if_pos (by simp only [envelopes] at size ⊢; omega)]
  rw [length_sandeshOpen, xml, passed, offset, length]

theorem readLoop_take {turns : Nat} {taken : Reader} (took : r.takeMsg = taken) (healthy : r.fault = false)
    (valid : taken.fault = false) (inside : taken.offset ≤ taken.buf.length) :
    readLoop (fun _ => true) (turns + 1) (true, 0, r) =
      if taken.leftOver then readLoop (fun _ => true) turns (taken.replaceBuf (taken.buf.drop taken.offset)).extractMsg
      else some { taken with buf := [], offset := 0 } := by
  rw [readLoop]
  simp [took, healthy, valid, Nat.not_lt.mpr inside]

theorem Ready.split {rest : List (List UInt8)} (ready : Ready r (payload :: rest) bytes)
    (fits : envelopes + payload.length < 10 ^ 10) (whole : envelopes + payload.length ≤ r.buf.length) :
    ∃ tail, r.buf = sendMsg payload ++ tail ∧ tail ++ bytes = (rest.map sendMsg).flatten := by
  have stream : r.buf ++ bytes = sendMsg payload ++ (rest.map sendMsg).flatten := by
    rw [ready.stream, List.map_cons, List.flatten_cons]
  have front : sendMsg payload <+: r.buf := by
    have first : sendMsg payload <+: r.buf ++ bytes := by
      rw [stream]
      exact List.prefix_append _ _
    exact List.prefix_of_prefix_length_le first (List.prefix_append _ _) (by rw [length_sendMsg fits]; exact whole)
  obtain ⟨tail, buf⟩ := front
  refine ⟨tail, buf.symm, ?_⟩
  rw [← buf, List.append_assoc] at stream
  exact List.append_cancel_left stream

theorem readLoop_delivers (turns : Nat) (r : Reader) (messages : List (List UInt8)) (fits : Fits messages)
    (ready : Ready r messages bytes) (enough : r.buf.length < turns) :
    ∃ r' now later, readLoop (fun _ => true) turns r.extractMsg = some r' ∧ messages = now ++ later ∧
      r'.delivered = r.delivered ++ now ∧ Ready r' later bytes ∧ Incomplete r' later := by
  induction turns generalizing r messages with
  | zero => exact absurd enough (Nat.not_lt_zero _)
  | succ turns ih =>
    by_cases long : 29 ≤ r.buf.length
    · cases messages with
      | nil =>
        have none_ : r.buf = [] := (List.append_eq_nil_iff.mp ready.stream).1
        simp [none_] at long
      | cons payload rest =>
        have small : envelopes + payload.length < 10 ^ 10 := fits payload List.mem_cons_self
        obtain ⟨r₁, extracted, ready₁, length, same, delivered⟩ := ready.extract small long
        obtain ⟨healthy, errors⟩ := ready₁.healthy
        rw [extracted, ← same]
        rw [← same] at enough
        by_cases whole : envelopes + payload.length ≤ r₁.buf.length
        · obtain ⟨tail, buf, later⟩ := ready₁.split small whole
          have size : r₁.buf.length = envelopes + payload.length + tail.length := by
            rw [buf, List.length_append, length_sendMsg small]
          rw [decide_eq_true whole, readLoop_take (takeMsg_whole small ready₁.offset length buf) healthy healthy whole]
          have left : (passed r₁ payload).leftOver = !tail.isEmpty := by
            have some_ : r₁.buf ≠ [] := by
              intro none_
              simp [none_, envelopes, length_sandeshOpen] at size
              omega
            cases tail <;> simp_all [leftOver, passed]
          rw [left]
          cases tail with
          | nil =>
            -- the buffer ends with the message
            refine ⟨_, [payload], rest, rfl, rfl, by simp [delivered, passed], ⟨later, rfl, ready₁.healthy, .inl rfl⟩, ?_⟩
            intro _ _ _
            simp [envelopes, length_sandeshOpen]
          | cons b tail =>
            have dropped : (passed r₁ payload).buf.drop (passed r₁ payload).offset = b :: tail := by
              show r₁.buf.drop (envelopes + payload.length) = b :: tail
              rw [buf, List.drop_left' (length_sendMsg small)]
            rw [dropped]
            have next : Ready ((passed r₁ payload).replaceBuf (b :: tail)) rest bytes :=
              ⟨later, rfl, ready₁.healthy, .inl rfl⟩
            have fewer : ((passed r₁ payload).replaceBuf (b :: tail)).buf.length < turns := by
              show (b :: tail).length < turns
              simp only [envelopes, length_sandeshOpen] at size
              omega
            obtain ⟨r', now, last, ran, split, got, done⟩ := ih _ rest (fun p inside => fits p (List.mem_cons_of_mem _ inside)) next fewer
            refine ⟨r', payload :: now, last, ran, by rw [split]; rfl, ?_, done⟩
            rw [got]
            simp [passed, replaceBuf, delivered]
        · rw [decide_eq_false whole]
          refine ⟨r₁, [], payload :: rest, by rw [readLoop]; simp, rfl, by simp [delivered], ready₁, ?_⟩
          rintro _ _ ⟨⟩
          exact Nat.lt_of_not_le whole
    · have unknown_ : r.msgLength = unknown := by
        rcases ready.known with same | ⟨_, _, _, enough', _⟩
        · exact same
        · exact absurd enough' long
      have waits : r.extractMsg = (false, 0, r) := by
        have more : r.extractMsgLength = .more := by
          unfold extractMsgLength
          rw [ready.offset, length_sandeshOpen, if_pos (by omega)]
        rw [extractMsg, if_pos unknown_, more]
      rw [waits]
      refine ⟨r, [], messages, by rw [readLoop]; simp, rfl, by simp, ready, fun payload rest _ => ?_⟩
      simp only [envelopes, length_sandeshOpen]
      omega

theorem Ready.setBuf {buffer : List UInt8} (ready : Ready r messages (buffer ++ bytes)) :
    Ready (r.setBuf buffer) messages bytes ∧ (r.setBuf buffer).delivered = r.delivered := by
  unfold Reader.setBuf
  split
  · rename_i empty
    have none_ : r.buf = [] := List.isEmpty_iff.mp empty
    refine ⟨⟨?_, rfl, ready.healthy, ?_⟩, rfl⟩
    · simpa [none_, replaceBuf] using ready.stream
    · rcases ready.known with same | ⟨_, _, _, long, _⟩
      · exact .inl same
      · simp [none_] at long
  · refine ⟨⟨?_, ready.offset, ready.healthy, ?_⟩, rfl⟩
    · simpa using ready.stream
    · rcases ready.known with same | ⟨payload, rest, shape, long, length⟩
      · exact .inl same
      · refine .inr ⟨payload, rest, shape, ?_, length⟩
        rw [List.length_append]
        omega

theorem onRead_delivers {buffer : List UInt8} (fits : Fits messages) (ready : Ready r messages (buffer ++ bytes)) :
    ∃ r' now later, r.onRead (fun _ => true) buffer = some r' ∧ messages = now ++ later ∧
      r'.delivered = r.delivered ++ now ∧ Ready r' later bytes ∧ Incomplete r' later := by
  obtain ⟨next, delivered⟩ := ready.setBuf
  rw [onRead, if_neg (by simp [ready.healthy.1]), ← delivered]
  exact readLoop_delivers _ _ messages fits next (Nat.lt_succ_self _)

theorem run_delivers (buffers : List (List UInt8)) (r : Reader) (messages : List (List UInt8)) (fits : Fits messages)
    (ready : Ready r messages buffers.flatten) (incomplete : Incomplete r messages) :
    ∃ r' now later, buffers.foldlM (onRead fun _ => true) r = some r' ∧ messages = now ++ later ∧
      r'.delivered = r.delivered ++ now ∧ Ready r' later [] ∧ Incomplete r' later := by
  induction buffers generalizing r messages with
  | nil => exact ⟨r, [], messages, rfl, rfl, by simp, ready, incomplete⟩
  | cons buffer rest ih =>
    obtain ⟨r₁, now₁, later₁, ran₁, split₁, got₁, ready₁, incomplete₁⟩ := onRead_delivers fits ready
    have fits₁ : Fits later₁ := fun payload inside => fits payload (split₁ ▸ List.mem_append_right now₁ inside)
    obtain ⟨r₂, now₂, later₂, ran₂, split₂, got₂, done⟩ := ih r₁ later₁ fits₁ ready₁ incomplete₁
    refine ⟨r₂, now₁ ++ now₂, later₂, ?_, ?_, ?_, done⟩
    · rw [List.foldlM_cons, ran₁]
      exact ran₂
    · rw [split₁, split₂, List.append_assoc]
    · rw [got₂, got₁, List.append_assoc]

/-- Whatever the payloads and however their stream is cut: the reader returns from every buffer, passes on exactly
the payloads in order, reports no error, and is left as it was at the start. -/
theorem framing_delivers (payloads : List (List UInt8))
    (fits : ∀ payload ∈ payloads, sandeshOpen.length + payload.length + sandeshClose.length < 10 ^ 10)
    (buffers : List (List UInt8)) (cut : buffers.flatten = (payloads.map sendMsg).flatten) :
    ∃ r, Reader.run (fun _ => true) buffers = some r ∧ r.delivered = payloads ∧ r.errors = [] ∧ r.closes = 0 ∧
      r.fault = false ∧ r.buf = [] ∧ r.offset = 0 ∧ r.msgLength = unknown := by
  have small : Fits payloads := by
    intro payload inside
    have bound := fits payload inside
    simp only [envelopes]
    omega
  have ready : Ready {} payloads buffers.flatten := ⟨cut, rfl, ⟨rfl, rfl, rfl⟩, .inl rfl⟩
  have incomplete : Incomplete {} payloads := by
    intro payload rest _
    simp [envelopes, length_sandeshOpen]
  obtain ⟨r, now, later, ran, split, got, done, left⟩ := run_delivers buffers {} payloads small ready incomplete
  have stream : r.buf = (later.map sendMsg).flatten := by simpa using done.stream
  cases later with
  | nil =>
    have known : r.msgLength = unknown := by
      rcases done.known with same | ⟨_, _, impossible, _⟩
      · exact same
      · cases impossible
    refine ⟨r, ran, ?_, done.healthy.2.1, done.healthy.2.2, done.healthy.1, stream, done.offset, known⟩
    rw [got, split]
    simp
  | cons payload rest =>
    -- the stream has ended, so the buffer holds the whole message
    have short := left payload rest rfl
    have fits' : envelopes + payload.length < 10 ^ 10 := small payload (by simp [split])
    rw [stream, List.map_cons, List.flatten_cons, List.length_append, length_sendMsg fits'] at short
    omega

/-- Two messages, one without bytes, cut inside of the length and again with the second message in one buffer. -/
theorem framing_delivers_two : ∃ r, Reader.run (fun _ => true)
    [(sendMsg [1, 2]).take 20, [], (sendMsg [1, 2]).drop 20 ++ sendMsg []] = some r ∧ r.delivered = [[1, 2], []] := by
  obtain ⟨r, ran, delivered, _⟩ := framing_delivers [[1, 2], []] (by decide)
    [(sendMsg [1, 2]).take 20, [], (sendMsg [1, 2]).drop 20 ++ sendMsg []] (by simp [← List.append_assoc])
  exact ⟨r, ran, delivered⟩

end TFCommon.Sandesh
