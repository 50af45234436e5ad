import TFCommon.Lib.Frames
import TFCommon.Sandesh.Framing

/-! The reader on arbitrary bytes and with arbitrary answers of the callback. A length that is not larger than the
envelopes is accepted, and after an answer that ends the loop the offset stays in the buffer while the size of the
whole buffer is compared with the length of the next message. -/
namespace TFCommon.Sandesh
open Decimal Reader

/-- No access outside of the buffer, no offset past its end, and no length that leaves nothing between the envelopes. -/
structure Safe (r : Reader) : Prop where
  substrings : r.fault = false
  offset : r.offset ≤ r.buf.length
  offsets : ∀ t ∈ r.taken, t.offset + t.length ≤ t.size
  lengths : ∀ n ∈ r.lengths, envelopes < n

/-! ### The input -/

/-- The length in the header at the start of some bytes, if they hold a header that is well formed and its length is not 0. -/
def announced (bytes : List UInt8) : Option Nat :=
  let head := bytes.take sandeshOpen.length
  let length := strtoul ((head.drop sandeshOpenAttrLength.length).take 10)
  if head.length = sandeshOpen.length ∧ sandeshOpenAttrLength <+: head ∧ head[28]? = some 62 ∧ length ≠ 0 then some length
  else none

def Whole (messages : List (List UInt8)) : Prop := ∀ m ∈ messages, announced m = some m.length

/-- The buffers after which the reader starts anew: none, or some in which whole messages are followed by a header that is
not well formed. -/
inductive Fresh : List (List UInt8) → Prop
  | start : Fresh []
  | malformed {before run messages : List (List UInt8)} {rest : List UInt8} : Fresh before → Whole messages →
    run.flatten = messages.flatten ++ rest → sandeshOpen.length ≤ rest.length → announced rest = none → Fresh (before ++ run)

/-- Behind the whole messages at each start, a header announces more than the envelopes. If the callback may refuse, the
message that it announces is complete in the buffers that have arrived, or longer than all of them since that start. -/
def Orderly (answers : Nat → Bool) (buffers : List (List UInt8)) : Prop :=
  ∀ before run after messages rest n, buffers = before ++ run ++ after → Fresh before → Whole messages →
    run.flatten = messages.flatten ++ rest → announced rest = some n →
    envelopes < n ∧ ((∀ k, answers k = true) ∨ n ≤ rest.length ∨ run.flatten.length < n)

variable {answers : Nat → Bool} {buffers received after : List (List UInt8)} {r r' : Reader} {a b : List UInt8} {n : Nat}

theorem announced_front (front : a <+: b) (long : sandeshOpen.length ≤ a.length) : announced a = announced b := by
  obtain ⟨tail, rfl⟩ := front
  rw [announced, announced, List.take_append_of_le_length long]

theorem announced_bounds (known : announced a = some n) : sandeshOpen.length ≤ a.length ∧ 0 < n := by
  unfold announced at known
  simp only [Option.ite_none_right_eq_some, List.length_take] at known
  obtain ⟨⟨long, _, _, positive⟩, same⟩ := known
  cases same
  omega

/-- The messages of a stream, by their headers. -/
def headers : TFCommon.Framing UInt8 where
  announced := announced
  stable more known := (announced_front (List.prefix_append _ more) (announced_bounds known).1).symm.trans known
  positive known := (announced_bounds known).2

/-- Behind whole messages of a stream of whole messages comes one of its messages. -/
theorem Whole.next {stream messages : List (List UInt8)} {rest : List UInt8} (stream_ : Whole stream) (whole : Whole messages)
    (front : messages.flatten ++ rest <+: stream.flatten) (long : sandeshOpen.length ≤ rest.length) :
    ∃ m ∈ stream, announced rest = some m.length := by
  obtain ⟨more, parts⟩ := front
  rw [List.append_assoc] at parts
  have all : headers.Cut (messages.flatten ++ (rest ++ more)) stream [] := parts ▸ Framing.cut_flatten stream stream_
  obtain ⟨others, rfl⟩ := (Framing.cut_flatten (f := headers) messages whole).take all
  rw [List.flatten_append] at parts
  have left := List.append_cancel_left parts
  cases others with
  | nil =>
    rw [(List.append_eq_nil_iff.mp left).1] at long
    exact absurd long (by decide)
  | cons m others =>
    have known : announced m = some m.length := stream_ m (by simp)
    refine ⟨m, by simp, ?_⟩
    rw [announced_front (List.prefix_append rest more) long, left, List.flatten_cons, ← known]
    exact (announced_front (List.prefix_append _ _) (announced_bounds known).1).symm

/-- Where the reader is in its input: at the first byte that is not of a message it has taken since its last start. -/
structure Tracks (received : List (List UInt8)) (r : Reader) : Prop where
  safe : Safe r
  place : ∃ before run messages, received = before ++ run ∧ Fresh before ∧ Whole messages ∧
    run.flatten = messages.flatten ++ r.buf.drop r.offset ∧ r.buf.length ≤ run.flatten.length
  known : r.msgLength = unknown ∨ announced (r.buf.drop r.offset) = some r.msgLength

theorem announced_eq (long : 29 ≤ a.length) :
    announced a =
      if sandeshOpenAttrLength.isPrefixOf a = true ∧ a[28]? = some 62 ∧ strtoul ((a.drop 17).take 10) ≠ 0 then
        some (strtoul ((a.drop 17).take 10))
      else none := by
  have opening : sandeshOpenAttrLength <+: a.take 29 ↔ sandeshOpenAttrLength.isPrefixOf a = true := by
    rw [List.prefix_take_iff, List.isPrefixOf_iff_prefix]
    exact and_iff_left (by decide)
  have digits : ((a.take 29).drop 17).take 10 = (a.drop 17).take 10 := by
    rw [List.drop_take, List.take_take]
    rfl
  have closing : (a.take 29)[28]? = a[28]? := List.getElem?_take_of_lt (by decide)
  unfold announced
  simp only [length_sandeshOpen, length_attr, digits, closing, opening, List.length_take, Nat.min_eq_left long, true_and]

theorem extractMsgLength_cases (inside : r.offset ≤ r.buf.length) :
    r.extractMsgLength = .more ∨
    (∃ n, announced (r.buf.drop r.offset) = some n ∧ r.extractMsgLength = .length n) ∨
    (29 ≤ (r.buf.drop r.offset).length ∧ announced (r.buf.drop r.offset) = none ∧
      ∃ code, r.extractMsgLength = .error code ∧ code < 0) := by
  unfold extractMsgLength
  rw [length_sandeshOpen, length_attr]
  by_cases short : r.buf.length - r.offset < 29
  · exact .inl (if_pos ⟨inside, short⟩)
  rw [if_neg (by simp [short]), if_neg (by omega)]
  rw [← List.length_drop] at short
  generalize r.buf.drop r.offset = rest at short ⊢
  have long : 29 ≤ rest.length := Nat.le_of_not_lt short
  rw [announced_eq long]
  by_cases front : sandeshOpenAttrLength.isPrefixOf rest = true
  · by_cases last : rest[28]? = some 62
    · by_cases zero : strtoul ((rest.drop 17).take 10) = 0
      · exact .inr (.inr ⟨long, by simp [zero], -3, by simp [front, last, zero], by decide⟩)
      · exact .inr (.inl ⟨strtoul ((rest.drop 17).take 10), by simp [front, last, zero], by simp [front, last, zero]⟩)
    · exact .inr (.inr ⟨long, by simp [last], -2, by simp [front, last], by decide⟩)
  · exact .inr (.inr ⟨long, by simp [front], -1, by simp [front], by decide⟩)

/-- What follows for a header from the order of the input: a message that the reader finds complete is. -/
theorem Tracks.bounds (tracks : Tracks received r) (orderly : Orderly answers (received ++ after))
    (steady : (∀ k, answers k = true) → r.offset = 0) (known : announced (r.buf.drop r.offset) = some n) :
    envelopes < n ∧ (n ≤ r.buf.length → r.offset + n ≤ r.buf.length) := by
  obtain ⟨before, run, messages, rfl, fresh, whole, parts, size⟩ := tracks.place
  obtain ⟨long, complete⟩ := orderly before run after messages _ n rfl fresh whole parts known
  refine ⟨long, fun there => ?_⟩
  have inside := tracks.safe.offset
  rw [List.length_drop] at complete
  rcases complete with always | complete | longer
  · rw [steady always]
    omega
  · omega
  · omega

theorem Tracks.extract {done : Bool} {result : Int} (tracks : Tracks received r)
    (orderly : Orderly answers (received ++ after)) (steady : (∀ k, answers k = true) → r.offset = 0)
    (extracted : r.extractMsg = (done, result, r')) :
    Tracks received r' ∧ r'.buf = r.buf ∧ r'.offset = r.offset ∧
      (result < 0 → 29 ≤ (r.buf.drop r.offset).length ∧ announced (r.buf.drop r.offset) = none) ∧
      (done = true → announced (r.buf.drop r.offset) = some r'.msgLength ∧ r'.msgLength ≤ r.buf.length) := by
  unfold extractMsg at extracted
  by_cases fresh : r.msgLength = unknown
  · rw [if_pos fresh] at extracted
    rcases extractMsgLength_cases tracks.safe.offset with found | ⟨n, known, found⟩ | ⟨long, none_, code, found, negative⟩
    · rw [found] at extracted
      cases extracted
      exact ⟨tracks, rfl, rfl, by simp, by simp⟩
    · rw [found] at extracted
      cases extracted
      have bound := (tracks.bounds orderly steady known).1
      refine ⟨⟨{ tracks.safe with lengths := ?_ }, tracks.place, .inr known⟩, rfl, rfl, by simp, fun there => ⟨known, ?_⟩⟩
      · exact List.forall_mem_append.mpr ⟨tracks.safe.lengths, List.forall_mem_singleton.mpr bound⟩
      · simpa using there
    · rw [found] at extracted
      cases extracted
      exact ⟨tracks, rfl, rfl, fun _ => ⟨long, none_⟩, by simp⟩
  · rw [if_neg fresh] at extracted
    cases extracted
    exact ⟨tracks, rfl, rfl, by simp, fun there => ⟨tracks.known.resolve_left fresh, by simpa using there⟩⟩

theorem Tracks.take (tracks : Tracks received r) (known : announced (r.buf.drop r.offset) = some r.msgLength)
    (long : envelopes < r.msgLength) (there : r.offset + r.msgLength ≤ r.buf.length) :
    Tracks received r.takeMsg ∧ r.takeMsg.msgLength = unknown ∧ r.takeMsg.buf = r.buf ∧
      r.takeMsg.offset = r.offset + r.msgLength := by
  have took : r.takeMsg = { r with
      offset := r.offset + r.msgLength, msgLength := unknown
      delivered := r.delivered ++ [(r.buf.drop (r.offset + sandeshOpen.length)).take
        (r.offset + r.msgLength - sandeshClose.length - (r.offset + sandeshOpen.length))]
      taken := r.taken ++ [Taken.mk r.msgLength r.offset r.buf.length] } := by
    unfold takeMsg
    simp only [envelopes] at long
    exact if_pos ⟨by omega, Nat.le_add_right_of_le there⟩
  rw [took]
  refine ⟨⟨{ tracks.safe with offset := there, offsets := ?_ }, ?_, .inl rfl⟩, rfl, rfl, rfl⟩
  · exact List.forall_mem_append.mpr ⟨tracks.safe.offsets, List.forall_mem_singleton.mpr there⟩
  · obtain ⟨before, run, messages, split, fresh, whole, parts, size⟩ := tracks.place
    refine ⟨before, run, messages ++ [(r.buf.drop r.offset).take r.msgLength], split, fresh, ?_, ?_, size⟩
    · refine List.forall_mem_append.mpr ⟨whole, List.forall_mem_singleton.mpr ?_⟩
      have width : ((r.buf.drop r.offset).take r.msgLength).length = r.msgLength := by
        rw [List.length_take, List.length_drop]
        omega
      rw [announced_front (List.take_prefix _ _) (by rw [width]; simp only [envelopes] at long; omega), known, width]
    · rw [parts, List.flatten_append, List.flatten_singleton, List.append_assoc, ← List.drop_drop, List.take_append_drop]

theorem Tracks.replaceBuf (tracks : Tracks received r) (fresh : r.msgLength = unknown) :
    Tracks received (r.replaceBuf (r.buf.drop r.offset)) := by
  obtain ⟨before, run, messages, split, first, whole, parts, _⟩ := tracks.place
  refine ⟨{ tracks.safe with offset := Nat.zero_le _ }, ⟨before, run, messages, split, first, whole, parts, ?_⟩, .inl fresh⟩
  rw [parts, List.length_append]
  exact Nat.le_add_left _ _

theorem Tracks.clear {errors : List Int} {closes : Nat} (tracks : Tracks received r)
    (long : 29 ≤ (r.buf.drop r.offset).length) (none_ : announced (r.buf.drop r.offset) = none) :
    Tracks received { r with buf := [], offset := 0, errors := errors, closes := closes } := by
  obtain ⟨before, run, messages, rfl, fresh, whole, parts, _⟩ := tracks.place
  refine ⟨{ tracks.safe with offset := Nat.le_refl _ }, ?_, .inl ?_⟩
  · exact ⟨before ++ run, [], [], by simp, .malformed fresh whole parts long none_, by simp [Whole], rfl, Nat.le_refl _⟩
  · rcases tracks.known with fresh | known
    · exact fresh
    · rw [none_] at known
      cases known

theorem Tracks.setBuf (tracks : Tracks received r) (buffer : List UInt8) : Tracks (received ++ [buffer]) (r.setBuf buffer) := by
  obtain ⟨before, run, messages, rfl, fresh, whole, parts, size⟩ := tracks.place
  have inside := tracks.safe.offset
  unfold Reader.setBuf
  split
  · rename_i empty
    rw [List.isEmpty_iff] at empty
    rw [empty, List.drop_nil, List.append_nil] at parts
    refine ⟨{ tracks.safe with offset := Nat.zero_le _ }, ⟨before, run ++ [buffer], messages, List.append_assoc _ _ _, fresh,
      whole, ?_, ?_⟩, .inl ?_⟩
    · simp [parts, Reader.replaceBuf]
    · simp [Reader.replaceBuf]
    · rcases tracks.known with fresh | known
      · exact fresh
      · have impossible := (announced_bounds known).1
        simp [empty, length_sandeshOpen] at impossible
  · refine ⟨{ tracks.safe with offset := ?_ }, ⟨before, run ++ [buffer], messages, List.append_assoc _ _ _, fresh, whole, ?_,
      ?_⟩, ?_⟩
    · simp only [List.length_append]
      omega
    · simp [parts, List.drop_append_of_le_length inside]
    · simp only [List.flatten_append, List.length_append, List.flatten_singleton]
      omega
    · rcases tracks.known with fresh | known
      · exact .inl fresh
      · refine .inr ?_
        rw [List.drop_append_of_le_length inside,
          ← announced_front (List.prefix_append _ _) (announced_bounds known).1]
        exact known

def announce (digits : List UInt8) : List UInt8 := sandeshOpenAttrLength ++ digits ++ text ['\x22', '>']

end TFCommon.Sandesh
