import TFCommon.Sandesh.Binary

/-! The typed reads of a truncated message. The readers find what the buffer holds followed by what the memory happens to
hold, so a message is read to its end whenever that completes it. -/
namespace TFCommon.Sandesh.Binary
open Words Counted

namespace Source

variable (s : Source) (n k : Nat)

@[simp]
theorem after_zero : s.after 0 = s := by
  simp [after]

theorem after_after : (s.after n).after k = s.after (n + k) := by
  simp only [after, List.drop_drop, List.length_drop, Source.mk.injEq, true_and]
  funext i
  congr 1
  omega

def stream (i : Nat) : Byte := s.bytes[i]?.getD (s.memory (i - s.bytes.length))

theorem stream_after (i : Nat) : (s.after n).stream i = s.stream (n + i) := by
  rw [stream, stream, after, List.getElem?_drop]
  rcases Nat.lt_or_ge (n + i) s.bytes.length with inside | past
  · rw [List.getElem?_eq_getElem inside]
    rfl
  · rw [List.getElem?_eq_none past, List.length_drop]
    exact congrArg s.memory (by omega)

theorem front_eq_stream : s.front n = (List.range n).map s.stream := by
  apply List.ext_getElem
  · simp [front]
    omega
  · intro i left right
    rw [List.getElem_map, stream]
    rcases Nat.lt_or_ge i s.bytes.length with inside | past
    · simp [front, List.getElem?_eq_getElem inside]
      rw [List.getElem_append_left (by rw [List.length_take]; simp at right; omega), List.getElem_take]
    · simp [front, List.getElem?_eq_none past]
      rw [List.getElem_append_right (by rw [List.length_take]; omega), List.getElem_map, List.getElem_range,
        List.length_take, Nat.min_eq_right (by simp at right; omega)]

theorem front_add : s.front (n + k) = s.front n ++ (s.after n).front k := by
  rw [front_eq_stream, front_eq_stream, front_eq_stream, List.range_add, List.map_append, List.map_map]
  congr 1
  exact List.map_congr_left fun i _ => (s.stream_after n i).symm

theorem length_front : (s.front n).length = n := by
  rw [front, List.length_append, List.length_take, List.length_map, List.length_range]
  omega

end Source

/-! ### What a reader finds -/

def Reads {α : Type} (p : Counted Source α) (bytes : List Byte) (a : α) : Prop :=
  Transfers (fun s => s.front bytes.length = bytes) (fun s t => t = s.after bytes.length) p bytes.length a

variable {n : Nat}

section rules
variable {α β : Type} {p : Counted Source α} {next : α → Counted Source β} {a b : List Byte} {x : α} {y : β}

theorem Reads.nothing : Reads (pure x) [] x := by
  intro s _
  exact ⟨s, rfl, s.after_zero.symm⟩

theorem Reads.then (first : Reads p a x) (second : Reads (next x) b y) : Reads (p >>= next) (a ++ b) y := by
  rw [Reads, List.length_append]
  refine Transfers.bind first second (fun s found => ?_) fun s t u _ firstly secondly => ?_
  · rw [Source.front_add] at found
    obtain ⟨here, later⟩ := List.append_inj found (s.length_front _)
    exact ⟨here, fun t moved => by rw [moved]; exact later⟩
  · rw [secondly, firstly, Source.after_after]

theorem Reads.last (first : Reads p a x) (second : Reads (next x) [] y) : Reads (p >>= next) a y := by
  have done := first.then second
  rwa [List.append_nil] at done

theorem Reads.discard (reads : Reads p a x) : Reads (do let _ ← p; pure ()) a () := reads.last Reads.nothing

theorem Reads.call (reads : Reads p a x) (small : a.length < 2 ^ 31) : Reads (call p) a x :=
  Transfers.call reads (by omega)

theorem fetch_reads (length : a.length = n) : Reads (fetch n) a a := by
  intro s found
  rw [length] at found ⊢
  exact ⟨s.after n, by rw [fetch, Source.readAll, found], rfl⟩

end rules

theorem length_net (w : BitVec (8 * n)) : (net n w).length = n := Vector.length_toList

theorem word_net (w : BitVec (8 * n)) : word n (net n w) = w := by
  have same : (Vector.ofFn fun i : Fin n => (net n w).getD i 0) = toBytes n (byteSwap n w) := by
    simp [net]
  rw [word, same, ofBytes_toBytes, byteSwap_byteSwap]

theorem readInt_reads (w : BitVec (8 * n)) : Reads (readInt n) (net n w) w := by
  apply (fetch_reads (length_net w)).last
  rw [word_net]
  exact Reads.nothing

theorem net_one (w : BitVec 8) : net 1 w = [w] := by
  have whole : w.extractLsb' 0 8 = w := by simp
  rw [net, toBytes_byteSwap]
  exact congrArg (fun b => [b]) whole

theorem readByte_reads (w : BitVec 8) : Reads readByte [w] w := by
  rw [← net_one]
  exact readInt_reads (n := 1) w

theorem readBool_reads (b : Byte) : Reads readBool [b] (b != 0) :=
  (fetch_reads rfl).last Reads.nothing

theorem readIPADDR_reads (a : Address) : ∃ found, Reads readIPADDR (Scalar.ipaddr a).encode found := by
  cases a with
  | v4 bytes =>
    refine ⟨(afInet, bytes.toList), (readByte_reads afInet).then ?_⟩
    exact (fetch_reads Vector.length_toList).last Reads.nothing
  | v6 bytes =>
    refine ⟨(afInet6, bytes.toList), (readByte_reads afInet6).then ?_⟩
    exact (fetch_reads Vector.length_toList).last Reads.nothing

theorem borrowOrFetch_reads (s : List Byte) : Reads (borrowOrFetch s.length) s s := by
  intro source found
  refine ⟨source.after s.length, ?_, rfl⟩
  rw [borrowOrFetch]
  split
  · rename_i enough
    rw [Source.front, Nat.sub_eq_zero_of_le enough, List.range_zero, List.map_nil, List.append_nil] at found
    rw [found]
  · rw [fetch, Source.readAll, found]

theorem readStringBody_reads {s : List Byte} (small : s.length < 2 ^ 31) :
    Reads (readStringBody {} (BitVec.ofNat 32 s.length)) s s := by
  have size : (BitVec.ofNat 32 s.length).toNat = s.length := by
    rw [BitVec.toNat_ofNat]
    omega
  have positive : (BitVec.ofNat 32 s.length).msb = false := by
    rw [msb_ofNat]
    exact decide_eq_false (by omega)
  rw [readStringBody, positive, size, if_neg Bool.false_ne_true, if_neg fun limited => absurd limited.1 (Nat.lt_irrefl 0)]
  split
  · rename_i zero
    obtain rfl : s = [] := List.length_eq_zero_iff.mp (by rw [← size, zero]; rfl)
    exact Reads.nothing
  · exact borrowOrFetch_reads s

theorem readString_reads {s : List Byte} (small : (encodeString s).length < 2 ^ 31) :
    Reads (readString {}) (encodeString s) (s.take (s.length % 2 ^ 32)) := by
  have kept : (s.take (s.length % 2 ^ 32)).length = s.length % 2 ^ 32 := by
    rw [List.length_take]
    exact Nat.min_eq_left (Nat.mod_le _ _)
  have same : BitVec.ofNat 32 s.length = BitVec.ofNat 32 (s.take (s.length % 2 ^ 32)).length := by
    apply BitVec.eq_of_toNat_eq
    rw [kept, BitVec.toNat_ofNat, BitVec.toNat_ofNat, Nat.mod_mod]
  refine Reads.call ((readInt_reads _).then ?_) small
  rw [same]
  apply readStringBody_reads
  rw [encodeString, List.length_append] at small
  omega

theorem TType.code_ne_stop {t : TType} (other : t ≠ .stop) : t.code ≠ TType.stop.code := by
  cases t with
  | stop => exact absurd rfl other
  | _ => decide

theorem Value.type_ne_stop (v : Value) : v.type ≠ .stop := by
  cases v with
  | scalar s => cases s <;> simp [Value.type, Scalar.type]
  | _ => simp [Value.type]

theorem readFieldBegin_reads (v : Value) (id : BitVec 16) :
    Reads readFieldBegin ([v.type.code] ++ net 2 id) (v.type.code, id) := by
  refine (readByte_reads _).then ?_
  rw [if_neg (TType.code_ne_stop v.type_ne_stop)]
  exact (readInt_reads (n := 2) id).last Reads.nothing

theorem readFieldBegin_stop : Reads readFieldBegin [TType.stop.code] (TType.stop.code, 0) := by
  apply (readByte_reads TType.stop.code).last
  exact Reads.nothing

theorem readSize_reads (small : n < 2 ^ 31) : Reads (readSize {}) (encodeSize n) (BitVec.ofNat 32 n) := by
  have positive : (BitVec.ofNat 32 n).msb = false := by
    rw [msb_ofNat]
    exact decide_eq_false (by omega)
  apply (readInt_reads (n := 4) (BitVec.ofNat 32 n)).last
  rw [positive]
  exact Reads.nothing

theorem readMapBegin_reads (key value : TType) (small : n < 2 ^ 31) :
    Reads (readMapBegin {}) ([key.code, value.code] ++ encodeSize n) (key.code, value.code, BitVec.ofNat 32 n) := by
  refine (readByte_reads key.code).then ((readByte_reads value.code).then ?_)
  exact (readSize_reads small).last Reads.nothing

theorem readListBegin_reads (type : TType) (small : n < 2 ^ 31) :
    Reads (readListBegin {}) ([type.code] ++ encodeSize n) (type.code, BitVec.ofNat 32 n) := by
  refine (readByte_reads type.code).then ?_
  exact (readSize_reads small).last Reads.nothing

theorem readSetBegin_reads (type : TType) (n : Nat) :
    Reads (readSetBegin {}) ([type.code] ++ encodeSize n) (type.code, BitVec.ofNat 32 n) := by
  refine (readByte_reads type.code).then ?_
  apply (readInt_reads (n := 4) (BitVec.ofNat 32 n)).last
  split <;> exact Reads.nothing

/-! ### Trees -/

theorem length_encodeString (s : List Byte) : 4 ≤ (encodeString s).length := by
  rw [encodeString, List.length_append, length_net]
  omega

theorem Scalar.encode_pos (s : Scalar) : 0 < s.encode.length := by
  cases s with
  | string s | binary s | xml s => exact Nat.lt_of_lt_of_le (by decide) (length_encodeString s)
  | ipaddr a => cases a <;> exact Nat.succ_pos _
  | _ => simp [Scalar.encode, length_net]

theorem Value.encode_pos (v : Value) : 0 < v.encode.length := by
  cases v with
  | scalar s =>
    exact s.encode_pos
  | _ => simp [Value.encode]

theorem Elements.size_le (es : Elements) : es.size ≤ es.encode.length := by
  match es with
  | .nil => exact Nat.zero_le _
  | .cons value rest =>
    have later := rest.size_le
    have first := value.encode_pos
    rw [Elements.size, Elements.encode, List.length_append]
    omega

theorem Entries.size_le (es : Entries) : es.size ≤ es.encode.length := by
  match es with
  | .nil => exact Nat.zero_le _
  | .cons key value rest =>
    have later := rest.size_le
    have first := key.encode_pos
    rw [Entries.size, Entries.encode, List.length_append, List.length_append]
    omega

theorem Scalar.reads (s : Scalar) (small : s.encode.length < 2 ^ 31) : Reads (s.read {}) s.encode () := by
  cases s with
  | bool b => exact (readBool_reads _).discard
  | byte w => exact (readByte_reads w).discard
  | i16 w => exact (readInt_reads (n := 2) w).discard
  | i32 w => exact (readInt_reads (n := 4) w).discard
  | i64 w => exact (readInt_reads (n := 8) w).discard
  | u16 w => exact (readInt_reads (n := 2) w).discard
  | u32 w => exact (readInt_reads (n := 4) w).discard
  | u64 w => exact (readInt_reads (n := 8) w).discard
  | ipv4 w => exact (readInt_reads (n := 4) w).discard
  | ipaddr a =>
    obtain ⟨found, reads⟩ := readIPADDR_reads a
    exact reads.discard
  | double bits => exact (readInt_reads (n := 8) bits).discard
  | string s | binary s | xml s => exact (readString_reads small).discard
  | uuid bytes => exact (fetch_reads Vector.length_toList).discard

mutual

theorem Value.reads (v : Value) (small : v.encode.length < 2 ^ 31) : Reads (v.read {}) v.encode () := by
  cases v with
  | scalar s =>
    rw [Value.encode] at small ⊢
    rw [Value.read]
    exact s.reads small
  | struct members =>
    rw [Value.encode] at small ⊢
    rw [Value.read]
    have inner : members.encode.length < 2 ^ 31 := by
      rw [List.length_append] at small
      omega
    exact ((members.reads inner).then readFieldBegin_stop.discard).call small
  | map key value entries =>
    have count := entries.size_le
    rw [Value.encode, List.length_append] at small
    rw [Value.encode, Value.read]
    exact (readMapBegin_reads key value (by omega)).then (entries.reads (by omega))
  | set type elements =>
    rw [Value.encode, List.length_append] at small
    rw [Value.encode, Value.read]
    exact (readSetBegin_reads type elements.size).then (elements.reads (by omega))
  | list type elements =>
    have count := elements.size_le
    rw [Value.encode, List.length_append] at small
    rw [Value.encode, Value.read]
    exact (readListBegin_reads type (by omega)).then (elements.reads (by omega))

theorem Members.reads (ms : Members) (small : ms.encode.length < 2 ^ 31) : Reads (ms.read {}) ms.encode () := by
  cases ms with
  | nil =>
    rw [Members.encode, Members.read]
    exact Reads.nothing
  | cons id value rest =>
    simp only [Members.encode, List.length_append] at small
    rw [Members.encode, Members.read, List.append_assoc]
    exact (readFieldBegin_reads value id).then ((value.reads (by omega)).then (rest.reads (by omega)))

theorem Elements.reads (es : Elements) (small : es.encode.length < 2 ^ 31) : Reads (es.read {}) es.encode () := by
  cases es with
  | nil =>
    rw [Elements.encode, Elements.read]
    exact Reads.nothing
  | cons value rest =>
    rw [Elements.encode, List.length_append] at small
    rw [Elements.encode, Elements.read]
    exact (value.reads (by omega)).then (rest.reads (by omega))

theorem Entries.reads (es : Entries) (small : es.encode.length < 2 ^ 31) : Reads (es.read {}) es.encode () := by
  cases es with
  | nil =>
    rw [Entries.encode, Entries.read]
    exact Reads.nothing
  | cons key value rest =>
    rw [Entries.encode, List.append_assoc, List.length_append, List.length_append] at small
    rw [Entries.encode, Entries.read, List.append_assoc]
    exact (key.reads (by omega)).then ((value.reads (by omega)).then (rest.reads (by omega)))

end

namespace Message
variable (m : Message)

theorem reads (small : m.encode.length < 2 ^ 31) : Reads m.read m.encode () := by
  have parts := small
  rw [encode, List.length_append, List.length_append] at parts
  refine Reads.call ?_ small
  rw [encode, List.append_assoc]
  exact (readString_reads (by omega)).then ((m.members.reads (by omega)).then readFieldBegin_stop.discard)

def sentName : List Byte := m.name.take (m.name.length % 2 ^ 32)

variable {m} {buf : List Byte} {memory : Nat → Byte}

theorem value_of_small (small : m.encode.length < 2 ^ 31) : (BitVec.ofNat 32 m.encode.length).toInt = m.encode.length := by
  rw [BitVec.toInt_eq_toNat_of_lt (by rw [BitVec.toNat_ofNat]; omega), BitVec.toNat_ofNat, Nat.mod_eq_of_lt (by omega)]

theorem readBinary_completed (small : m.encode.length < 2 ^ 31)
    (found : (⟨buf, memory⟩ : Source).front m.encode.length = m.encode) :
    m.readBinary buf memory = m.encode.length := by
  obtain ⟨t, ran, _⟩ := m.reads small _ found
  rw [readBinary, ran]
  exact value_of_small small

variable {factory : List Byte → Option (Counted Source Unit)}

theorem receiveOne_completed (small : m.encode.length < 2 ^ 31) (known : factory m.sentName = some m.read)
    (named : (⟨buf, memory⟩ : Source).front (encodeString m.name).length = encodeString m.name)
    (found : (⟨buf, ((⟨buf, memory⟩ : Source).after (encodeString m.name).length).memory⟩ : Source).front m.encode.length =
      m.encode) :
    (receiveBinaryMsgOne factory buf memory).1 = m.encode.length := by
  have parts := small
  rw [encode, List.append_assoc, List.length_append] at parts
  obtain ⟨t, ran, rfl⟩ := readString_reads (by omega) _ named
  obtain ⟨u, later, _⟩ := m.reads small _ found
  simp only [receiveBinaryMsgOne, readSandeshBegin, ran]
  rw [← sentName, known]
  simp only [later]
  exact value_of_small small

theorem receive_completed (some_ : buf ≠ []) (fits : buf.length ≤ m.encode.length) (small : m.encode.length < 2 ^ 31)
    (one : (receiveBinaryMsgOne factory buf memory).1 = m.encode.length) :
    receiveBinaryMsg factory buf memory 2 = some (m.encode.length : Int) ∧
      ∀ turns r, receiveBinaryMsg factory buf memory turns = some r → r = m.encode.length := by
  have more : (0 : BitVec 32).toNat < buf.length := List.length_pos_iff.mpr some_
  have counted : ((0 : BitVec 32) + BitVec.ofInt 32 m.encode.length).toNat = m.encode.length := by
    rw [zero_add, BitVec.ofInt_natCast, BitVec.toNat_ofNat, Nat.mod_eq_of_lt (by omega)]
  have again : receiveTurn factory buf (0, memory) =
      some (.again (0 + BitVec.ofInt 32 m.encode.length, (receiveBinaryMsgOne factory buf memory).2)) := by
    have start : (0 : BitVec 32).toNat = 0 := rfl
    rw [receiveTurn, if_pos more, start, List.drop_zero]
    simp only [one]
    rw [if_neg (by omega)]
  have exit_ (next : Nat → Byte) : receiveTurn factory buf (0 + BitVec.ofInt 32 m.encode.length, next) =
      some (.exit (m.encode.length : Int)) := by
    rw [receiveTurn, if_neg (by omega), BitVec.toInt_eq_toNat_of_lt (by omega), counted]
  constructor
  · rw [receiveBinaryMsg, loop_again again, loop_exit (exit_ _)]
  · intro turns r ended
    rw [receiveBinaryMsg] at ended
    match turns with
    | 0 => cases ended
    | 1 =>
      rw [loop_again again] at ended
      cases ended
    | turns + 2 =>
      rw [loop_again again, loop_exit (exit_ _)] at ended
      exact (Option.some.inj ended).symm

end Message

/-! ### Truncated messages -/

def memoryOf (bytes : List Byte) : Nat → Byte := fun i => bytes.getD i 0

theorem front_completed {buf whole more : List Byte} (agree : buf.take whole.length = whole.take buf.length) :
    (⟨buf, memoryOf (whole.drop buf.length ++ more)⟩ : Source).front whole.length = whole := by
  have rest : (List.range (whole.length - buf.length)).map (memoryOf (whole.drop buf.length ++ more)) =
      whole.drop buf.length := by
    apply List.ext_getElem
    · simp
    · intro i left right
      rw [List.length_drop] at right
      simp only [List.getElem_map, List.getElem_range, memoryOf, List.getD_eq_getElem?_getD]
      rw [List.getElem?_append_left (by rw [List.length_drop]; exact right), List.getElem?_eq_getElem]
      rfl
  rw [Source.front, agree, rest, List.take_append_drop]

theorem memory_after {buf whole more : List Byte} :
    ((⟨buf, memoryOf (whole.drop buf.length ++ more)⟩ : Source).after whole.length).memory = memoryOf more := by
  funext i
  simp only [Source.after, memoryOf, List.getD_eq_getElem?_getD]
  rw [List.getElem?_append_right (by rw [List.length_drop]; omega), List.length_drop]
  congr 3
  omega

theorem front_left (bytes more : List Byte) (memory : Nat → Byte) :
    (⟨bytes ++ more, memory⟩ : Source).front bytes.length = bytes := by
  rw [Source.front, List.take_left, List.length_append, Nat.sub_eq_zero_of_le (by omega), List.range_zero, List.map_nil,
    List.append_nil]

section truncated
variable {m : Message} {factory : List Byte → Option (Counted Source Unit)} {buf missing : List Byte}

theorem front_missing (cut : m.encode = buf ++ missing) :
    (⟨buf, memoryOf missing⟩ : Source).front m.encode.length = m.encode := by
  have found := @front_completed buf m.encode [] (by rw [cut]; simp)
  rw [cut, List.drop_left, List.append_nil, ← cut] at found
  exact found

theorem encode_eq_name (m : Message) :
    m.encode = encodeString m.name ++ (m.members.encode ++ [TType.stop.code]) := by
  rw [Message.encode, List.append_assoc]

theorem receiveOne_reports (known : factory m.sentName = some m.read) (cut : m.encode = buf ++ missing)
    (small : m.encode.length < 2 ^ 31) : ∃ memory, (receiveBinaryMsgOne factory buf memory).1 = m.encode.length := by
  have front : buf = m.encode.take buf.length := by rw [cut, List.take_left]
  have name : encodeString m.name = m.encode.take (encodeString m.name).length := by rw [encode_eq_name, List.take_left]
  have agree : buf.take (encodeString m.name).length = (encodeString m.name).take buf.length := by
    calc buf.take (encodeString m.name).length
        = (m.encode.take buf.length).take (encodeString m.name).length := by rw [← front]
      _ = (m.encode.take (encodeString m.name).length).take buf.length := by
        rw [List.take_take, List.take_take, Nat.min_comm]
      _ = (encodeString m.name).take buf.length := by rw [← name]
  refine ⟨memoryOf ((encodeString m.name).drop buf.length ++ missing), ?_⟩
  apply Message.receiveOne_completed small known (front_completed agree)
  rw [memory_after]
  exact front_missing cut

theorem receiveOne_whole (known : factory m.sentName = some m.read) (small : m.encode.length < 2 ^ 31)
    (memory : Nat → Byte) : (receiveBinaryMsgOne factory m.encode memory).1 = m.encode.length := by
  apply Message.receiveOne_completed small known
  · rw [encode_eq_name]
    exact front_left _ _ memory
  · have found := front_left m.encode [] ((⟨m.encode, memory⟩ : Source).after (encodeString m.name).length).memory
    rwa [List.append_nil] at found

end truncated

/-- Truncated messages are rejected, and no more than the buffer holds is reported, exactly when nothing is missing. -/
theorem truncated_rejected_iff (m : Message) (factory : List Byte → Option (Counted Source Unit))
    (known : factory m.sentName = some m.read) (buf missing : List Byte) (cut : m.encode = buf ++ missing)
    (small : m.encode.length < 2 ^ 31) :
    ((missing ≠ [] → ∀ memory, m.readBinary buf memory < 0) ↔ missing = []) ∧
    ((∀ memory, m.readBinary buf memory ≤ buf.length) ↔ missing = []) ∧
    ((∀ memory turns r, receiveBinaryMsg factory buf memory turns = some r → r ≤ buf.length) ↔
      missing = [] ∨ buf = []) := by
  have length : m.encode.length = buf.length + missing.length := by rw [cut, List.length_append]
  have completed := Message.readBinary_completed small (front_missing cut)
  refine ⟨⟨fun rejects => ?_, fun whole some_ => absurd whole some_⟩, ⟨fun honest => ?_, fun whole memory => ?_⟩,
    fun honest => ?_, ?_⟩
  · by_contra some_
    have negative := rejects some_ (memoryOf missing)
    omega
  · have reported := honest (memoryOf missing)
    exact List.length_eq_zero_iff.mp (by omega)
  · have found := front_left m.encode missing memory
    rw [whole, List.append_nil] at cut found
    rw [← cut, Message.readBinary_completed small found]
  · by_contra both
    obtain ⟨some_, start⟩ := not_or.mp both
    obtain ⟨memory, one⟩ := receiveOne_reports known cut small
    have limited := honest memory 2 _ (Message.receive_completed start (by omega) small one).1
    exact some_ (List.length_eq_zero_iff.mp (by omega))
  · rintro (rfl | rfl) memory turns r ended
    · rw [List.append_nil] at cut
      subst cut
      have some_ : m.encode ≠ [] := by simp [Message.encode]
      have reported := (Message.receive_completed some_ le_rfl small (receiveOne_whole known small memory)).2 turns r ended
      exact le_of_eq reported
    · cases turns with
      | zero => cases ended
      | succ turns =>
        cases ended
        exact le_rfl

def boolMessage : Message := ⟨[65], .cons 1 (.scalar (.bool true)) .nil⟩

def boolFactory (name : List Byte) : Option (Counted Source Unit) := if name = [65] then some boolMessage.read else none

/-- Without its field and its end, the message is read from memory that holds zeros. -/
theorem truncated_message_accepted :
    boolMessage.encode = [0, 0, 0, 1, 65, 2, 0, 1] ++ [1, 0] ∧
      boolMessage.readBinary [0, 0, 0, 1, 65, 2, 0, 1] (fun _ => 0) = 10 ∧
      receiveBinaryMsg boolFactory [0, 0, 0, 1, 65, 2, 0, 1] (fun _ => 0) 2 = some 10 := by
  refine ⟨by decide +kernel, by decide +kernel, by decide +kernel⟩

theorem truncated_rejected_iff_bool :
    ∃ memory, ¬ boolMessage.readBinary [0, 0, 0, 1, 65, 2, 0, 1] memory ≤ 8 := by
  have iff := truncated_rejected_iff boolMessage boolFactory rfl [0, 0, 0, 1, 65, 2, 0, 1] [1, 0] (by decide +kernel)
    (by decide +kernel)
  by_contra all
  have honest := iff.2.1.mp fun memory => not_not.mp (not_exists.mp all memory)
  cases honest

end TFCommon.Sandesh.Binary
