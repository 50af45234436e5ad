import TFCommon.Sandesh.Binary

/-! What `Sandesh::WriteBinary` returns depends on the message alone: it is the length of the encoding, or negative when
the length of a string, of a struct or of the message has the sign bit of an `int32_t`. -/
namespace TFCommon.Sandesh.Binary
open Counted

def negative (length : Nat) : Bool := decide (2 ^ 31 ≤ length % 2 ^ 32)

def Scalar.overlong : Scalar → Bool
  | .string s | .binary s | .xml s => negative (encodeString s).length
  | _ => false

mutual

/-- A string or a struct of the tree takes a number of bytes that is negative. -/
def Value.overlong : Value → Bool
  | .scalar s => s.overlong
  | .struct members => members.overlong || negative (members.encode ++ [TType.stop.code]).length
  | .map _ _ entries => entries.overlong
  | .set _ elements => elements.overlong
  | .list _ elements => elements.overlong

def Members.overlong : Members → Bool
  | .nil => false
  | .cons _ value rest => value.overlong || rest.overlong

def Elements.overlong : Elements → Bool
  | .nil => false
  | .cons value rest => value.overlong || rest.overlong

def Entries.overlong : Entries → Bool
  | .nil => false
  | .cons key value rest => key.overlong || (value.overlong || rest.overlong)

end

def Message.overlong (m : Message) : Bool :=
  (negative (encodeString m.name).length || m.members.overlong) || negative m.encode.length

/-! ### What a writer delivers -/

def Writes (p : Counted Sink Unit) (bytes : List Byte) : Prop :=
  Transfers (fun _ => True) (fun s t => bytes.length ≤ s.space → t = s.push bytes) p bytes.length ()

def Delivers (p : Counted Sink Unit) (long : Bool) (bytes : List Byte) : Prop :=
  if long then Fails (fun _ => True) p else Writes p bytes

variable {p q : Counted Sink Unit} {l k : Bool} {a b : List Byte}

theorem Sink.push_push (s : Sink) : (s.push a).push b = s.push (a ++ b) := by
  simp [push, Nat.sub_sub]

theorem put_delivers : Delivers (put a) false a := by
  intro s _
  refine ⟨(s.write a).2, rfl, fun fits => ?_⟩
  rw [Sink.write, if_pos fits]

theorem nothing_delivers : Delivers (pure ()) false [] := by
  intro s _
  exact ⟨s, rfl, fun _ => by simp [Sink.push]⟩

theorem Writes.then (first : Writes p a) (second : Writes q b) : Writes (p >>= fun _ => q) (a ++ b) := by
  rw [Writes, List.length_append]
  refine Transfers.bind first second (fun s _ => ⟨trivial, fun _ _ => trivial⟩) ?_
  intro s t u _ firstly secondly fits
  rw [firstly (by omega)] at secondly
  rw [← Sink.push_push]
  exact secondly (by simp only [Sink.push]; omega)

theorem Delivers.then (first : Delivers p l a) (second : Delivers q k b) :
    Delivers (p >>= fun _ => q) (l || k) (a ++ b) := by
  cases l with
  | true => exact Fails.bind first
  | false =>
    cases k with
    | true => exact Transfers.fails_bind first second fun _ _ _ _ => trivial
    | false => exact Writes.then first second

theorem Delivers.call (delivers : Delivers p l a) : Delivers (call p) (l || negative a.length) a := by
  cases l with
  | true => exact Fails.call delivers
  | false =>
    cases sign : negative a.length with
    | true => exact Transfers.fails_call delivers (of_decide_eq_true sign)
    | false => exact Transfers.call delivers (by have := of_decide_eq_false sign; omega)

theorem writeString_delivers (s : List Byte) :
    Delivers (writeString s) (negative (encodeString s).length) (encodeString s) := by
  have body : Delivers (if 0 < s.length % 2 ^ 32 then put (s.take (s.length % 2 ^ 32)) else pure ()) false
      (s.take (s.length % 2 ^ 32)) := by
    split
    · exact put_delivers
    · rename_i empty
      rw [Nat.eq_zero_of_not_pos empty]
      exact nothing_delivers
  exact (put_delivers.then body).call

theorem Scalar.delivers (s : Scalar) : Delivers s.write s.overlong s.encode := by
  cases s with
  | string s | binary s | xml s => exact writeString_delivers s
  | ipaddr a =>
    cases a with
    | v4 bytes | v6 bytes => exact put_delivers.then put_delivers
  | _ => exact put_delivers

theorem writeFieldBegin_delivers (type : TType) (id : BitVec 16) :
    Delivers (writeFieldBegin type id) false ([type.code] ++ net 2 id) :=
  put_delivers.then put_delivers

theorem writeSize_delivers (type : TType) (size : Nat) :
    Delivers (writeByte type.code >>= fun _ => writeI32 (BitVec.ofNat 32 size)) false ([type.code] ++ encodeSize size) :=
  put_delivers.then put_delivers

mutual

theorem Value.delivers (v : Value) : Delivers v.write v.overlong v.encode := by
  cases v with
  | scalar s =>
    rw [Value.write, Value.overlong, Value.encode]
    exact s.delivers
  | struct members =>
    rw [Value.write, Value.overlong, Value.encode]
    have body := members.delivers.then (put_delivers (a := [TType.stop.code]))
    rw [Bool.or_false] at body
    exact body.call
  | map key value entries =>
    rw [Value.write, Value.overlong, Value.encode]
    exact (put_delivers.then (writeSize_delivers value entries.size)).then entries.delivers
  | set type elements | list type elements =>
    rw [Value.write, Value.overlong, Value.encode]
    exact (writeSize_delivers type elements.size).then elements.delivers

theorem Members.delivers (ms : Members) : Delivers ms.write ms.overlong ms.encode := by
  cases ms with
  | nil =>
    rw [Members.write, Members.overlong, Members.encode]
    exact nothing_delivers
  | cons id value rest =>
    rw [Members.write, Members.overlong, Members.encode, List.append_assoc]
    exact (writeFieldBegin_delivers value.type id).then (value.delivers.then rest.delivers)

theorem Elements.delivers (es : Elements) : Delivers es.write es.overlong es.encode := by
  cases es with
  | nil =>
    rw [Elements.write, Elements.overlong, Elements.encode]
    exact nothing_delivers
  | cons value rest =>
    rw [Elements.write, Elements.overlong, Elements.encode]
    exact value.delivers.then rest.delivers

theorem Entries.delivers (es : Entries) : Delivers es.write es.overlong es.encode := by
  cases es with
  | nil =>
    rw [Entries.write, Entries.overlong, Entries.encode]
    exact nothing_delivers
  | cons key value rest =>
    rw [Entries.write, Entries.overlong, Entries.encode, List.append_assoc]
    exact key.delivers.then (value.delivers.then rest.delivers)

end

theorem Message.delivers (m : Message) : Delivers m.write m.overlong m.encode := by
  rw [Message.overlong, Message.encode, List.append_assoc]
  have body := (writeString_delivers m.name).then (m.members.delivers.then (put_delivers (a := [TType.stop.code])))
  rw [Bool.or_false] at body
  exact body.call

/-- The result is honest exactly when the message fits if and only if no length is negative. -/
theorem writeBinary_honest_iff (m : Message) (bufLen : BitVec 32) :
    (((m.writeBinary bufLen).1 < 0 ∨
        (m.writeBinary bufLen).1 = m.encode.length ∧ m.encode.length ≤ bufLen.toNat ∧
          (m.writeBinary bufLen).2 = m.encode) ∧
      (0 ≤ (m.writeBinary bufLen).1 ↔ m.encode.length ≤ bufLen.toNat)) ↔
    (m.encode.length ≤ bufLen.toNat ↔ m.overlong = false) := by
  have delivers := m.delivers
  cases long : m.overlong with
  | true =>
    rw [long] at delivers
    obtain ⟨code, t, ran, minus⟩ := delivers { space := bufLen.toNat } trivial
    have below : (m.writeBinary bufLen).1 < 0 := by
      rw [Message.writeBinary, ran]
      exact BitVec.toInt_neg_iff.mpr (by rw [BitVec.msb_eq_decide, decide_eq_true_eq] at minus; omega)
    constructor
    · rintro ⟨_, fits⟩
      refine ⟨fun enough => ?_, nofun⟩
      exact absurd (fits.mpr enough) (not_le.mpr below)
    · intro fits
      refine ⟨.inl below, fun h => absurd below (not_lt.mpr h), fun enough => ?_⟩
      cases fits.mp enough
  | false =>
    rw [long] at delivers
    obtain ⟨t, ran, pushed⟩ := delivers { space := bufLen.toNat } trivial
    have small : m.encode.length % 2 ^ 32 < 2 ^ 31 := by
      rw [Message.overlong, Bool.or_eq_false_iff] at long
      have := of_decide_eq_false long.2
      omega
    have returned : (m.writeBinary bufLen).1 = (m.encode.length % 2 ^ 32 : Nat) := by
      rw [Message.writeBinary, ran]
      exact BitVec.toInt_eq_toNat_of_lt (by rw [BitVec.toNat_ofNat]; omega)
    constructor
    · rintro ⟨_, fits⟩
      exact ⟨fun _ => rfl, fun _ => fits.mp (by rw [returned]; omega)⟩
    · intro fits
      have enough := fits.mpr rfl
      have exactly : (m.writeBinary bufLen).1 = m.encode.length := by
        rw [returned, Nat.mod_eq_of_lt (by omega)]
      refine ⟨.inr ⟨exactly, enough, ?_⟩, fun _ => enough, fun _ => by rw [exactly]; omega⟩
      rw [Message.writeBinary, ran, pushed enough]
      rfl

def smallMessage : Message := ⟨[65], .nil⟩

/-- Of a message of six bytes in a buffer of two, the length of the name is lost. -/
theorem short_buffer_not_reported : smallMessage.encode.length = 6 ∧ smallMessage.writeBinary 2 = (6, [65, 0]) := by
  constructor <;> decide +kernel

end TFCommon.Sandesh.Binary
