import Mathlib.Data.List.Basic
import Mathlib.Algebra.GroupWithZero.Nat

/-! Text that is sent as UTF-8 and received in chunks, each of which is decoded by itself. -/
namespace TFCommon.Chunks

def joined : List ByteArray → ByteArray
  | [] => .empty
  | c :: chunks => c ++ joined chunks

def decodeAll : List ByteArray → Option (List (List Char))
  | [] => some []
  | c :: chunks => do
    let chars ← c.utf8Decode?
    let rest ← decodeAll chunks
    return chars.toList :: rest

def bytes (text : List Char) : Nat := (text.map Char.utf8Size).sum

def Ascii (text : List Char) : Prop := ∀ c ∈ text, c.toNat ≤ 127

instance (text : List Char) : Decidable (Ascii text) := List.decidableBAll (fun c : Char => c.toNat ≤ 127) text

variable {text : List Char} {chunks : List ByteArray} {segments : List (List Char)}

/-! ### The number of bytes -/

theorem bytes_cons (c : Char) (text : List Char) : bytes (c :: text) = c.utf8Size + bytes text := rfl

theorem size_utf8Encode (text : List Char) : text.utf8Encode.size = bytes text := by
  induction text with
  | nil => rfl
  | cons c text ih =>
    rw [List.utf8Encode_cons, ByteArray.size_append, List.utf8Encode_singleton, List.size_toByteArray,
      String.length_utf8EncodeChar, ih, bytes_cons]

theorem length_le_bytes (text : List Char) : text.length ≤ bytes text := by
  induction text with
  | nil => exact Nat.zero_le _
  | cons c text ih =>
    have positive := c.utf8Size_pos
    rw [bytes_cons, List.length_cons]
    omega

theorem bytes_eq_length_iff (text : List Char) : bytes text = text.length ↔ Ascii text := by
  induction text with
  | nil => exact ⟨nofun, fun _ => rfl⟩
  | cons c text ih =>
    have positive := c.utf8Size_pos
    have rest := length_le_bytes text
    have here : c.utf8Size = 1 ↔ c.toNat ≤ 127 := Char.utf8Size_eq_one_iff.trans UInt32.le_iff_toNat_le
    rw [bytes_cons, List.length_cons, Ascii, List.forall_mem_cons]
    change _ ↔ _ ∧ Ascii text
    rw [← ih]
    omega

/-! ### Decoding -/

theorem utf8Encode_of_decode {c : ByteArray} {chars : Array Char} (decoded : c.utf8Decode? = some chars) :
    chars.toList.utf8Encode = c := by
  have known : c.utf8Decode?.isSome := by rw [decoded]; rfl
  have back := ByteArray.utf8Encode_get_utf8Decode? (h := known)
  simpa only [decoded, Option.get_some] using back

theorem utf8Encode_injective {a b : List Char} (same : a.utf8Encode = b.utf8Encode) : a = b := by
  have left := List.utf8Decode?_utf8Encode (l := a)
  rw [same, List.utf8Decode?_utf8Encode] at left
  exact (List.toArray_inj (Option.some.inj left)).symm

theorem decodeAll_cons {c : ByteArray} (decoded : decodeAll (c :: chunks) = some segments) :
    ∃ chars rest, c.utf8Decode? = some chars ∧ decodeAll chunks = some rest ∧ segments = chars.toList :: rest := by
  simp only [decodeAll, Option.bind_eq_bind, Option.bind_eq_some_iff, Option.pure_def, Option.some.injEq] at decoded
  obtain ⟨chars, first, rest, later, same⟩ := decoded
  exact ⟨chars, rest, first, later, same.symm⟩

theorem flatten_decodeAll (decoded : decodeAll chunks = some segments) (whole : joined chunks = text.utf8Encode) :
    segments.flatten = text := by
  have back : ∀ {chunks segments}, decodeAll chunks = some segments → segments.flatten.utf8Encode = joined chunks := by
    intro chunks
    induction chunks with
    | nil =>
      intro segments decoded
      cases decoded
      rfl
    | cons c chunks ih =>
      intro segments decoded
      obtain ⟨chars, rest, first, later, rfl⟩ := decodeAll_cons decoded
      rw [List.flatten_cons, List.utf8Encode_append, utf8Encode_of_decode first, ih later]
      rfl
  exact utf8Encode_injective ((back decoded).trans whole)

theorem decodeAll_ascii (ascii : Ascii text) (whole : joined chunks = text.utf8Encode) :
    ∃ segments, decodeAll chunks = some segments := by
  induction chunks generalizing text with
  | nil => exact ⟨[], rfl⟩
  | cons c chunks ih =>
    obtain ⟨n, length⟩ : ∃ n, c.size = n := ⟨_, rfl⟩
    have front : Ascii (text.take n) := fun x inside => ascii x (List.mem_of_mem_take inside)
    have back : Ascii (text.drop n) := fun x inside => ascii x (List.mem_of_mem_drop inside)
    have cut : c ++ joined chunks = (text.take n).utf8Encode ++ (text.drop n).utf8Encode := by
      rw [← List.utf8Encode_append, List.take_append_drop]
      exact whole
    have fits : n ≤ text.length := by
      have total := congrArg ByteArray.size whole
      rw [size_utf8Encode, (bytes_eq_length_iff text).mpr ascii, joined, ByteArray.size_append] at total
      omega
    -- the first chunk is the encoding of as many characters as it has bytes
    obtain rfl : c = (text.take n).utf8Encode := by
      refine ByteArray.append_inj_left cut ?_
      rw [length, size_utf8Encode, (bytes_eq_length_iff _).mpr front, List.length_take, Nat.min_eq_left fits]
    obtain ⟨rest, decoded⟩ := ih back ((ByteArray.append_right_inj _).mp cut)
    refine ⟨text.take n :: rest, ?_⟩
    simp only [decodeAll, List.utf8Decode?_utf8Encode, decoded]
    rfl

end TFCommon.Chunks
