import TFCommon.Address.Text
import TFCommon.Cql.Lexer

/-! The values of the database interface (`gendb_if.h`), how `CassQueryPrinter` writes them into a statement, and what a
literal of CQL denotes. -/
namespace TFCommon.Cql
open Lexing Radix Address

structure Numeral where
  negative : Bool
  whole : Nat
  fraction : List (Fin 10)
  -- The sign and the value of the exponent.
  exponent : Option (Bool × Nat)
deriving DecidableEq, Repr

inductive Double where
  | number (n : Numeral)
  | infinity (negative : Bool)
  | nan (negative : Bool)
deriving DecidableEq, Repr

inductive DbDataValue where
  | blank
  | string (s : List Char)
  | uint64 (n : BitVec 64)
  | uint32 (n : BitVec 32)
  | uuid (bytes : Vector Byte 16)
  | uint8 (n : BitVec 8)
  | uint16 (n : BitVec 16)
  | double (d : Double)
  | inet (addr : IpAddress)
  | blob (bytes : List Byte)
deriving DecidableEq

/-! ### Printing -/

def fractionText (fraction : List (Fin 10)) : List Char :=
  if fraction = [] then [] else '.' :: fraction.map fun d : Fin 10 => Nat.digitChar d.val

def exponentText : Option (Bool × Nat) → List Char
  | none => []
  | some (negative, n) =>
    'e' :: (if negative then '-' else '+') :: (if n < 10 then '0' :: Nat.toDigits 10 n else Nat.toDigits 10 n)

def Numeral.text (n : Numeral) : List Char :=
  let unsigned := Nat.toDigits 10 n.whole ++ fractionText n.fraction ++ exponentText n.exponent
  if n.negative then '-' :: unsigned else unsigned

def signed (negative : Bool) (word : List Char) : List Char := if negative then '-' :: word else word

def Double.text : Double → List Char
  | .number n => n.text
  | .infinity negative => signed negative ['i', 'n', 'f']
  | .nan negative => signed negative ['n', 'a', 'n']

def intText : Int → List Char
  | .ofNat n => Nat.toDigits 10 n
  | .negSucc n => '-' :: Nat.toDigits 10 (n + 1)

def bytesToHex (bytes : List Byte) : List Char :=
  let value := Radix.bytes bytes
  '0' :: 'x' :: (if value.length = 0 then ['0', '0'] else value)

def uuidPart (bytes : Vector Byte 16) (first n : Nat) : List Char := Radix.bytes ((bytes.toList.drop first).take n)

def uuidText (bytes : Vector Byte 16) : List Char :=
  uuidPart bytes 0 4 ++ '-' :: (uuidPart bytes 4 2 ++ '-' :: (uuidPart bytes 6 2 ++ '-' :: (uuidPart bytes 8 2 ++
    '-' :: uuidPart bytes 10 6)))

def cassQueryPrinter (quoteStrings : Bool) : DbDataValue → List Char
  | .blank => []
  | .string s => if quoteStrings then '\'' :: (s ++ ['\'']) else s
  | .uint64 n => intText n.toInt
  | .uint32 n => intText n.toInt
  | .uuid bytes => uuidText bytes
  | .uint8 n => Nat.toDigits 10 n.toNat
  | .uint16 n => Nat.toDigits 10 n.toNat
  | .double d => d.text
  | .inet addr => '\'' :: (addr.toString ++ ['\''])
  | .blob bytes => bytesToHex bytes

/-! ### Literals -/

inductive Kind where
  | string | uint64 | uint32 | uuid | uint8 | uint16 | inet | blob
deriving DecidableEq, Repr

def DbDataValue.kind : DbDataValue → Option Kind
  | .blank | .double _ => none
  | .string _ => some .string
  | .uint64 _ => some .uint64
  | .uint32 _ => some .uint32
  | .uuid _ => some .uuid
  | .uint8 _ => some .uint8
  | .uint16 _ => some .uint16
  | .inet _ => some .inet
  | .blob _ => some .blob

def readInt : List Char → Option Int
  | [] => none
  | c :: text =>
    if c = '-' then (Radix.read 10 text).map fun n => -(n : Int) else (Radix.read 10 (c :: text)).map fun n => (n : Int)

def readUuid (digits : List Char) : Option (Vector Byte 16) :=
  (readBytes digits).bind fun bytes => if size : bytes.length = 16 then some ⟨bytes.toArray, size⟩ else none

/-- The value that a literal denotes at a type; integers are taken modulo two's complement. -/
def Token.read : Kind → Token → Option DbDataValue
  | .string, .string s => some (.string s)
  | .uint64, .number text => (readInt text).map fun i => .uint64 (BitVec.ofInt 64 i)
  | .uint32, .number text => (readInt text).map fun i => .uint32 (BitVec.ofInt 32 i)
  | .uuid, .uuid digits => (readUuid digits).map .uuid
  | .uint8, .number text => (readInt text).map fun i => .uint8 (BitVec.ofInt 8 i)
  | .uint16, .number text => (readInt text).map fun i => .uint16 (BitVec.ofInt 16 i)
  | .inet, .string s => (readAddress s).map .inet
  | .blob, .hex digits => (readBytes digits).map .blob
  | _, _ => none

def signedTokens (negative : Bool) (word : List Char) : List Token :=
  if negative then [.symbol ['-'], .word word] else [.word word]

def Double.tokens : Double → List Token
  | .number n => [.number n.text]
  | .infinity negative => signedTokens negative ['i', 'n', 'f']
  | .nan negative => signedTokens negative ['n', 'a', 'n']

def DbDataValue.bareTokens : DbDataValue → List Token
  | .double d => d.tokens
  | _ => []

/-- The tokens are one literal that denotes the value. A blank has no token, and a double those of its text. -/
def DbDataValue.Accepts (v : DbDataValue) (tokens : List Token) : Prop :=
  match v.kind with
  | some kind => ∃ t, tokens = [t] ∧ t.read kind = some v
  | none => tokens = v.bareTokens

def DbDataValue.Plain : DbDataValue → Prop
  | .string s => '\'' ∉ s
  | .blob bytes => bytes ≠ []
  | _ => True

instance : DecidablePred DbDataValue.Plain
  | .string s => inferInstanceAs (Decidable ('\'' ∉ s))
  | .blob bytes => inferInstanceAs (Decidable (bytes ≠ []))
  | .blank | .uint64 _ | .uint32 _ | .uuid _ | .uint8 _ | .uint16 _ | .double _ | .inet _ => .isTrue trivial

/-! ### Numbers are one literal -/

variable {rest : List Char}

theorem isDigit_toDigits (n : Nat) : ∀ c ∈ Nat.toDigits 10 n, c.isDigit = true := fun _ inside =>
  Nat.isDigit_of_mem_toDigits (by decide) (by decide) inside

theorem emits_toDigits (n : Nat) (delimited : Delimited rest) :
    Emits scan (Nat.toDigits 10 n) [.number (Nat.toDigits 10 n)] rest := by
  have emits := emits_number Nat.toDigits_ne_nil (isDigit_toDigits n) (.inl rfl) (.inl rfl) delimited
  simpa only [List.append_nil] using emits

theorem emits_intText (i : Int) (delimited : Delimited rest) : Emits scan (intText i) [.number (intText i)] rest := by
  cases i with
  | ofNat n => exact emits_toDigits n delimited
  | negSucc n =>
    have emits := emits_negative Nat.toDigits_ne_nil (isDigit_toDigits (n + 1)) (.inl rfl) (.inl rfl) delimited
    rw [List.append_nil, List.append_nil] at emits
    exact emits

theorem readInt_toDigits (n : Nat) : readInt (Nat.toDigits 10 n) = some (n : Int) := by
  have digits := isDigit_toDigits n
  have read := Radix.read_toDigits (b := 10) (by decide) (by decide) n
  cases text : Nat.toDigits 10 n with
  | nil => exact absurd text Nat.toDigits_ne_nil
  | cons c text' =>
    have plain : c ≠ '-' := by
      rintro rfl
      exact absurd (digits '-' (text ▸ List.mem_cons_self)) (by decide)
    rw [readInt, if_neg plain, ← text, read]
    rfl

theorem readInt_intText (i : Int) : readInt (intText i) = some i := by
  cases i with
  | ofNat n => exact readInt_toDigits n
  | negSucc n =>
    rw [intText, readInt, Radix.read_toDigits (by decide) (by decide)]
    rfl

theorem isFraction_fractionText (fraction : List (Fin 10)) : IsFraction (fractionText fraction) := by
  unfold fractionText
  split
  · exact .inl rfl
  · refine .inr ⟨_, rfl, fun c inside => ?_⟩
    obtain ⟨d, _, rfl⟩ := List.mem_map.mp inside
    have all : ∀ d : Fin 10, (Nat.digitChar d.val).isDigit = true := by decide
    exact all d

theorem isExponent_exponentText (exponent : Option (Bool × Nat)) : IsExponent (exponentText exponent) := by
  cases exponent with
  | none => exact .inl rfl
  | some power =>
    obtain ⟨negative, n⟩ := power
    have digits := isDigit_toDigits n
    obtain ⟨d, ds, text⟩ := List.exists_cons_of_ne_nil (Nat.toDigits_ne_nil)
    have sign : ∀ s, s = (if negative then '-' else '+') → s = '+' ∨ s = '-' := by
      rintro s rfl
      cases negative with
      | false => exact .inl rfl
      | true => exact .inr rfl
    rw [exponentText]
    by_cases small : n < 10
    · rw [if_pos small]
      exact .inr ⟨_, '0', _, rfl, sign _ rfl, List.forall_mem_cons.mpr ⟨by decide, digits⟩⟩
    · rw [if_neg small, text]
      exact .inr ⟨_, d, ds, rfl, sign _ rfl, text ▸ digits⟩

theorem Numeral.emits (n : Numeral) (delimited : Delimited rest) : Emits scan n.text [.number n.text] rest := by
  have fraction := isFraction_fractionText n.fraction
  have exponent := isExponent_exponentText n.exponent
  have whole := isDigit_toDigits n.whole
  unfold Numeral.text
  split
  · exact emits_negative Nat.toDigits_ne_nil whole fraction exponent delimited
  · exact emits_number Nat.toDigits_ne_nil whole fraction exponent delimited

theorem emits_signed {negative : Bool} {c : Char} {w : List Char} (letter : c.isAlpha = true)
    (ident : w.all isIdent = true) (delimited : Delimited rest) :
    Emits scan (signed negative (c :: w)) (signedTokens negative (c :: w)) rest := by
  have word := emits_word letter (List.all_eq_true.mp ident) delimited
  cases negative with
  | false => exact word
  | true =>
    have digit := isDigit_of_isAlpha letter
    have dash : c ≠ '-' := by
      rintro rfl
      exact absurd letter (by decide)
    have minus : Emits scan ['-'] [.symbol ['-']] (c :: w ++ rest) := by
      apply Emits.of_scan scan_shrinks (some (.symbol ['-']))
      rw [List.singleton_append, scan_not_hex (by decide) (by decide) (by decide) (by decide)]
      simp [scanOther, digit, dash]
    exact minus.append word

theorem Double.emits (d : Double) (delimited : Delimited rest) : Emits scan d.text d.tokens rest := by
  cases d with
  | number n => exact n.emits delimited
  | infinity negative | nan negative => exact emits_signed (by decide) (by decide) delimited

/-! ### Uuids -/

theorem uuid_parts (l : List Byte) (sixteen : l.length = 16) :
    (l.drop 0).take 4 ++ ((l.drop 4).take 2 ++ ((l.drop 6).take 2 ++ ((l.drop 8).take 2 ++ (l.drop 10).take 6))) = l := by
  have join : ∀ i n, (l.drop i).take n ++ l.drop (i + n) = l.drop i := fun i n => by
    rw [← List.drop_drop, List.take_append_drop]
  have last : (l.drop 10).take 6 = l.drop 10 := List.take_of_length_le (by rw [List.length_drop]; omega)
  rw [last, join 8 2, join 6 2, join 4 2, join 0 4]
  rfl

theorem hexGroups_uuidText (bytes : Vector Byte 16) (rest : List Char) :
    hexGroups uuidGroups (uuidText bytes ++ rest) = some (Radix.bytes bytes.toList, rest) := by
  have sixteen : bytes.toList.length = 16 := Vector.length_toList
  have length : ∀ i n, i + n ≤ 16 → (uuidPart bytes i n).length = 2 * n := by
    intro i n fits
    rw [uuidPart, length_bytes, List.length_take, List.length_drop]
    omega
  have last : hexGroups [12] _ = _ := hexGroup_span (length 10 6 (by decide)) (isHex_bytes _) rest
  have groups := hexGroups_cons (length 8 2 (by decide)) (isHex_bytes _) last
  have groups := hexGroups_cons (length 6 2 (by decide)) (isHex_bytes _) groups
  have groups := hexGroups_cons (length 4 2 (by decide)) (isHex_bytes _) groups
  have groups := hexGroups_cons (length 0 4 (by decide)) (isHex_bytes _) groups
  have digits : uuidPart bytes 0 4 ++ (uuidPart bytes 4 2 ++ (uuidPart bytes 6 2 ++ (uuidPart bytes 8 2 ++
      uuidPart bytes 10 6))) = Radix.bytes bytes.toList := by
    simp only [uuidPart, ← bytes_append, uuid_parts _ sixteen]
  rw [digits] at groups
  rw [uuidText]
  simp only [List.append_assoc, List.cons_append]
  exact groups

theorem emits_uuidText (bytes : Vector Byte 16) : Emits scan (uuidText bytes) [.uuid (Radix.bytes bytes.toList)] rest := by
  have groups := hexGroups_uuidText bytes rest
  have first : uuidPart bytes 0 4 ≠ [] := by
    intro none
    have length := congrArg List.length none
    rw [uuidPart, length_bytes, List.length_take, List.length_drop, Vector.length_toList] at length
    cases length
  obtain ⟨c, w, text⟩ := List.exists_cons_of_ne_nil first
  have hex : isHex c = true := isHex_bytes _ c (text ▸ List.mem_cons_self)
  rw [uuidText, text] at groups ⊢
  exact emits_uuid hex groups

theorem readUuid_bytes (bytes : Vector Byte 16) : readUuid (Radix.bytes bytes.toList) = some bytes := by
  rw [readUuid, readBytes_bytes, Option.bind_some, dif_pos Vector.length_toList]
  rfl

/-! ### Every plain value is one literal that denotes it -/

theorem not_mem_address {c : Char} (addr : IpAddress) (other : (c == ':' || c == '.' || Radix.isHex c) = false) :
    c ∉ addr.toString := by
  intro inside
  simp only [Bool.or_eq_false_iff, beq_eq_false_iff_ne] at other
  rcases mem_toString inside with colon | dot | hex
  · exact other.1.1 colon
  · exact other.1.2 dot
  · rw [other.2] at hex
    cases hex

theorem read_signed {w : Nat} (n : BitVec w) : (readInt (intText n.toInt)).map (BitVec.ofInt w) = some n := by
  rw [readInt_intText, Option.map_some, BitVec.ofInt_toInt]

theorem read_unsigned {w : Nat} (n : BitVec w) : (readInt (Nat.toDigits 10 n.toNat)).map (BitVec.ofInt w) = some n := by
  rw [readInt_toDigits, Option.map_some, BitVec.ofInt_natCast, BitVec.ofNat_toNat, BitVec.setWidth_eq]

theorem map_literal {w : Nat} {text : List Char} {n : BitVec w} (read : (readInt text).map (BitVec.ofInt w) = some n)
    (value : BitVec w → DbDataValue) : ((readInt text).map fun i => value (BitVec.ofInt w i)) = some (value n) := by
  have both := congrArg (Option.map value) read
  rwa [Option.map_map] at both

section accepts
variable {v : DbDataValue} {kind : Kind} {own own' : List Token}

theorem accepts_literal (known : v.kind = some kind) : v.Accepts own ↔ ∃ t, own = [t] ∧ t.read kind = some v := by
  rw [DbDataValue.Accepts, known]

theorem accepts_bare (bare : v.kind = none) : v.Accepts own ↔ own = v.bareTokens := by
  rw [DbDataValue.Accepts, bare]

theorem width_accepts (first : v.Accepts own) (second : v.Accepts own') : own.length = own'.length := by
  cases known : v.kind with
  | none => rw [(accepts_bare known).mp first, (accepts_bare known).mp second]
  | some kind =>
    obtain ⟨t, rfl, _⟩ := (accepts_literal known).mp first
    obtain ⟨t', rfl, _⟩ := (accepts_literal known).mp second
    rfl

theorem accepts_of_read {t : Token} (known : v.kind = some kind) (read : t.read kind = some v) : v.Accepts [t] :=
  (accepts_literal known).mpr ⟨t, rfl, read⟩

end accepts

theorem value_emits {v : DbDataValue} (plain : v.Plain) (delimited : Delimited rest) :
    ∃ own, v.Accepts own ∧ Emits scan (cassQueryPrinter true v) own rest := by
  cases v with
  | blank => exact ⟨[], rfl, Emits.nil⟩
  | string s =>
    exact ⟨_, accepts_of_read rfl rfl, quotation_string.emits (by decide) plain delimited⟩
  | uint64 n =>
    refine ⟨_, accepts_of_read rfl ?_, emits_intText n.toInt delimited⟩
    exact map_literal (read_signed n) .uint64
  | uint32 n =>
    refine ⟨_, accepts_of_read rfl ?_, emits_intText n.toInt delimited⟩
    exact map_literal (read_signed n) .uint32
  | uuid bytes =>
    refine ⟨_, accepts_of_read rfl ?_, emits_uuidText bytes⟩
    rw [Token.read, readUuid_bytes]
    rfl
  | uint8 n =>
    refine ⟨_, accepts_of_read rfl ?_, emits_toDigits n.toNat delimited⟩
    exact map_literal (read_unsigned n) .uint8
  | uint16 n =>
    refine ⟨_, accepts_of_read rfl ?_, emits_toDigits n.toNat delimited⟩
    exact map_literal (read_unsigned n) .uint16
  | double d => exact ⟨_, rfl, d.emits delimited⟩
  | inet addr =>
    refine ⟨_, accepts_of_read rfl ?_, quotation_string.emits (by decide) (not_mem_address addr (by decide)) delimited⟩
    rw [Token.read, readAddress_toString]
    rfl
  | blob bytes =>
    have text : cassQueryPrinter true (.blob bytes) = '0' :: 'x' :: Radix.bytes bytes := by
      have some_ : (Radix.bytes bytes).length ≠ 0 := by
        rw [length_bytes]
        have := List.length_pos_iff.mpr plain
        omega
      rw [cassQueryPrinter, bytesToHex, if_neg some_]
    refine ⟨_, accepts_of_read rfl ?_, text ▸ emits_hex (isHex_bytes bytes) delimited⟩
    rw [Token.read, readBytes_bytes]
    rfl

theorem value_denied {v : DbDataValue} (loud : ¬ v.Plain) (delimited : Delimited rest) (own others : List Token)
    (accepted : v.Accepts own) : lex scan (cassQueryPrinter true v ++ rest) ≠ some (own ++ others) := by
  cases v with
  | string s =>
    obtain ⟨t, rfl, read⟩ := accepted
    obtain rfl : t = .string s := by
      cases t with
      | string s' =>
        cases read
        rfl
      | _ => cases read
    exact quotation_string.denied (fun _ _ => Token.string.inj) (by decide) (not_not.mp loud) delimited others
  | blob bytes =>
    obtain rfl : bytes = [] := not_not.mp loud
    obtain ⟨t, rfl, read⟩ := accepted
    have emits : Emits scan ['0', 'x', '0', '0'] [.hex ['0', '0']] rest :=
      emits_hex (List.all_eq_true.mp (by decide)) delimited
    intro lexed
    obtain ⟨tokens, _, same⟩ := Option.map_eq_some_iff.mp (emits.symm.trans lexed)
    obtain rfl : .hex ['0', '0'] = t := (List.cons.inj same).1
    exact absurd read (by decide)
  | _ => exact absurd trivial loud

/-! ### Column names -/

def DbDataValue.PlainName : DbDataValue → Prop
  | .string s => '\x22' ∉ s
  | _ => True

instance : DecidablePred DbDataValue.PlainName
  | .string s => inferInstanceAs (Decidable ('\x22' ∉ s))
  | .blank | .uint64 _ | .uint32 _ | .uuid _ | .uint8 _ | .uint16 _ | .double _ | .inet _ | .blob _ => .isTrue trivial

theorem not_mem_of_all {p : Char → Bool} {text : List Char} {d : Char} (other : p d = false)
    (all : ∀ c ∈ text, p c = true) : d ∉ text := by
  intro inside
  rw [all d inside] at other
  cases other

theorem quote_not_mem_toDigits (n : Nat) : '\x22' ∉ Nat.toDigits 10 n :=
  not_mem_of_all (p := Char.isDigit) (by decide) (isDigit_toDigits n)

theorem quote_not_mem_intText (i : Int) : '\x22' ∉ intText i := by
  cases i with
  | ofNat n => exact quote_not_mem_toDigits n
  | negSucc n =>
    rw [intText, List.mem_cons]
    exact not_or.mpr ⟨by decide, quote_not_mem_toDigits (n + 1)⟩

theorem quote_not_mem_double (d : Double) : '\x22' ∉ d.text := by
  cases d with
  | number n =>
    have chars := isNum_of_parts (isDigit_toDigits n.whole) (isFraction_fractionText n.fraction)
      (isExponent_exponentText n.exponent)
    have unsigned := not_mem_of_all (d := '\x22') (by decide) chars
    rw [Double.text, Numeral.text]
    split
    · rw [List.mem_cons]
      exact not_or.mpr ⟨by decide, unsigned⟩
    · exact unsigned
  | infinity negative | nan negative => cases negative <;> decide

theorem quote_not_mem {v : DbDataValue} (plain : v.PlainName) : '\x22' ∉ cassQueryPrinter false v := by
  cases v with
  | blank => decide
  | string s => exact plain
  | uint64 n | uint32 n => exact quote_not_mem_intText _
  | uuid bytes =>
    obtain ⟨front, split, chars, _⟩ := hexGroups_front (hexGroups_uuidText bytes [])
    rw [List.append_nil, List.append_nil] at split
    intro inside
    rcases chars '\x22' (split ▸ inside) with hex | dash
    · exact absurd hex (by decide)
    · exact absurd dash (by decide)
  | uint8 n | uint16 n => exact quote_not_mem_toDigits _
  | double d => exact quote_not_mem_double d
  | inet addr =>
    rw [cassQueryPrinter, List.mem_cons, List.mem_append]
    rintro (quote | inside | quote)
    · exact absurd quote (by decide)
    · exact not_mem_address addr (by decide) inside
    · exact absurd quote (by decide)
  | blob bytes =>
    rw [cassQueryPrinter, bytesToHex, List.mem_cons, List.mem_cons]
    refine not_or.mpr ⟨by decide, not_or.mpr ⟨by decide, ?_⟩⟩
    split
    · decide
    · exact not_mem_of_all (by decide) (isHex_bytes bytes)

end TFCommon.Cql
