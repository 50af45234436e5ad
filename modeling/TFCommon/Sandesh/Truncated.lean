import TFCommon.Sandesh.XmlString

/-! The reading functions of `TXMLProtocol` on input that ends too early. -/
namespace TFCommon.Sandesh.Xml
open Tape LookaheadReader

inductive ReadFn where
  | sandeshBegin (name : List UInt8)
  | sandeshEnd
  | structBegin
  | structEnd
  | containerElementBegin
  | containerElementEnd
  | fieldBegin (field : Field)
  | fieldEnd
  | mapBegin (types : MapTypes)
  | mapEnd
  | listBegin (types : ElemType)
  | listEnd
  | setBegin (types : ElemType)
  | setEnd
  | byte
  | i16
  | i32
  | i64
  | u16
  | u32
  | u64
  | ipv4
  | ipaddr (fromString : List UInt8 → Option (List UInt8))
  | string
  | bool (value : Bool)
  | binary
  | xml
  | uuid (extract : List UInt8 → List UInt8)

/-- A call: `none` while it runs, `some none` when it ends the program, otherwise the value it returns. -/
def ReadFn.call : ReadFn → Nat → LookaheadReader → Option (Option Int)
  | sandeshBegin name, turns, r => (readSandeshBegin turns name r).map Outcome.ret
  | sandeshEnd, turns, r => (readSandeshEnd turns r).map Outcome.ret
  | structBegin, turns, r => (readStructBegin turns r).map Outcome.ret
  | structEnd, turns, r => (readStructEnd turns r).map Outcome.ret
  | containerElementBegin, turns, r => (readContainerElementBegin turns r).map Outcome.ret
  | containerElementEnd, turns, r => (readContainerElementEnd turns r).map Outcome.ret
  | fieldBegin field, turns, r => (readFieldBegin turns field r).map Outcome.ret
  | fieldEnd, turns, r => (readFieldEnd turns r).map Outcome.ret
  | mapBegin types, turns, r => (readMapBegin turns types r).map Outcome.ret
  | mapEnd, turns, r => (readMapEnd turns r).map Outcome.ret
  | listBegin types, turns, r => (readListBegin turns types r).map Outcome.ret
  | listEnd, turns, r => (readListEnd turns r).map Outcome.ret
  | setBegin types, turns, r => (readSetBegin turns types r).map Outcome.ret
  | setEnd, turns, r => (readSetEnd turns r).map Outcome.ret
  | byte, turns, r => (readXMLInteger Int8.ofNat turns r).map Outcome.ret
  | i16, turns, r => (readXMLInteger Int16.ofNat turns r).map Outcome.ret
  | i32, turns, r => (readXMLInteger Int32.ofNat turns r).map Outcome.ret
  | i64, turns, r => (readXMLInteger Int64.ofNat turns r).map Outcome.ret
  | u16, turns, r => (readXMLInteger UInt16.ofNat turns r).map Outcome.ret
  | u32, turns, r => (readXMLInteger UInt32.ofNat turns r).map Outcome.ret
  | u64, turns, r => (readXMLInteger UInt64.ofNat turns r).map Outcome.ret
  | ipv4, turns, r => (readXMLInteger UInt32.ofNat turns r).map Outcome.ret
  | ipaddr fromString, turns, r => (readIPADDR fromString turns r).map Outcome.ret
  | string, turns, r => (readString turns r).map Outcome.ret
  | bool value, turns, r => (readBool value turns r).map Outcome.ret
  | binary, turns, r => (readBinary turns r).map Outcome.ret
  | xml, turns, r => (readXML turns r).map Outcome.ret
  | uuid extract, turns, r => (readUUID extract turns r).map Outcome.ret

inductive Construct where
  | tag
  | endTag
  | field
  | chars
  | number
  | cdata

def ReadFn.construct : ReadFn → Construct
  | sandeshBegin _ | structBegin | containerElementBegin | mapBegin _ | listBegin _ | setBegin _ => .tag
  | sandeshEnd | structEnd | containerElementEnd | fieldEnd | mapEnd | listEnd | setEnd => .endTag
  | fieldBegin _ => .field
  | byte | i16 | i32 | i64 | u16 | u32 | u64 | ipv4 => .number
  | ipaddr _ | string | bool _ | binary | uuid _ => .chars
  | xml => .cdata

/-- The bytes hold the construct to its end. A string and a number end before the first byte that is not theirs. -/
def Construct.Complete (w : List UInt8) : Construct → Prop
  | tag => [tagO] <+: w ∧ tagC ∈ w.drop 1
  | endTag => [tagO, slash] <+: w ∧ tagC ∈ w.drop 2
  | field => [tagO, slash] <+: w ∨ [tagO] <+: w ∧ tagC ∈ w.drop 1
  | chars => tagO ∈ w
  | number => ∃ b ∈ w, isXMLNumeric b = false
  | cdata => cdataO <+: w ∧ cdataC <:+: w.drop cdataO.length

/-- The call returns, with a number of bytes that were there, or a negative number if they do not hold all. -/
def Decoded (call : Nat → LookaheadReader → Option (Option Int)) (w : List UInt8) (complete : Prop) : Prop :=
  ∀ data data2, ∃ ret : Int, Returns (fun turns => call turns (fresh w data data2)) (some ret) ∧
    ret ≤ w.length ∧ (¬ complete → ret < 0)

def Decodes (fn : ReadFn) (w : List UInt8) : Prop := Decoded fn.call w (fn.construct.Complete w)

/-- The construct does not open with the bytes that are there. Where it opens with more than one byte, a byte that is
missing counts: the last one comes again in its place. -/
def Construct.Wrong (w : List UInt8) : Construct → Prop
  | tag | field => w ≠ [] ∧ ¬ [tagO] <+: w
  | endTag => ¬ [tagO, slash] <+: w
  | chars | number => False
  | cdata => ¬ cdataO <+: w

/-- What the tokens of a tag give: whether they are accepted, unless the iterator is read at its end. -/
def verdict {σ : Type} : Except (Stop σ) σ → Option Bool
  | .ok _ => some true
  | .error (.rejected _) => some false
  | .error .aborted => none

def ReadFn.verdict : ReadFn → List UInt8 → Option Bool
  | sandeshBegin name, str => Xml.verdict (parseTag (fun _ token => .ok token) sandeshAttributes name str)
  | fieldBegin field, str =>
    Xml.verdict (parseTag (fun field token => .ok { field with name := token }) fieldAttributes field str)
  | mapBegin types, str => Xml.verdict (parseTag (expect mapName) mapAttributes types str)
  | listBegin types, str => Xml.verdict (parseTag (expect listName) elemAttributes types str)
  | setBegin types, str => Xml.verdict (parseTag (expect setName) elemAttributes types str)
  | _, _ => some true

/-- The iterator over the tokens of the tag that is read stays within them. -/
def ReadFn.Tokens (fn : ReadFn) (w : List UInt8) : Prop :=
  fn.verdict (tagText w 1) ≠ none ∨ (∃ field, fn = fieldBegin field) ∧ [tagO, slash] <+: w

section Calls

def judge (accepts : List UInt8 → Option Bool) : Chars → Option Int
  | (ret, str, _) => if ret < 0 then some ret else (accepts str).map fun ok => if ok then ret else -1

variable {turns : Nat} {r : LookaheadReader}

theorem readTag_ret {endTag : Bool} :
    (readTag turns endTag r).map Outcome.ret = (readXMLTag turns endTag r).map (judge fun _ => some true) := by
  rw [readTag, Option.map_map]
  congr 1
  funext ⟨ret, str, r⟩
  simp [judge, Outcome.ret]

theorem readParsedTag_ret {σ : Type} {parse : σ → List UInt8 → Except (Stop σ) σ} {out : σ} :
    (readParsedTag turns parse out r).map Outcome.ret =
      (readXMLTag turns false r).map (judge fun str => verdict (parse out str)) := by
  rw [readParsedTag, Option.map_map]
  congr 1
  funext ⟨ret, str, r⟩
  by_cases failed : ret < 0
  · simp [judge, Outcome.ret, failed]
  · rcases parsed : parse out str with (_ | _) | _ <;> simp [judge, Outcome.ret, verdict, failed, parsed]

theorem readText_ret {σ : Type} {give : Int → List UInt8 → Int × σ} :
    (readText give turns r).map Outcome.ret = (readXMLString turns r).map fun (ret, str, _) => some (give ret str).1 := by
  rw [readText, Option.map_map]
  rfl

theorem readXMLInteger_ret {ν : Type} {ofNat : Nat → ν} :
    (readXMLInteger ofNat turns r).map Outcome.ret = (readXMLNumericChars turns r).map fun (ret, _, _) => some ret := by
  rw [readXMLInteger, Option.map_map]
  rfl

theorem readXML_ret : (readXML turns r).map Outcome.ret = (readXMLCDATA turns r).map fun (ret, _, _) => some ret := by
  rw [readXML, Option.map_map]
  rfl

end Calls

section Cases
variable {w : List UInt8} {complete : Prop} {call : Nat → LookaheadReader → Option (Option Int)}

theorem decoded_iff {wrong ok : Prop} (fails : wrong → ∀ g d, Returns (fun turns => call turns (fresh w g d)) (some (-1)))
    (found : complete → (Decoded call w complete ↔ ok))
    (never : ¬ wrong → ¬ complete → ∃ g d, ∀ turns, call turns (fresh w g d) = none) :
    Decoded call w complete ↔ wrong ∨ complete ∧ ok := by
  by_cases bad : wrong
  · exact ⟨fun _ => .inl bad, fun _ g d => ⟨-1, fails bad g d, by omega, fun _ => by decide⟩⟩
  · by_cases whole : complete
    · rw [found whole]
      exact ⟨fun fine => .inr ⟨whole, fine⟩, fun cases => (cases.resolve_left bad).2⟩
    · refine ⟨fun decoded => ?_, fun cases => absurd (cases.resolve_left bad).1 whole⟩
      obtain ⟨g, d, runs⟩ := never bad whole
      obtain ⟨ret, ends, _⟩ := decoded g d
      exact absurd ends (not_returns runs _)

theorem tag_judged {accepts : List UInt8 → Option Bool} {str : List UInt8} {size : Nat} (fits : size ≤ w.length)
    (holds : complete)
    (found : ∀ g d, ∃ r, Returns (fun turns => call turns (fresh w g d)) (judge accepts ((size : Int), str, r))) :
    Decoded call w complete ↔ accepts str ≠ none := by
  cases judged : accepts str with
  | none =>
    have aborted : ∀ r, judge accepts ((size : Int), str, r) = none := fun r => by simp [judge, judged]
    refine ⟨fun decoded => ?_, fun impossible => absurd rfl impossible⟩
    obtain ⟨ret, ends, _⟩ := decoded 0 (0, 0)
    obtain ⟨r, other⟩ := found 0 (0, 0)
    have same := ends.unique other
    rw [aborted] at same
    contradiction
  | some ok =>
    have value : ∀ r, judge accepts ((size : Int), str, r) = some (if ok then (size : Int) else -1) := fun r => by
      simp [judge, judged]
    refine ⟨fun _ => Option.some_ne_none ok, fun _ g d => ?_⟩
    obtain ⟨r, ends⟩ := found g d
    rw [value] at ends
    refine ⟨_, ends, ?_, fun incomplete => absurd holds incomplete⟩
    split <;> omega

theorem chars_decoded (ends : UInt8 → Bool) (idle : UInt8) (goes : ends idle = false) (give : Int → List UInt8 → Int)
    (short : ∀ str : List UInt8, give str.length str ≤ str.length) :
    Decoded (fun turns r => (loop (charsTurn ends) turns (0, [], r)).map fun (ret, str, _) => some (give ret str)) w
      (∃ b ∈ w, ends b = true) ↔ False ∨ (∃ b ∈ w, ends b = true) ∧ True := by
  refine decoded_iff (fun wrong => wrong.elim) (fun inside => iff_of_true ?_ trivial)
    (fun _ absent => ⟨idle, (0, 0), fun turns => ?_⟩)
  · intro g d
    obtain ⟨r, found⟩ := chars_found inside
    refine ⟨_, found.map _, Int.le_trans (short _) ?_, fun incomplete => absurd inside incomplete⟩
    exact Int.ofNat_le.mpr (List.takeWhile_prefix _).length_le
  · have never : ∀ n, ¬ ends (tape w idle n) = true := by
      intro n found
      by_cases some_ : w = []
      · rw [some_, tape_nil, goes] at found
        exact absurd found Bool.false_ne_true
      · exact absent ⟨_, tape_mem some_, found⟩
    rw [chars_none never, Option.map_none]

theorem tag_decoded {accepts : List UInt8 → Option Bool} :
    Decoded (fun turns r => (readXMLTag turns false r).map (judge accepts)) w (Construct.tag.Complete w) ↔
      Construct.tag.Wrong w ∨ Construct.tag.Complete w ∧ accepts (tagText w 1) ≠ none := by
  refine decoded_iff ?_ ?_ ?_
  · rintro ⟨some_, differ⟩ g d
    have other : spelled (tape w g) 0 (opening false).length ≠ opening false := by
      cases w with
      | nil => exact absurd rfl some_
      | cons b rest =>
        intro same
        exact differ (List.cons_prefix_cons.mpr ⟨(List.cons.inj same).1.symm, List.nil_prefix⟩)
    obtain ⟨r, failed⟩ := readXMLTag_wrong false other
    exact failed.map (judge accepts)
  · rintro ⟨front, inside⟩
    refine tag_judged (tagText_fits inside) ⟨front, inside⟩ fun g d => ?_
    obtain ⟨r, found⟩ := readXMLTag_found false front inside
    exact ⟨r, found.map (judge accepts)⟩
  · intro right incomplete
    refine ⟨tagO, (0, 0), fun turns => ?_⟩
    suffices runs : readXMLTag turns false (fresh w tagO (0, 0)) = none by rw [runs, Option.map_none]
    by_cases some_ : w = []
    · rw [some_, readXMLTag_opened false (by simp [opening, spelled, tape_nil])]
      exact tag_none (fun n => by rw [tape_nil]; decide) turns
    · have front : [tagO] <+: w := by
        by_contra other
        exact right ⟨some_, other⟩
      exact readXMLTag_runs false front (fun inside => incomplete ⟨front, inside⟩) turns

theorem endTag_decoded :
    Decoded (fun turns r => (readXMLTag turns true r).map (judge fun _ => some true)) w (Construct.endTag.Complete w) ↔
      Construct.endTag.Wrong w ∨ Construct.endTag.Complete w ∧ True := by
  refine decoded_iff ?_ ?_ ?_
  · intro differ g d
    have other : spelled (tape w g) 0 (opening true).length ≠ opening true := mt (spelled_iff (by decide) (by decide)).mp differ
    obtain ⟨r, failed⟩ := readXMLTag_wrong true other
    exact failed.map _
  · rintro ⟨front, inside⟩
    have ends (g : UInt8) (d : UInt8 × UInt8) :
        ∃ r, Returns (fun turns => (readXMLTag turns true (fresh w g d)).map (judge fun _ => some true))
          (judge (fun _ => some true) (((2 + (tagText w 2).length + 1 : Nat) : Int), tagText w 2, r)) := by
      obtain ⟨r, found⟩ := readXMLTag_found true front inside
      exact ⟨r, found.map _⟩
    exact iff_of_true ((tag_judged (tagText_fits inside) ⟨front, inside⟩ ends).mpr (Option.some_ne_none true)) trivial
  · intro right incomplete
    have front : [tagO, slash] <+: w := not_not.mp right
    refine ⟨0, (0, 0), fun turns => ?_⟩
    rw [readXMLTag_runs true front (fun inside => incomplete ⟨front, inside⟩) turns, Option.map_none]

theorem cdata_decoded :
    Decoded (fun turns r => (readXMLCDATA turns r).map fun (ret, _, _) => some ret) w (Construct.cdata.Complete w) ↔
      Construct.cdata.Wrong w ∨ Construct.cdata.Complete w ∧ True := by
  refine decoded_iff ?_ ?_ ?_
  · intro differ g d
    obtain ⟨r, failed⟩ := readXMLCDATA_wrong differ
    exact failed.map _
  · rintro ⟨front, inside⟩
    refine iff_of_true (fun g d => ?_) trivial
    obtain ⟨n, str, r, bound, found⟩ := cdata_found inside
    rw [← funext (readXMLCDATA_opened front)] at found
    exact ⟨_, found.map _, Int.ofNat_le.mpr bound, fun incomplete => absurd ⟨front, inside⟩ incomplete⟩
  · intro right incomplete
    have front : cdataO <+: w := not_not.mp right
    refine ⟨0, (0, 0), fun turns => ?_⟩
    rw [readXMLCDATA_opened front, cdata_none (fun inside => incomplete ⟨front, inside⟩), Option.map_none]

theorem fieldBegin_ret (turns : Nat) (field : Field) (g : UInt8) (d : UInt8 × UInt8) :
    (readFieldBegin turns field (fresh w g d)).map Outcome.ret =
      if (firstTwo w d).1 = tagO ∧ (firstTwo w d).2 = slash then some (some 0)
      else (readXMLTag turns false (loaded w g d)).map (judge (ReadFn.fieldBegin field).verdict) := by
  rw [readFieldBegin_eq]
  split
  · rfl
  · exact readParsedTag_ret

theorem fieldBegin_found {field : Field} (g : UInt8) (d : UInt8 × UInt8) (front : [tagO] <+: w)
    (opens : ¬ [tagO, slash] <+: w) (inside : tagC ∈ w.drop 1) :
    ∃ r, Returns (fun turns => (readFieldBegin turns field (fresh w g d)).map Outcome.ret)
      (judge (ReadFn.fieldBegin field).verdict (((1 + (tagText w 1).length + 1 : Nat) : Int), tagText w 1, r)) := by
  obtain ⟨rest, rfl⟩ := front
  cases rest with
  | nil => exact absurd inside List.not_mem_nil
  | cons b rest =>
    have other : ¬ ((firstTwo (tagO :: b :: rest) d).1 = tagO ∧ (firstTwo (tagO :: b :: rest) d).2 = slash) := by
      rintro ⟨_, same⟩
      obtain rfl : b = slash := same
      exact opens (List.prefix_append [tagO, slash] rest)
    have call (turns : Nat) := (fieldBegin_ret turns field g d).trans (if_neg other)
    obtain ⟨r, found⟩ := loadedTag_found inside
    refine ⟨r, ?_⟩
    rw [List.singleton_append, funext call]
    exact_mod_cast found.map (judge (ReadFn.fieldBegin field).verdict)

theorem fieldBegin_runs {field : Field} (right : ¬ Construct.field.Wrong w) (incomplete : ¬ Construct.field.Complete w)
    (turns : Nat) : (readFieldBegin turns field (fresh w 0 (tagO, 0))).map Outcome.ret = none := by
  have first : (firstTwo w (tagO, 0)).1 = tagO := by
    cases w with
    | nil => rfl
    | cons b rest =>
      by_contra other
      exact right ⟨List.cons_ne_nil b rest, fun front => other (List.cons_prefix_cons.mp front).1.symm⟩
  obtain ⟨opens, goes, absent⟩ : (firstTwo w (tagO, 0)).2 ≠ slash ∧ (firstTwo w (tagO, 0)).2 ≠ tagC ∧ tagC ∉ w.drop 2 := by
    rcases w with _ | ⟨a, _ | ⟨b, rest⟩⟩
    · decide
    · exact ⟨fun same => absurd same (by decide : (0 : UInt8) ≠ slash),
        fun same => absurd same (by decide : (0 : UInt8) ≠ tagC), List.not_mem_nil⟩
    · obtain rfl : a = tagO := first
      have front : [tagO] <+: tagO :: b :: rest := List.prefix_append [tagO] (b :: rest)
      refine ⟨?_, ?_, fun inside => incomplete (.inr ⟨front, List.mem_cons_of_mem b inside⟩)⟩
      · rintro rfl
        exact incomplete (.inl (List.prefix_append [tagO, slash] rest))
      · rintro rfl
        exact incomplete (.inr ⟨front, List.mem_cons_self⟩)
  have never : ∀ n, tape (w.drop 2) 0 n ≠ tagC := by
    intro n found
    by_cases some_ : w.drop 2 = []
    · rw [some_, tape_nil] at found
      exact absurd found (by decide)
    · exact absent (found ▸ tape_mem some_)
  rw [fieldBegin_ret, if_neg fun both => opens both.2, loadedTag_none first goes never, Option.map_none]

theorem field_decoded {field : Field} :
    Decoded (fun turns r => (readFieldBegin turns field r).map Outcome.ret) w (Construct.field.Complete w) ↔
      Construct.field.Wrong w ∨ Construct.field.Complete w ∧
        ((ReadFn.fieldBegin field).verdict (tagText w 1) ≠ none ∨ [tagO, slash] <+: w) := by
  refine decoded_iff ?_ ?_ fun right incomplete => ⟨0, (tagO, 0), fieldBegin_runs right incomplete⟩
  · rintro ⟨some_, differ⟩ g d
    have first : (firstTwo w d).1 ≠ tagO := by
      cases w with
      | nil => exact absurd rfl some_
      | cons b rest => exact fun same => differ (List.cons_prefix_cons.mpr ⟨same.symm, List.nil_prefix⟩)
    obtain ⟨r, failed⟩ := loadedTag_wrong first
    simp only [fieldBegin_ret, if_neg fun both => first (And.left both)]
    exact failed.map _
  · intro whole
    by_cases closes : [tagO, slash] <+: w
    · refine iff_of_true (fun g d => ?_) (.inr closes)
      obtain ⟨rest, rfl⟩ := closes
      refine ⟨0, ⟨0, fun turns _ => ?_⟩, Int.natCast_nonneg _, fun incomplete => absurd whole incomplete⟩
      exact (fieldBegin_ret turns field g d).trans (if_pos ⟨rfl, rfl⟩)
    · obtain ⟨front, inside⟩ := whole.resolve_left closes
      rw [tag_judged (tagText_fits inside) whole fun g d => fieldBegin_found g d front closes inside]
      exact ⟨.inl, fun accepted => accepted.resolve_right closes⟩

end Cases

section Functions
variable {fn : ReadFn} {w : List UInt8}

theorem Tokens.of_verdict (all : ∀ str, fn.verdict str = some true) : fn.Tokens w :=
  .inl (by rw [all]; exact Option.some_ne_none true)

theorem decodes_tag (construct : fn.construct = .tag)
    (call : ∀ turns r, fn.call turns r = (readXMLTag turns false r).map (judge fn.verdict))
    (other : ∀ field, fn ≠ .fieldBegin field) :
    Decodes fn w ↔ fn.construct.Wrong w ∨ fn.construct.Complete w ∧ fn.Tokens w := by
  have tokens : fn.Tokens w ↔ fn.verdict (tagText w 1) ≠ none :=
    ⟨fun inside => inside.resolve_right fun ⟨⟨field, same⟩, _⟩ => other field same, .inl⟩
  rw [tokens, Decodes, construct, funext₂ call]
  exact tag_decoded

theorem decodes_endTag (construct : fn.construct = .endTag)
    (call : ∀ turns r, fn.call turns r = (readXMLTag turns true r).map (judge fun _ => some true))
    (all : ∀ str, fn.verdict str = some true) :
    Decodes fn w ↔ fn.construct.Wrong w ∨ fn.construct.Complete w ∧ fn.Tokens w := by
  rw [iff_true_intro (Tokens.of_verdict all), Decodes, construct, funext₂ call]
  exact endTag_decoded

theorem decodes_number (construct : fn.construct = .number)
    (call : ∀ turns r, fn.call turns r = (readXMLNumericChars turns r).map fun (ret, _, _) => some ret)
    (all : ∀ str, fn.verdict str = some true) :
    Decodes fn w ↔ fn.construct.Wrong w ∨ fn.construct.Complete w ∧ fn.Tokens w := by
  have complete : Construct.number.Complete w = ∃ b ∈ w, (!isXMLNumeric b) = true := by simp [Construct.Complete]
  rw [iff_true_intro (Tokens.of_verdict all), Decodes, construct, funext₂ call, complete]
  exact chars_decoded (fun b => !isXMLNumeric b) 48 (by decide) (fun ret _ => ret) fun _ => Int.le_refl _

theorem decodes_chars {σ : Type} {give : Int → List UInt8 → Int × σ} (construct : fn.construct = .chars)
    (call : ∀ turns r, fn.call turns r = (readText give turns r).map Outcome.ret)
    (short : ∀ str : List UInt8, (give str.length str).1 ≤ str.length) (all : ∀ str, fn.verdict str = some true) :
    Decodes fn w ↔ fn.construct.Wrong w ∨ fn.construct.Complete w ∧ fn.Tokens w := by
  have complete : Construct.chars.Complete w = ∃ b ∈ w, (b == tagO) = true := by simp [Construct.Complete]
  rw [iff_true_intro (Tokens.of_verdict all), Decodes, construct, funext₂ fun turns r => (call turns r).trans readText_ret, complete]
  exact chars_decoded (fun b => b == tagO) 0 (by decide) (fun ret str => (give ret str).1) short

/-- A reading function keeps its contract on the bytes of a buffer if they do not open as its construct does, or hold
the construct to its end and, for a tag, tokens enough. -/
theorem truncated_input_iff (fn : ReadFn) (w : List UInt8) :
    Decodes fn w ↔ fn.construct.Wrong w ∨ fn.construct.Complete w ∧ fn.Tokens w := by
  cases fn with
  | structBegin | containerElementBegin => exact decodes_tag rfl (fun _ _ => readTag_ret) nofun
  | sandeshBegin _ | mapBegin _ | listBegin _ | setBegin _ => exact decodes_tag rfl (fun _ _ => readParsedTag_ret) nofun
  | sandeshEnd | structEnd | containerElementEnd | fieldEnd | mapEnd | listEnd | setEnd =>
    exact decodes_endTag rfl (fun _ _ => readTag_ret) fun _ => rfl
  | byte | i16 | i32 | i64 | u16 | u32 | u64 | ipv4 =>
    exact decodes_number rfl (fun _ _ => readXMLInteger_ret) fun _ => rfl
  | bool value | binary | uuid extract =>
    exact decodes_chars rfl (fun _ _ => rfl) (fun _ => Int.le_refl _) fun _ => rfl
  | string =>
    exact decodes_chars rfl (fun _ _ => rfl) (fun str => Int.ofNat_le.mpr (length_unescape_le str)) fun _ => rfl
  | ipaddr fromString =>
    refine decodes_chars rfl (fun _ _ => rfl) (fun str => ?_) fun _ => rfl
    split <;> omega
  | xml =>
    have call : ReadFn.xml.call = fun turns r => (readXMLCDATA turns r).map fun (ret, _, _) => some ret :=
      funext₂ fun _ _ => readXML_ret
    rw [iff_true_intro (Tokens.of_verdict fun _ => rfl), Decodes, call]
    exact cdata_decoded
  | fieldBegin field =>
    have tokens : (ReadFn.fieldBegin field).Tokens w ↔
        (ReadFn.fieldBegin field).verdict (tagText w 1) ≠ none ∨ [tagO, slash] <+: w :=
      or_congr Iff.rfl (and_iff_right ⟨field, rfl⟩)
    rw [tokens]
    exact field_decoded

end Functions

theorem extractMsgHeader_runs (fields : Int → Nat → LookaheadReader → Option (Outcome Unit)) {w : List UInt8} {g : UInt8}
    {d : UInt8 × UInt8} (front : [tagO] <+: w) (absent : tagC ∉ w.drop 1) (turns : Nat) :
    extractMsgHeader fields turns (fresh w g d) = none := by
  have runs : readStructBegin turns (fresh w g d) = none := by
    rw [readStructBegin, readTag, readXMLTag_runs false front absent, Option.map_none]
  rw [extractMsgHeader, headerRead, runs]
  rfl

/-- Calls that never return on input that ends too early, and one that ends the program on a complete tag. -/
theorem truncated_input_runs_on :
    (∀ turns data data2, ReadFn.structBegin.call turns (fresh [tagO] data data2) = none) ∧
      (∀ turns data data2, ReadFn.structEnd.call turns (fresh [tagO, slash] data data2) = none) ∧
      (∀ turns data data2, ReadFn.string.call turns (fresh (text ['a']) data data2) = none) ∧
      (∀ turns data data2, ReadFn.i32.call turns (fresh (text ['1']) data data2) = none) ∧
      (∀ turns data data2, ReadFn.xml.call turns (fresh cdataO data data2) = none) ∧
      (∀ fields turns data data2, extractMsgHeader fields turns (fresh [tagO] data data2) = none) ∧
      (∀ types data data2, (ReadFn.mapBegin types).call 1 (fresh [tagO, tagC] data data2) = some none) ∧
      ¬ Decodes .structBegin [tagO] := by
  have single (b g : UInt8) (n : Nat) : tape [b] g n = b := List.mem_singleton.mp (tape_mem (List.cons_ne_nil b []))
  have struct (turns : Nat) (data : UInt8) (data2 : UInt8 × UInt8) :
      ReadFn.structBegin.call turns (fresh [tagO] data data2) = none :=
    readTag_ret.trans (congrArg _ (readXMLTag_runs false (List.prefix_refl _) (by decide) turns))
  refine ⟨struct, fun turns g d => ?_, fun turns g d => ?_, fun turns g d => ?_, fun turns g d => ?_,
    fun fields turns g d => ?_, fun types g d => ?_, fun decodes => ?_⟩
  · exact readTag_ret.trans (congrArg _ (readXMLTag_runs true (List.prefix_refl _) (by decide) turns))
  · exact readText_ret.trans (congrArg _ (chars_none (fun n => by rw [text, List.map_singleton, single]; decide) turns))
  · exact readXMLInteger_ret.trans (congrArg _ (chars_none (fun n => by rw [text, List.map_singleton, single]; decide) turns))
  · have runs := readXMLCDATA_opened (g := g) (d := d) (List.prefix_refl cdataO) turns
    rw [cdata_none (by decide)] at runs
    exact readXML_ret.trans (congrArg _ runs)
  · exact extractMsgHeader_runs fields (List.prefix_refl _) (by decide) turns
  · rfl
  · obtain ⟨ret, ends, _⟩ := decodes 0 (0, 0)
    exact not_returns (fun turns => struct turns 0 (0, 0)) _ ends

end TFCommon.Sandesh.Xml
