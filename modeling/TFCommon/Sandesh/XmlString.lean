import TFCommon.Lib.Entity
import TFCommon.Sandesh.Lookahead

/-! Strings that are written and read back. Both languages escape `&` first and undo it first, so that the text of an
entity comes back as the symbol it stands for. -/
namespace TFCommon.Sandesh.Xml
open Replace Entity LookaheadReader

def table : Table UInt8 :=
  [(amp, text ['a', 'm', 'p', ';']), (apos, text ['a', 'p', 'o', 's', ';']), (tagO, text ['l', 't', ';']),
   (tagC, text ['g', 't', ';'])]

theorem replacements_shorter : ∀ entry ∈ replacements amp table, entry.2.length < entry.1.length := by decide

section
variable (str : List UInt8)
include str

theorem unescape_eq : unescapeXMLControlChars str = replaceEach (replacements amp table) str := rfl

theorem length_unescape_le : (unescapeXMLControlChars str).length ≤ str.length :=
  length_replaceEach_le replacements_shorter str

omit str in
theorem table_wellFormed : WellFormed amp 59 table where
  ended := by
    intro entry member
    simp only [table, List.mem_cons, List.not_mem_nil, or_false] at member
    rcases member with rfl | rfl | rfl | rfl
    · exact ⟨text ['a', 'm', 'p'], by decide⟩
    · exact ⟨text ['a', 'p', 'o', 's'], by decide⟩
    · exact ⟨text ['l', 't'], by decide⟩
    · exact ⟨text ['g', 't'], by decide⟩
  plain := by decide +kernel
  distinct := by decide

theorem escape_eq : escapeXMLControlCharsInternal str = encode amp table str := by
  rw [escapeXMLControlCharsInternal]
  congr 1
  funext ch
  by_cases first : ch = amp
  · rw [first]
    rfl
  by_cases second : ch = apos
  · rw [second]
    rfl
  by_cases third : ch = tagO
  · rw [if_pos third, third]
    rfl
  by_cases fourth : ch = tagC
  · rw [if_neg third, if_pos fourth, fourth]
    rfl
  rw [if_neg first, if_neg second, if_neg third, if_neg fourth, table, encodeOne_tail first, encodeOne_tail second,
    encodeOne_tail third, encodeOne_tail fourth]
  rfl

theorem unescape_escape : unescapeXMLControlChars (encode amp table str) = replaceEach (replacements amp table.tail) str := by
  have first := table_wellFormed.replace_amp str
  have rest := table_wellFormed.tail.replaceEach_encode (by decide) str
  exact (congrArg (replaceEach (replacements amp table.tail)) first).trans rest

theorem tagO_not_mem : tagO ∉ encode amp table str :=
  not_mem_encode (tagO, text ['l', 't', ';']) (by decide) (by decide) str

theorem writeString_eq : writeString str = if strpbrk str then encode amp table str else str := by
  rw [writeString, escapeXMLControlChars, escape_eq]

theorem encode_reverse : encode amp table.reverse str = encode amp table str := by
  rw [encode]
  congr 1
  funext ch
  by_cases special : ch = amp ∨ ch = apos ∨ ch = tagO ∨ ch = tagC
  · rcases special with rfl | rfl | rfl | rfl <;> rfl
  · have absent : ∀ entry ∈ table, entry.1 ≠ ch := by
      rintro entry member rfl
      exact special (by revert entry; decide)
    rw [encodeOne_plain absent, encodeOne_plain fun entry member => absent entry (List.mem_reverse.mp member)]

end

namespace Python

theorem writeString_eq (str : List UInt8) : writeString str = encode amp table str := by
  rw [writeString]
  split
  · have first : replaceAll [amp] ampEntity str = encode amp (table.take 1).reverse str :=
      (congrArg _ encode_nil_table.symm).trans (encode_add (by decide) (by decide) str)
    have second : replaceAll [apos] aposEntity (encode amp (table.take 1).reverse str) = encode amp (table.take 2).reverse str :=
      encode_add (by decide) (by decide) str
    have third : replaceAll [tagO] ltEntity (encode amp (table.take 2).reverse str) = encode amp (table.take 3).reverse str :=
      encode_add (by decide) (by decide) str
    have fourth : replaceAll [tagC] gtEntity (encode amp (table.take 3).reverse str) = encode amp table.reverse str :=
      encode_add (by decide) (by decide) str
    dsimp only
    rw [first, second, third, fourth, encode_reverse]
  · rename_i plain
    refine (encode_plain fun ch inside entry member => ?_).symm
    rintro rfl
    have special : ∀ entry ∈ table,
        (entry.1 == tagO || entry.1 == tagC || entry.1 == amp || entry.1 == apos || entry.1 == 34) = true := by decide
    exact plain (List.any_eq_true.mpr ⟨entry.1, inside, special entry member⟩)

end Python

/-- Reading back gives the string, whatever follows the closing tag and whatever the buffers held, and no bare `<` of
it was written. -/
structure Faithful (s : List UInt8) : Prop where
  cpp : ∀ rest data data2, ∃ r,
    Returns (fun turns => readString turns (fresh (writeString s ++ tagO :: slash :: rest) data data2)) (.returned s.length s r)
  cppEscaped : tagO ∉ writeString s
  python : ∀ rest, Python.readString (Python.writeString s ++ tagO :: slash :: rest) = ((s.length : Int), some s)
  pythonEscaped : tagO ∉ Python.writeString s

section Reading
variable {s : List UInt8}

theorem takeWhile_tagO (absent : tagO ∉ s) (rest : List UInt8) : ((s ++ tagO :: rest).takeWhile fun b => !b == tagO) = s := by
  have kept : ∀ b ∈ s, (!b == tagO) = true := by
    intro b inside
    have other : b ≠ tagO := fun same => absent (same ▸ inside)
    simp [other]
  rw [List.takeWhile_append_of_pos kept]
  simp

theorem readString_returns (absent : tagO ∉ s) (rest : List UInt8) (g : UInt8) (d : UInt8 × UInt8) :
    ∃ r, Returns (fun turns => readString turns (fresh (s ++ tagO :: rest) g d))
      (.returned (unescapeXMLControlChars s).length (unescapeXMLControlChars s) r) := by
  have ends : ∃ b ∈ s ++ tagO :: rest, (b == tagO) = true :=
    ⟨tagO, List.mem_append_right s List.mem_cons_self, beq_self_eq_true tagO⟩
  obtain ⟨r, found⟩ := chars_found ends
  rw [takeWhile_tagO absent] at found
  exact ⟨r, found.map _⟩

theorem Python.readString_eq (absent : tagO ∉ s) (rest : List UInt8) :
    Python.readString (s ++ tagO :: rest) =
      (((unescapeXMLControlChars s).length : Int), some (unescapeXMLControlChars s)) := by
  have value : Python.readXMLValue (s ++ tagO :: rest) = some (s, s.length) := by
    rw [Python.readXMLValue, if_pos (List.mem_append_right s List.mem_cons_self)]
    have text := takeWhile_tagO absent rest
    exact congrArg (fun value => some (value, value.length)) text
  rw [Python.readString, value]
  rfl

theorem faithful_iff :
    Faithful s ↔ tagO ∉ writeString s ∧ unescapeXMLControlChars (writeString s) = s ∧
      unescapeXMLControlChars (encode amp table s) = s := by
  constructor
  · intro faithful
    obtain ⟨r, back⟩ := faithful.cpp [] 0 (0, 0)
    obtain ⟨r', read⟩ := readString_returns faithful.cppEscaped [slash] 0 (0, 0)
    have python := faithful.python []
    rw [Python.readString_eq faithful.pythonEscaped, Python.writeString_eq] at python
    exact ⟨faithful.cppEscaped, (Outcome.returned.inj (read.unique back)).2.1, Option.some.inj (Prod.mk.inj python).2⟩
  · rintro ⟨escaped, back, python⟩
    refine ⟨fun rest g d => ?_, escaped, fun rest => ?_, ?_⟩
    · obtain ⟨r, read⟩ := readString_returns escaped (slash :: rest) g d
      rw [back] at read
      exact ⟨r, read⟩
    · rw [Python.writeString_eq, Python.readString_eq (tagO_not_mem s), python]
    · rw [Python.writeString_eq]
      exact tagO_not_mem s

end Reading

/-- Strings come back unless they hold the text of an entity. `strpbrk` misses what is behind a NUL; a string without an
escape before it must hold no `<` and no entity at all. -/
theorem string_round_trip_iff (s : List UInt8) :
    Faithful s ↔
      (¬ aposEntity <:+: s ∧ ¬ ltEntity <:+: s ∧ ¬ gtEntity <:+: s) ∧
        (strpbrk s = true ∨ tagO ∉ s ∧ ¬ ampEntity <:+: s) := by
  have three : unescapeXMLControlChars (encode amp table s) = s ↔
      ¬ aposEntity <:+: s ∧ ¬ ltEntity <:+: s ∧ ¬ gtEntity <:+: s := by
    have entries : replacements amp table.tail = [(aposEntity, [apos]), (ltEntity, [tagO]), (gtEntity, [tagC])] := rfl
    rw [unescape_escape, replaceEach_eq_self (by decide), entries]
    simp
  have four : unescapeXMLControlChars s = s ↔
      ¬ ampEntity <:+: s ∧ ¬ aposEntity <:+: s ∧ ¬ ltEntity <:+: s ∧ ¬ gtEntity <:+: s := by
    have entries : replacements amp table =
      [(ampEntity, [amp]), (aposEntity, [apos]), (ltEntity, [tagO]), (gtEntity, [tagC])] := rfl
    rw [unescape_eq, replaceEach_eq_self replacements_shorter, entries]
    simp
  rw [faithful_iff, three, writeString_eq]
  by_cases special : strpbrk s = true
  · rw [if_pos special, three]
    exact ⟨fun ⟨_, _, clean⟩ => ⟨clean, .inl special⟩, fun ⟨clean, _⟩ => ⟨tagO_not_mem s, clean, clean⟩⟩
  · rw [if_neg special, four]
    constructor
    · rintro ⟨escaped, ⟨plain, _⟩, clean⟩
      exact ⟨clean, .inr ⟨escaped, plain⟩⟩
    · rintro ⟨clean, before | ⟨escaped, plain⟩⟩
      · exact absurd before special
      · exact ⟨escaped, ⟨plain, clean⟩, clean⟩

/-- The string `&lt;` comes back as `<` in both languages; a `<` behind a NUL is written as it is. -/
theorem entity_text_lost :
    writeString (text ['&', 'l', 't', ';']) = text ['&', 'a', 'm', 'p', ';', 'l', 't', ';'] ∧
      (readString 9 (fresh (writeString (text ['&', 'l', 't', ';']) ++ [tagO, slash]) 0 (0, 0))).map Outcome.ret = some (some 1) ∧
      Python.readString (Python.writeString (text ['&', 'l', 't', ';']) ++ [tagO, slash]) = (1, some [tagO]) ∧
      writeString [0, tagO] = [0, tagO] ∧ ¬ Faithful (text ['&', 'l', 't', ';']) ∧ ¬ Faithful [0, tagO] := by
  refine ⟨by decide, by decide, by decide, by decide, fun faithful => ?_, fun faithful => ?_⟩
  · have back := faithful.python []
    exact absurd back (by decide)
  · exact absurd faithful.cppEscaped (by decide)

end TFCommon.Sandesh.Xml
