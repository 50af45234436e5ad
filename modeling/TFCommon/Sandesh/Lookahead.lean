import TFCommon.Lib.Tape
import TFCommon.Sandesh.Xml

/-! What the loops of `TXMLProtocol` read. The look-ahead reader gives the bytes of its input and then, for the end of
the input is not looked at, the last of them again and again. Each loop is a search on that tape. -/
namespace TFCommon.Sandesh.Xml
open Tape

namespace LookaheadReader

def after (w : List UInt8) (g : UInt8) (d : UInt8 × UInt8) (n : Nat) : LookaheadReader :=
  { input := w.drop n, data := last w g n, data2 := d }

def peeked (w : List UInt8) (g : UInt8) (d : UInt8 × UInt8) (n : Nat) : LookaheadReader :=
  { after w g d (n + 1) with hasData := true }

variable {w : List UInt8} {g : UInt8} {d : UInt8 × UInt8} {n : Nat}

theorem fresh_eq_after : fresh w g d = after w g d 0 := rfl

theorem readAll1_after : (after w g d n).readAll1 = after w g d (n + 1) := by
  by_cases inside : n < w.length
  · have rest := List.drop_eq_getElem_cons inside
    simp only [readAll1, after, rest, last, List.getElem?_eq_getElem inside, Option.getD_some]
  · have over_ : w.length ≤ n := Nat.le_of_not_lt inside
    simp only [readAll1, after, last, List.drop_eq_nil_of_le over_, List.drop_eq_nil_of_le (Nat.le_succ_of_le over_),
      List.getElem?_eq_none over_, Option.getD_none]

theorem read_after : (after w g d n).read = (tape w g n, after w g d (n + 1)) := by
  have next : (after w g d n).read = ((after w g d n).readAll1.data, (after w g d n).readAll1) := rfl
  rw [next, readAll1_after]
  rfl

theorem peek_after : (after w g d n).peek = (tape w g n, peeked w g d n) := by
  have next : (after w g d n).peek =
    ((after w g d n).readAll1.data, { (after w g d n).readAll1 with hasData := true }) := rfl
  rw [next, readAll1_after]
  rfl

end LookaheadReader

open LookaheadReader

variable {w : List UInt8} {g : UInt8} {d : UInt8 × UInt8}

section Chars
variable {ends : UInt8 → Bool}

def charsPlace (w : List UInt8) (g : UInt8) (d : UInt8 × UInt8) (n : Nat) : Chars :=
  (n, spelled (tape w g) 0 n, after w g d n)

theorem charsTurn_stay (n : Nat) (other : ¬ ends (tape w g n) = true) :
    charsTurn ends (charsPlace w g d n) = some (.again (charsPlace w g d (n + 1))) := by
  simp only [charsPlace, charsTurn, peek_after, if_neg other, spelled_succ, Nat.zero_add]
  rfl

theorem charsTurn_leave (n : Nat) (here : ends (tape w g n) = true) :
    charsTurn ends (charsPlace w g d n) = some (.exit (n, spelled (tape w g) 0 n, peeked w g d n)) := by
  simp only [charsPlace, charsTurn, peek_after, if_pos here]

theorem chars_found (inside : ∃ b ∈ w, ends b = true) :
    ∃ r, Returns (fun turns => loop (charsTurn ends) turns (0, [], fresh w g d))
      ((w.takeWhile fun b => !ends b).length, w.takeWhile fun b => !ends b, r) := by
  obtain ⟨n, bound, here, first, text⟩ := search_first (g := g) (k := 0) ends inside
  simp only [Nat.zero_add, List.drop_zero] at bound here first text
  have size : (w.takeWhile fun b => !ends b).length = n := by
    rw [← text, spelled_tape (by omega), List.length_take, List.drop_zero]
    omega
  refine ⟨peeked w g d n, ?_⟩
  rw [size, ← text]
  exact loop_search _ _ _ charsTurn_leave charsTurn_stay here first

theorem chars_none (never : ∀ n, ¬ ends (tape w g n) = true) (turns : Nat) :
    loop (charsTurn ends) turns (0, [], fresh w g d) = none :=
  loop_none (charsPlace w g d) (fun n => charsTurn_stay n (never n)) 0 turns

end Chars

section Syntax
variable {k n : Nat}

theorem readSyntaxChar_after (ch : UInt8) :
    readSyntaxChar (after w g d k) ch = (if tape w g k = ch then 1 else -1, after w g d (k + 1)) := by
  by_cases here : tape w g k = ch <;> simp [readSyntaxChar, read_after, here]

theorem readSyntaxString_match {o : List UInt8} (result : Int) (same : spelled (tape w g) k o.length = o) :
    readSyntaxString result (after w g d k) o = (result + o.length, after w g d (k + o.length)) := by
  induction o generalizing k result with
  | nil => simp [readSyntaxString]
  | cons ch o ih =>
    obtain ⟨here, later⟩ := List.cons.inj same
    have rest := ih (result + 1) later
    simp only [readSyntaxString, readSyntaxChar_after, if_pos here, rest, List.length_cons]
    have size : k + 1 + o.length = k + (o.length + 1) := by omega
    rw [size]
    push_cast
    rw [Int.add_assoc, Int.add_comm 1]

theorem readSyntaxString_differ {o : List UInt8} (result : Int) (differ : spelled (tape w g) k o.length ≠ o) :
    ∃ r, readSyntaxString result (after w g d k) o = (-1, r) := by
  induction o generalizing k result with
  | nil => exact absurd rfl differ
  | cons ch o ih =>
    by_cases here : tape w g k = ch
    · have later : spelled (tape w g) (k + 1) o.length ≠ o := by
        intro same
        exact differ (by rw [List.length_cons, spelled, here, same])
      obtain ⟨r, rest⟩ := ih (result + 1) later
      exact ⟨r, by simp only [readSyntaxString, readSyntaxChar_after, if_pos here, rest]; rfl⟩
    · exact ⟨_, by simp only [readSyntaxString, readSyntaxChar_after, if_neg here]; rfl⟩

def opening (endTag : Bool) : List UInt8 := if endTag then [tagO, slash] else [tagO]

theorem readXMLTag_eq (turns : Nat) (endTag : Bool) (r : LookaheadReader) :
    readXMLTag turns endTag r =
      if (readSyntaxString 0 r (opening endTag)).1 < 0 then
        some ((readSyntaxString 0 r (opening endTag)).1, [], (readSyntaxString 0 r (opening endTag)).2)
      else loop tagTurn turns ((readSyntaxString 0 r (opening endTag)).1, [], (readSyntaxString 0 r (opening endTag)).2) := by
  by_cases first : (readSyntaxChar r tagO).1 < 0
  · cases endTag <;> simp [readXMLTag, opening, readSyntaxString, first]
  · cases endTag with
    | false => simp [readXMLTag, opening, readSyntaxString, first]
    | true =>
      by_cases second : (readSyntaxChar (readSyntaxChar r tagO).2 slash).1 < 0
      · simp [readXMLTag, opening, readSyntaxString, first, second]
      · have both : ¬ (readSyntaxChar r tagO).1 + (readSyntaxChar (readSyntaxChar r tagO).2 slash).1 < 0 := by omega
        simp [readXMLTag, opening, readSyntaxString, first, second, both]

def tagPlace (w : List UInt8) (g : UInt8) (d : UInt8 × UInt8) (k : Nat) (result : Int) (str : List UInt8) (n : Nat) : Chars :=
  (result + n, str ++ spelled (tape w g) k n, after w g d (k + n))

variable {result : Int} {str : List UInt8}

theorem tagTurn_stay (n : Nat) (other : ¬ (tape w g (k + n) == tagC) = true) :
    tagTurn (tagPlace w g d k result str n) = some (.again (tagPlace w g d k result str (n + 1))) := by
  have differs : tape w g (k + n) ≠ tagC := fun same => other (beq_iff_eq.mpr same)
  simp only [tagPlace, tagTurn, read_after, if_neg differs, spelled_succ, List.append_assoc, Int.add_assoc]
  rfl

theorem tagTurn_leave (n : Nat) (here : (tape w g (k + n) == tagC) = true) :
    tagTurn (tagPlace w g d k result str n) =
      some (.exit (result + n + 1, str ++ spelled (tape w g) k n, after w g d (k + n + 1))) := by
  simp only [tagPlace, tagTurn, read_after, if_pos (beq_iff_eq.mp here)]

theorem tagPlace_zero : tagPlace w g d k result str 0 = (result, str, after w g d k) := by
  simp [tagPlace, spelled]

theorem tag_found (result : Int) (str : List UInt8) (inside : tagC ∈ w.drop k) :
    ∃ r, Returns (fun turns => loop tagTurn turns (result, str, after w g d k))
      (result + ((w.drop k).takeWhile fun b => !b == tagC).length + 1, str ++ (w.drop k).takeWhile fun b => !b == tagC, r) := by
  obtain ⟨n, bound, here, first, text⟩ := search_first (g := g) (fun b => b == tagC) ⟨tagC, inside, beq_self_eq_true _⟩
  have size : ((w.drop k).takeWhile fun b => !b == tagC).length = n := by
    rw [← text, spelled_tape (by omega), List.length_take, List.length_drop]
    omega
  refine ⟨after w g d (k + n + 1), ?_⟩
  rw [size, ← text, ← tagPlace_zero]
  exact loop_search _ _ _ tagTurn_leave tagTurn_stay here first

theorem tag_none (never : ∀ n, tape w g (k + n) ≠ tagC) (turns : Nat) :
    loop tagTurn turns (result, str, after w g d k) = none := by
  rw [← tagPlace_zero]
  exact loop_none _ (fun n => tagTurn_stay n fun here => never n (beq_iff_eq.mp here)) 0 turns

variable (e : Bool)

theorem readXMLTag_wrong (differ : spelled (tape w g) 0 (opening e).length ≠ opening e) :
    ∃ r, Returns (fun turns => readXMLTag turns e (fresh w g d)) (-1, [], r) := by
  obtain ⟨r, wrong⟩ := readSyntaxString_differ (d := d) 0 differ
  refine ⟨r, 0, fun turns _ => ?_⟩
  simp only [readXMLTag_eq, fresh_eq_after, wrong]
  rfl

theorem readXMLTag_opened (same : spelled (tape w g) 0 (opening e).length = opening e) (turns : Nat) :
    readXMLTag turns e (fresh w g d) = loop tagTurn turns ((opening e).length, [], after w g d (opening e).length) := by
  have opened := readSyntaxString_match (d := d) 0 same
  simp only [readXMLTag_eq, fresh_eq_after, opened, Int.zero_add, Nat.zero_add]
  exact if_neg (by omega)

def tagText (w : List UInt8) (k : Nat) : List UInt8 := (w.drop k).takeWhile fun b => !b == tagC

theorem tagText_fits (inside : tagC ∈ w.drop k) : k + (tagText w k).length + 1 ≤ w.length := by
  have less : (tagText w k).length < (w.drop k).length := by
    rw [tagText, List.takeWhile_eq_take_findIdx_not, List.length_take]
    simp only [Bool.not_not]
    have bound := List.findIdx_lt_length_of_exists (p := fun b => b == tagC) ⟨tagC, inside, beq_self_eq_true tagC⟩
    omega
  rw [List.length_drop] at less
  omega

theorem readXMLTag_found (front : opening e <+: w) (inside : tagC ∈ w.drop (opening e).length) :
    ∃ r, Returns (fun turns => readXMLTag turns e (fresh w g d))
      ((((opening e).length + (tagText w (opening e).length).length + 1 : Nat) : Int), tagText w (opening e).length, r) := by
  obtain ⟨r, found⟩ := tag_found (opening e).length [] inside
  refine ⟨r, ?_⟩
  rw [funext (readXMLTag_opened e (spelled_front front))]
  exact_mod_cast found

theorem readXMLTag_runs (front : opening e <+: w) (absent : tagC ∉ w.drop (opening e).length) (turns : Nat) :
    readXMLTag turns e (fresh w g d) = none := by
  have bytes : w.take (opening e).length = opening e := (List.prefix_iff_eq_take.mp front).symm
  have before : ∀ b ∈ w.take (opening e).length, (b == tagC) = false := by
    rw [bytes]
    cases e <;> decide +kernel
  have some_ : w ≠ [] := by
    rintro rfl
    cases e <;> exact absurd front.length_le (by decide)
  rw [readXMLTag_opened e (spelled_front front)]
  refine tag_none (fun n found => ?_) turns
  obtain ⟨b, inside, same⟩ := (search_iff (fun b => b == tagC) some_ before).mp ⟨n, beq_iff_eq.mpr found⟩
  exact absent (beq_iff_eq.mp same ▸ inside)

end Syntax

section CDataLoop
variable {k n : Nat}

def cdataAt (w : List UInt8) (g : UInt8) (d : UInt8 × UInt8) (k n h : Nat) : CData where
  result := ((k + n + h : Nat) : Int)
  str := spelled (tape w g) k n
  ch := if 0 < h then some (tape w g (k + n)) else none
  ch2 := if 1 < h then some (tape w g (k + n + 1)) else none
  ch3 := none
  reader := after w g d (k + n + h)

theorem fetch_next (m h i : Nat) :
    fetch (if i < h then some (tape w g (m + i)) else none) ((m + max h i : Nat) : Int) (after w g d (m + max h i)) =
      (tape w g (m + i), ((m + max h (i + 1) : Nat) : Int), after w g d (m + max h (i + 1))) := by
  by_cases held : i < h
  · rw [if_pos held, max_eq_left (Nat.le_of_lt held), max_eq_left held]
    rfl
  · rw [if_neg held, max_eq_right (by omega), max_eq_right (by omega)]
    simp only [fetch, peek_after]
    rfl

theorem cdataTurn_eq {h : Nat} (small : h ≤ 2) (held : h = 2 → tape w g (k + n) = sBracketC) :
    cdataTurn (cdataAt w g d k n h) =
      if tape w g (k + n) = sBracketC then
        if tape w g (k + n + 1) = sBracketC then
          if tape w g (k + n + 2) = tagC then
            some (.exit (((k + n + 3 : Nat) : Int), spelled (tape w g) k n, after w g d (k + n + 3)))
          else some (.again (cdataAt w g d k (n + 1) 2))
        else some (.again (cdataAt w g d k (n + 1) 1))
      else some (.again (cdataAt w g d k (n + 1) 0)) := by
  have one := fetch_next (w := w) (g := g) (d := d) (k + n) h 0
  have two := fetch_next (w := w) (g := g) (d := d) (k + n) h 1
  have three := fetch_next (w := w) (g := g) (d := d) (k + n) h 2
  have ahead : max h (2 + 1) = 3 := max_eq_right (by omega)
  rw [if_neg (by omega), max_eq_right small, ahead] at three
  rw [max_eq_right small] at two
  rw [Nat.max_zero, Nat.add_zero] at one
  simp only [cdataTurn, cdataAt, one, two, three, spelled_succ]
  by_cases first : tape w g (k + n) = sBracketC
  · simp only [if_pos first]
    rfl
  · have alone : h ≤ 1 := Nat.le_of_lt_succ (Nat.lt_of_le_of_ne small fun two => first (held two))
    have next : max h (0 + 1) = 1 := max_eq_right alone
    simp only [next, if_neg (Nat.not_lt_of_le alone)]
    rfl

def held (t : Nat → UInt8) (k : Nat) : Nat → Nat
  | 0 => 0
  | n + 1 => if t (k + n) = sBracketC then if t (k + n + 1) = sBracketC then 2 else 1 else 0

theorem held_spec (t : Nat → UInt8) (k n : Nat) : held t k n ≤ 2 ∧ (held t k n = 2 → t (k + n) = sBracketC) := by
  cases n with
  | zero => exact ⟨Nat.zero_le 2, nofun⟩
  | succ n =>
    rw [held]
    split
    · split
      · rename_i second
        exact ⟨Nat.le_refl 2, fun _ => second⟩
      · exact ⟨Nat.le_succ 1, nofun⟩
    · exact ⟨Nat.zero_le 2, nofun⟩

theorem spelled_cdataC (t : Nat → UInt8) (m : Nat) :
    spelled t m 3 = cdataC ↔ t m = sBracketC ∧ t (m + 1) = sBracketC ∧ t (m + 2) = tagC := by
  simp [spelled, cdataC]

theorem cdataTurn_stay (n : Nat) (other : ¬ spelled (tape w g) (k + n) 3 = cdataC) :
    cdataTurn (cdataAt w g d k n (held (tape w g) k n)) =
      some (.again (cdataAt w g d k (n + 1) (held (tape w g) k (n + 1)))) := by
  obtain ⟨small, full⟩ := held_spec (tape w g) k n
  rw [spelled_cdataC] at other
  rw [cdataTurn_eq small full]
  by_cases first : tape w g (k + n) = sBracketC
  · by_cases second : tape w g (k + n + 1) = sBracketC
    · have third : ¬ tape w g (k + n + 2) = tagC := fun third => other ⟨first, second, third⟩
      simp only [held, if_pos first, if_pos second, if_neg third]
    · simp only [held, if_pos first, if_neg second]
  · simp only [held, if_neg first]

theorem cdataTurn_leave (n : Nat) (here : spelled (tape w g) (k + n) 3 = cdataC) :
    cdataTurn (cdataAt w g d k n (held (tape w g) k n)) =
      some (.exit (((k + n + 3 : Nat) : Int), spelled (tape w g) k n, after w g d (k + n + 3))) := by
  obtain ⟨small, full⟩ := held_spec (tape w g) k n
  obtain ⟨first, second, third⟩ := (spelled_cdataC _ _).mp here
  rw [cdataTurn_eq small full, if_pos first, if_pos second, if_pos third]

theorem cdata_found (inside : cdataC <:+: w.drop k) : ∃ n str r, k + n + 3 ≤ w.length ∧
    Returns (fun turns => loop cdataTurn turns ⟨k, [], none, none, none, after w g d k⟩) (((k + n + 3 : Nat) : Int), str, r) := by
  have occurs : ∃ n, spelled (tape w g) (k + n) 3 = cdataC := spelled_of_infix inside (List.cons_ne_nil _ _)
  have here := Nat.find_spec occurs
  have bound := spelled_inside (o := [sBracketC]) (by decide) here
  have search := loop_search (fun n => cdataAt w g d k n (held (tape w g) k n)) _
    (fun n => spelled (tape w g) (k + n) 3 = cdataC) cdataTurn_leave cdataTurn_stay here fun m => Nat.find_min occurs
  exact ⟨Nat.find occurs, _, _, bound, search⟩

theorem cdata_none (absent : ¬ cdataC <:+: w.drop k) (turns : Nat) :
    loop cdataTurn turns ⟨k, [], none, none, none, after w g d k⟩ = none := by
  have never : ∀ n, ¬ spelled (tape w g) (k + n) 3 = cdataC := fun n here =>
    absent (infix_of_spelled (o := [sBracketC]) (by decide) here)
  exact loop_none (fun n => cdataAt w g d k n (held (tape w g) k n)) (fun n => cdataTurn_stay n (never n)) 0 turns

theorem cdataO_spelled : spelled (tape w g) 0 cdataO.length = cdataO ↔ cdataO <+: w := spelled_iff (by decide) (by decide)

theorem readXMLCDATA_wrong (differ : ¬ cdataO <+: w) :
    ∃ r, Returns (fun turns => readXMLCDATA turns (fresh w g d)) (-1, [], r) := by
  obtain ⟨r, wrong⟩ := readSyntaxString_differ (g := g) (d := d) 0 (mt cdataO_spelled.mp differ)
  refine ⟨r, 0, fun turns _ => ?_⟩
  simp only [readXMLCDATA, fresh_eq_after, wrong]
  rfl

theorem readXMLCDATA_opened (front : cdataO <+: w) (turns : Nat) :
    readXMLCDATA turns (fresh w g d) =
      loop cdataTurn turns ⟨cdataO.length, [], none, none, none, after w g d cdataO.length⟩ := by
  have opened := readSyntaxString_match (g := g) (d := d) 0 (cdataO_spelled.mpr front)
  simp only [readXMLCDATA, fresh_eq_after, opened, Nat.zero_add]
  exact if_neg (by omega)

end CDataLoop

section Field

def firstTwo (w : List UInt8) (d : UInt8 × UInt8) : UInt8 × UInt8 := (w[0]?.getD d.1, w[1]?.getD d.2)

def loaded (w : List UInt8) (g : UInt8) (d : UInt8 × UInt8) : LookaheadReader :=
  { input := w.drop 2, data := g, data2 := firstTwo w d, has2Data := true }

theorem peek2_fresh : (fresh w g d).peek2 = ((firstTwo w d).1, loaded w g d) := by
  rcases w with _ | ⟨a, _ | ⟨b, rest⟩⟩ <;> rfl

theorem peek2_loaded : (loaded w g d).peek2 = ((firstTwo w d).2, loaded w g d) := rfl

theorem readFieldBegin_eq (turns : Nat) (field : Field) :
    readFieldBegin turns field (fresh w g d) =
      if (firstTwo w d).1 = tagO ∧ (firstTwo w d).2 = slash then
        some (.returned 0 { field with fieldType := .stop } (loaded w g d))
      else
        readParsedTag turns (parseTag (fun field token => .ok { field with name := token }) fieldAttributes) field
          (loaded w g d) := by
  simp only [readFieldBegin, peek2_fresh, peek2_loaded]

theorem loadedTag_wrong (differ : (firstTwo w d).1 ≠ tagO) :
    ∃ r, Returns (fun turns => readXMLTag turns false (loaded w g d)) (-1, [], r) := by
  refine ⟨(loaded w g d).read.2, 0, fun turns _ => ?_⟩
  simp [readXMLTag, readSyntaxChar, LookaheadReader.read, loaded, differ]

def halfRead (w : List UInt8) (g : UInt8) (d : UInt8 × UInt8) : LookaheadReader :=
  { input := w.drop 2, data := g, data2 := firstTwo w d, has2Data := true, firstRead := true }

theorem loadedTag_opened (same : (firstTwo w d).1 = tagO) (turns : Nat) :
    readXMLTag turns false (loaded w g d) = loop tagTurn turns (1, [], halfRead w g d) := by
  simp [readXMLTag, readSyntaxChar, LookaheadReader.read, loaded, halfRead, same]

theorem tagTurn_halfRead :
    tagTurn (1, [], halfRead w g d) =
      if (firstTwo w d).2 = tagC then some (.exit (2, [], after (w.drop 2) g (firstTwo w d) 0))
      else some (.again (2, [(firstTwo w d).2], after (w.drop 2) g (firstTwo w d) 0)) := rfl

theorem loadedTag_found {rest : List UInt8} (inside : tagC ∈ rest) :
    ∃ r, Returns (fun turns => readXMLTag turns false (loaded (tagO :: rest) g d))
      (1 + (rest.takeWhile fun b => !b == tagC).length + 1, rest.takeWhile fun b => !b == tagC, r) := by
  cases rest with
  | nil => exact absurd inside List.not_mem_nil
  | cons b rest =>
    have turn := tagTurn_halfRead (w := tagO :: b :: rest) (g := g) (d := d)
    by_cases ends : b = tagC
    · have text : (b :: rest).takeWhile (fun b => !b == tagC) = [] := by simp [ends]
      rw [text]
      exact ⟨_, Returns.exit (turn.trans (if_pos ends))⟩
    · have text : (b :: rest).takeWhile (fun b => !b == tagC) = b :: rest.takeWhile fun b => !b == tagC := by
        simp [ends]
      have later : tagC ∈ rest.drop 0 := (List.mem_cons.mp inside).resolve_left fun same => ends same.symm
      obtain ⟨r, found⟩ := tag_found (d := (tagO, b)) 2 [b] later
      have size (n : Nat) : (1 : Int) + (n + 1 : Nat) + 1 = 2 + n + 1 := by omega
      rw [text, List.length_cons, size]
      exact ⟨r, Returns.again (turn.trans (if_neg ends)) found⟩

theorem loadedTag_none (same : (firstTwo w d).1 = tagO) (other : (firstTwo w d).2 ≠ tagC)
    (never : ∀ n, tape (w.drop 2) g n ≠ tagC) (turns : Nat) : readXMLTag turns false (loaded w g d) = none := by
  rw [loadedTag_opened same]
  cases turns with
  | zero => rfl
  | succ turns =>
    rw [loop_again (tagTurn_halfRead.trans (if_neg other))]
    exact tag_none (fun n => by rw [Nat.zero_add]; exact never n) turns

end Field

end TFCommon.Sandesh.Xml
