import TFCommon.Lib.Lexing
import TFCommon.Lib.Radix

/-! The lexical rules of CQL: quoted strings and names with the doubled quote as the only escape, numbers, hexadecimal blobs,
uuids, words, symbols and comments. -/
namespace TFCommon.Cql
open Lexing Radix

inductive Token where
  | word (text : List Char)
  | number (text : List Char)
  -- The digits behind `0x`.
  | hex (digits : List Char)
  -- The digits without the dashes.
  | uuid (digits : List Char)
  | string (s : List Char)
  | quotedName (s : List Char)
  | symbol (text : List Char)
deriving DecidableEq, Repr

def isSpace (c : Char) : Bool := c ∈ [' ', '\t', '\n', '\r']

def isIdent (c : Char) : Bool := c.isAlpha || c.isDigit || c = '_'

/-! ### Uuids -/

def hexGroup (n : Nat) (text : List Char) : Option (List Char × List Char) :=
  if (text.take n).length = n ∧ (text.take n).all isHex then some (text.take n, text.drop n) else none

def dash : List Char → Option (List Char)
  | [] => none
  | c :: rest => if c = '-' then some rest else none

def hexGroups : List Nat → List Char → Option (List Char × List Char)
  | [], text => some ([], text)
  | [n], text => hexGroup n text
  | n :: m :: ns, text => do
    let (digits, rest) ← hexGroup n text
    let rest ← dash rest
    let (others, rest) ← hexGroups (m :: ns) rest
    return (digits ++ others, rest)

def uuidGroups : List Nat := [8, 4, 4, 4, 12]

/-! ### Numbers -/

def fraction : List Char → List Char × List Char
  | [] => ([], [])
  | c :: rest => if c = '.' then (c :: rest.takeWhile Char.isDigit, rest.dropWhile Char.isDigit) else ([], c :: rest)

def exponent : List Char → List Char × List Char
  | e :: s :: rest =>
    if e ≠ 'e' ∧ e ≠ 'E' then ([], e :: s :: rest)
    else if (s = '+' ∨ s = '-') ∧ rest.head?.any Char.isDigit then
      (e :: s :: rest.takeWhile Char.isDigit, rest.dropWhile Char.isDigit)
    else if s.isDigit then (e :: (s :: rest).takeWhile Char.isDigit, (s :: rest).dropWhile Char.isDigit)
    else ([], e :: s :: rest)
  | rest => ([], rest)

def number (text : List Char) : List Char × List Char :=
  let (part, rest) := fraction (text.dropWhile Char.isDigit)
  let (power, rest) := exponent rest
  (text.takeWhile Char.isDigit ++ part ++ power, rest)

/-! ### The first token -/

def endOfComment : List Char → Option (List Char)
  | [] => none
  | c :: rest => if c = '*' ∧ rest.head? = some '/' then some rest.tail else endOfComment rest

def endOfLine (text : List Char) : List Char := text.dropWhile fun c => c ≠ '\n' && c ≠ '\r'

def scanOther (c : Char) (rest : List Char) : Option (Option Token × List Char) :=
  if c = '0' ∧ (rest.head? = some 'x' ∨ rest.head? = some 'X') then
    some (some (.hex (rest.tail.takeWhile isHex)), rest.tail.dropWhile isHex)
  else if c.isDigit then some (some (.number (number (c :: rest)).1), (number (c :: rest)).2)
  else if c.isAlpha then some (some (.word (c :: rest.takeWhile isIdent)), rest.dropWhile isIdent)
  else if c = '-' ∧ rest.head?.any Char.isDigit then some (some (.number (c :: (number rest).1)), (number rest).2)
  else if c = '-' ∧ rest.head? = some '-' ∨ c = '/' ∧ rest.head? = some '/' then some (none, endOfLine rest)
  else if c = '/' ∧ rest.head? = some '*' then (endOfComment rest.tail).map fun rest => (none, rest)
  else if c ∈ ['<', '>', '!'] ∧ rest.head? = some '=' then some (some (.symbol [c, '=']), rest.tail)
  else some (some (.symbol [c]), rest)

def scan : Scanner Char Token
  | [] => none
  | c :: rest =>
    if isSpace c then some (none, rest)
    else if c = '\'' then (quoted '\'' rest).map fun found => (some (.string found.1), found.2)
    else if c = '\x22' then (quoted '\x22' rest).map fun found => (some (.quotedName found.1), found.2)
    else
      match hexGroups uuidGroups (c :: rest) with
      | some (digits, rest) => some (some (.uuid digits), rest)
      | none => scanOther c rest

/-! ### Every token is taken out of the text -/

theorem hexGroup_front {n : Nat} {text digits rest : List Char} (found : hexGroup n text = some (digits, rest)) :
    text = digits ++ rest ∧ ∀ c ∈ digits, isHex c = true := by
  unfold hexGroup at found
  split at found
  · rename_i fits
    cases found
    exact ⟨(List.take_append_drop n text).symm, List.all_eq_true.mp fits.2⟩
  · cases found

theorem dash_front {text rest : List Char} (found : dash text = some rest) : text = '-' :: rest := by
  unfold dash at found
  split at found
  · cases found
  · split at found
    · rename_i same
      cases found
      rw [same]
    · cases found

variable {digits w : List Char} {c : Char} {p : Char → Bool}

theorem count_dash_of_isHex (all : ∀ c ∈ digits, isHex c = true) : digits.count '-' = 0 := by
  refine List.count_eq_zero.mpr fun inside => ?_
  exact absurd (all _ inside) (by decide)

theorem hexGroups_front {n : Nat} {ns : List Nat} {text digits rest : List Char}
    (found : hexGroups (n :: ns) text = some (digits, rest)) :
    ∃ front, text = front ++ rest ∧ (∀ c ∈ front, isHex c = true ∨ c = '-') ∧ front.count '-' = ns.length := by
  induction ns generalizing n text digits with
  | nil =>
    obtain ⟨split, all⟩ := hexGroup_front found
    exact ⟨digits, split, fun c inside => .inl (all c inside), count_dash_of_isHex all⟩
  | cons m ns ih =>
    simp only [hexGroups, Option.bind_eq_bind, Option.bind_eq_some_iff] at found
    obtain ⟨⟨first, after⟩, group, inner, dashed, ⟨others, last⟩, groups, same⟩ := found
    cases same
    obtain ⟨front, split, chars, dashes⟩ := ih groups
    obtain ⟨start, all⟩ := hexGroup_front group
    have between : after = '-' :: inner := dash_front dashed
    refine ⟨first ++ '-' :: front, ?_, ?_, ?_⟩
    · rw [start, between, split, List.append_assoc]
      rfl
    · exact List.forall_mem_append.mpr ⟨fun c digit => .inl (all c digit), List.forall_mem_cons.mpr ⟨.inr rfl, chars⟩⟩
    · rw [List.count_append, count_dash_of_isHex all, List.count_cons_self, dashes, List.length_cons, Nat.zero_add]

theorem length_fraction (text : List Char) : (fraction text).2.length ≤ text.length := by
  unfold fraction
  split
  · exact Nat.le_refl _
  · split
    · exact Nat.le_trans (List.dropWhile_sublist _).length_le (Nat.le_succ _)
    · exact Nat.le_refl _

theorem length_exponent (text : List Char) : (exponent text).2.length ≤ text.length := by
  unfold exponent
  split
  · split
    · exact Nat.le_refl _
    · split
      · exact Nat.le_trans (List.dropWhile_sublist _).length_le (Nat.le_add_right _ 2)
      · split
        · exact Nat.le_trans (List.dropWhile_sublist _).length_le (Nat.le_succ _)
        · exact Nat.le_refl _
  · exact Nat.le_refl _

theorem length_number (text : List Char) : (number text).2.length ≤ (text.dropWhile Char.isDigit).length :=
  Nat.le_trans (length_exponent _) (length_fraction _)

theorem length_endOfComment {text rest : List Char} (found : endOfComment text = some rest) : rest.length ≤ text.length := by
  induction text with
  | nil => cases found
  | cons c text ih =>
    rw [endOfComment] at found
    split at found
    · cases found
      rw [List.length_tail, List.length_cons]
      omega
    · exact Nat.le_succ_of_le (ih found)

theorem length_quoted {q : Char} {text : List Char} {found : List Char × List Char} (read : quoted q text = some found) :
    found.2.length < text.length := by
  obtain ⟨inner, rest⟩ := found
  have whole := congrArg List.length (quoted_text read)
  rw [List.length_append, List.length_cons] at whole
  change rest.length < text.length
  omega

theorem length_scanOther {text : List Char} {token : Option Token} {rest : List Char}
    (found : scanOther c text = some (token, rest)) : rest.length ≤ text.length := by
  have drop : ∀ (p : Char → Bool) (l : List Char), (l.dropWhile p).length ≤ l.length := fun p l =>
    (List.dropWhile_sublist p).length_le
  have tail : text.tail.length ≤ text.length := by
    rw [List.length_tail]
    omega
  rcases ite_eq_iff.mp found with ⟨_, found⟩ | ⟨_, found⟩
  · cases found
    exact Nat.le_trans (drop _ _) tail
  rcases ite_eq_iff.mp found with ⟨digit, found⟩ | ⟨_, found⟩
  · cases found
    refine Nat.le_trans (length_number _) ?_
    rw [List.dropWhile_cons, if_pos digit]
    exact drop _ _
  rcases ite_eq_iff.mp found with ⟨_, found⟩ | ⟨_, found⟩
  · cases found
    exact drop _ _
  rcases ite_eq_iff.mp found with ⟨_, found⟩ | ⟨_, found⟩
  · cases found
    exact Nat.le_trans (length_number _) (drop _ _)
  rcases ite_eq_iff.mp found with ⟨_, found⟩ | ⟨_, found⟩
  · cases found
    exact drop _ _
  rcases ite_eq_iff.mp found with ⟨_, found⟩ | ⟨_, found⟩
  · obtain ⟨after, ended, same⟩ := Option.map_eq_some_iff.mp found
    cases same
    exact Nat.le_trans (length_endOfComment ended) tail
  rcases ite_eq_iff.mp found with ⟨_, found⟩ | ⟨_, found⟩
  · cases found
    exact tail
  · cases found
    exact Nat.le_refl _

theorem scan_shrinks : Shrinks scan := by
  intro text token rest found
  cases text with
  | nil => cases found
  | cons c text =>
    rw [List.length_cons]
    rw [scan] at found
    split at found
    · cases found
      exact Nat.lt_succ_self _
    · split at found
      · obtain ⟨inner, read, same⟩ := Option.map_eq_some_iff.mp found
        cases same
        exact Nat.lt_succ_of_lt (length_quoted read)
      · split at found
        · obtain ⟨inner, read, same⟩ := Option.map_eq_some_iff.mp found
          cases same
          exact Nat.lt_succ_of_lt (length_quoted read)
        · split at found
          · rename_i digits after groups
            cases found
            obtain ⟨front, split, _, dashes⟩ := hexGroups_front groups
            have whole := congrArg List.length split
            have some_ := List.count_le_length (a := '-') (l := front)
            rw [List.length_append, List.length_cons] at whole
            rw [dashes] at some_
            change 4 ≤ _ at some_
            omega
          · exact Nat.lt_succ_of_le (length_scanOther found)

/-! ### What is emitted before a delimiter -/

/-- The characters that end a word, a number or a string wherever they stand. -/
def delimiters : List Char := [' ', '(', ')', ',', '=', '*']

def Delimited (rest : List Char) : Prop := ∀ c, rest.head? = some c → c ∈ delimiters

variable {rest : List Char}

theorem of_delimiters (other : delimiters.all (fun c => !p c) = true)
    (stop : c ∈ delimiters) : p c = false := by
  simpa using List.all_eq_true.mp other c stop

section
variable (delimited : Delimited rest)
include delimited

theorem Delimited.stops (other : delimiters.all (fun c => !p c) = true) :
    ∀ c, rest.head? = some c → p c = false := fun c head => of_delimiters other (delimited c head)

theorem Delimited.not_quote {q : Char} (other : q ∉ delimiters) : rest.head? ≠ some q :=
  fun head => other (delimited q head)

theorem hexGroups_none (few : w.count '-' < 4) : hexGroups uuidGroups (w ++ rest) = none := by
  refine Option.eq_none_iff_forall_ne_some.mpr fun ⟨digits, after⟩ found => ?_
  obtain ⟨front, split, chars, dashes⟩ := hexGroups_front found
  change front.count '-' = 4 at dashes
  rcases List.append_eq_append_iff.mp split with ⟨more, rfl, begins⟩ | ⟨more, rfl, _⟩
  · cases more with
    | nil =>
      rw [List.append_nil] at dashes
      omega
    | cons d more =>
      have stop : d ∈ delimiters := delimited d (by rw [begins]; rfl)
      rcases chars d (List.mem_append_right w List.mem_cons_self) with hex | rfl
      · exact absurd (of_delimiters (p := isHex) (by decide) stop) (by rw [hex]; decide)
      · exact absurd stop (by decide)
  · rw [List.count_append] at few
    omega

theorem scan_other (visible : isSpace c = false) (open_ : c ≠ '\'')
    (name : c ≠ '\x22') (few : (c :: w).count '-' < 4) : scan (c :: w ++ rest) = scanOther c (w ++ rest) := by
  have none := hexGroups_none delimited few
  rw [List.cons_append] at none ⊢
  rw [scan, visible, if_neg (by decide), if_neg open_, if_neg name, none]

end

theorem isSpace_iff : isSpace c = true ↔ c = ' ' ∨ c = '\t' ∨ c = '\n' ∨ c = '\r' := by
  simp [isSpace]

theorem visible_of (holds : p c = true)
    (other : [' ', '\t', '\n', '\r', '\'', '\x22'].all (fun c => !p c) = true) :
    isSpace c = false ∧ c ≠ '\'' ∧ c ≠ '\x22' := by
  have apart : ∀ d ∈ [' ', '\t', '\n', '\r', '\'', '\x22'], c ≠ d := by
    rintro d inside rfl
    have fails := List.all_eq_true.mp other c inside
    rw [holds] at fails
    cases fails
  simp only [List.forall_mem_cons] at apart
  obtain ⟨a, b, c', d, e, f, _⟩ := apart
  refine ⟨?_, e, f⟩
  rw [← Bool.not_eq_true, isSpace_iff]
  exact fun space => space.elim a fun space => space.elim b fun space => space.elim c' d

theorem isDigit_of_isAlpha (letter : c.isAlpha = true) : c.isDigit = false := by
  delta Char.isAlpha Char.isUpper Char.isLower at letter
  simp only [Bool.or_eq_true, Bool.and_eq_true, decide_eq_true_eq, UInt32.le_iff_toNat_le] at letter
  rw [← Bool.not_eq_true]
  intro digit
  simp only [Char.isDigit, Bool.and_eq_true, decide_eq_true_eq, UInt32.le_iff_toNat_le] at digit
  change 65 ≤ _ ∧ _ ≤ 90 ∨ 97 ≤ _ ∧ _ ≤ 122 at letter
  change 48 ≤ _ ∧ _ ≤ 57 at digit
  omega

theorem emits_word (letter : c.isAlpha = true) (ident : ∀ d ∈ w, isIdent d = true)
    (delimited : Delimited rest) : Emits scan (c :: w) [.word (c :: w)] rest := by
  obtain ⟨visible, open_, name⟩ := visible_of letter (by decide)
  have dashes : (c :: w).count '-' = 0 := by
    refine List.count_eq_zero.mpr fun inside => ?_
    rcases List.mem_cons.mp inside with rfl | inside
    · exact absurd letter (by decide)
    · exact absurd (ident _ inside) (by decide)
  have digit : c.isDigit = false := isDigit_of_isAlpha letter
  have zero : c ≠ '0' := by
    rintro rfl
    exact absurd letter (by decide)
  obtain ⟨front, back⟩ := takeWhile_front ident (delimited.stops (by decide))
  apply Emits.of_scan scan_shrinks (some (.word (c :: w)))
  rw [scan_other delimited visible open_ name (by omega), scanOther, if_neg fun both => zero both.1, digit,
    if_neg (by decide), if_pos letter, front, back]

/-! ### Numbers -/

def IsFraction (f : List Char) : Prop := f = [] ∨ ∃ ds, f = '.' :: ds ∧ ∀ d ∈ ds, d.isDigit = true

def IsExponent (x : List Char) : Prop :=
  x = [] ∨ ∃ s d ds, x = 'e' :: s :: d :: ds ∧ (s = '+' ∨ s = '-') ∧ ∀ c ∈ d :: ds, c.isDigit = true

def isNum (c : Char) : Bool := c.isDigit || c ∈ ['.', 'e', '+', '-']

section number
variable {w f x : List Char}

theorem isDigit_of_delimiters (stop : c ∈ delimiters) : c.isDigit = false := of_delimiters (by decide) stop

theorem exponent_span (power : IsExponent x) (delimited : Delimited rest) : exponent (x ++ rest) = (x, rest) := by
  rcases power with rfl | ⟨s, d, ds, rfl, sign, digits⟩
  · match rest, delimited with
    | [], _ => rfl
    | [c], _ => rfl
    | c :: s :: more, delimited =>
      have stop : c ∈ delimiters := delimited c rfl
      have other : c ≠ 'e' ∧ c ≠ 'E' := by
        constructor
        all_goals
          rintro rfl
          exact absurd stop (by decide)
      exact if_pos other
  · obtain ⟨front, back⟩ := takeWhile_front digits (delimited.stops (by decide))
    have first : (d :: ds ++ rest).head?.any Char.isDigit = true := digits d List.mem_cons_self
    change exponent ('e' :: s :: (d :: ds ++ rest)) = _
    rw [exponent, if_neg (by decide), if_pos ⟨sign, first⟩, front, back]

theorem exponent_stops (power : IsExponent x) (delimited : Delimited rest) :
    ∀ c, (x ++ rest).head? = some c → c.isDigit = false ∧ c ≠ '.' := by
  intro c head
  rcases power with rfl | ⟨s, d, ds, rfl, _⟩
  · have stop : c ∈ delimiters := delimited c head
    refine ⟨isDigit_of_delimiters stop, ?_⟩
    rintro rfl
    exact absurd stop (by decide)
  · cases head
    decide

theorem fraction_span (part : IsFraction f) (power : IsExponent x) (delimited : Delimited rest) :
    fraction (f ++ (x ++ rest)) = (f, x ++ rest) := by
  have stops := exponent_stops power delimited
  rcases part with rfl | ⟨ds, rfl, digits⟩
  · cases more : x ++ rest with
    | nil => rfl
    | cons c more' => exact if_neg (stops c (by rw [more]; rfl)).2
  · obtain ⟨front, back⟩ := takeWhile_front digits fun c head => (stops c head).1
    change fraction ('.' :: (ds ++ (x ++ rest))) = _
    rw [fraction, if_pos rfl, front, back]

section
variable (some_ : w ≠ []) (whole : ∀ d ∈ w, d.isDigit = true) (part : IsFraction f) (power : IsExponent x)
include whole part power

theorem number_span (delimited : Delimited rest) : number (w ++ (f ++ (x ++ rest))) = (w ++ f ++ x, rest) := by
  have stops : ∀ c, (f ++ (x ++ rest)).head? = some c → c.isDigit = false := by
    intro c head
    rcases part with rfl | ⟨ds, rfl, _⟩
    · exact (exponent_stops power delimited c head).1
    · cases head
      decide
  obtain ⟨front, back⟩ := takeWhile_front whole stops
  rw [number, back, front, fraction_span part power delimited]
  dsimp only
  rw [exponent_span power delimited]

theorem isNum_of_parts : ∀ c ∈ w ++ f ++ x, isNum c = true := by
  have digits : ∀ {ds : List Char}, (∀ d ∈ ds, d.isDigit = true) → ∀ c ∈ ds, isNum c = true := by
    intro ds all c inside
    rw [isNum, all c inside]
    rfl
  simp only [List.forall_mem_append]
  refine ⟨⟨digits whole, ?_⟩, ?_⟩
  · rcases part with rfl | ⟨ds, rfl, all⟩
    · exact nofun
    · exact List.forall_mem_cons.mpr ⟨by decide, digits all⟩
  · rcases power with rfl | ⟨s, d, ds, rfl, sign, all⟩
    · exact nofun
    · refine List.forall_mem_cons.mpr ⟨by decide, List.forall_mem_cons.mpr ⟨?_, digits all⟩⟩
      rcases sign with rfl | rfl <;> decide

theorem count_dash_of_parts : (w ++ f ++ x).count '-' ≤ 1 := by
  have digits : ∀ {ds : List Char}, (∀ d ∈ ds, d.isDigit = true) → ds.count '-' = 0 := fun all =>
    List.count_eq_zero.mpr fun inside => absurd (all _ inside) (by decide)
  have none : f.count '-' = 0 := by
    rcases part with rfl | ⟨ds, rfl, all⟩
    · rfl
    · rw [List.count_cons_of_ne (by decide), digits all]
  have one : x.count '-' ≤ 1 := by
    rcases power with rfl | ⟨s, d, ds, rfl, _, all⟩
    · exact Nat.zero_le 1
    · rw [List.count_cons_of_ne (by decide), List.count_cons, digits all]
      split
      · exact Nat.le_refl 1
      · exact Nat.zero_le 1
  rw [List.count_append, List.count_append, digits whole]
  omega

omit whole part power in
theorem head_cases {a : List Char} (head : (a ++ rest).head? = some c) : c ∈ a ∨ rest.head? = some c := by
  cases a with
  | nil => exact .inr head
  | cons d a =>
    cases head
    exact .inl List.mem_cons_self

include some_

theorem emits_number (delimited : Delimited rest) : Emits scan (w ++ f ++ x) [.number (w ++ f ++ x)] rest := by
  have chars := isNum_of_parts whole part power
  have dashes := count_dash_of_parts whole part power
  have span := number_span whole part power delimited
  obtain ⟨c, ds, rfl⟩ := List.exists_cons_of_ne_nil some_
  have digit : c.isDigit = true := whole c List.mem_cons_self
  obtain ⟨visible, open_, name⟩ := visible_of digit (by decide)
  -- a zero is not followed by an x
  have plain : ¬ (c = '0' ∧ ((ds ++ f ++ x ++ rest).head? = some 'x' ∨ (ds ++ f ++ x ++ rest).head? = some 'X')) := by
    have other : ∀ d, isNum d = false → d ∉ delimiters → (ds ++ f ++ x ++ rest).head? ≠ some d := by
      intro d strange inner head
      rcases head_cases head with inside | stop
      · rw [chars d (List.mem_cons_of_mem c inside)] at strange
        cases strange
      · exact inner (delimited d stop)
    rintro ⟨_, head | head⟩
    · exact other 'x' (by decide) (by decide) head
    · exact other 'X' (by decide) (by decide) head
  have few : (c :: (ds ++ f ++ x)).count '-' < 4 := Nat.lt_of_le_of_lt dashes (by decide)
  have same : c :: (ds ++ f ++ x ++ rest) = c :: ds ++ (f ++ (x ++ rest)) := by simp
  change Emits scan (c :: (ds ++ f ++ x)) [.number (c :: (ds ++ f ++ x))] rest
  apply Emits.of_scan scan_shrinks (some (.number (c :: (ds ++ f ++ x))))
  rw [scan_other delimited visible open_ name few, scanOther, if_neg plain, if_pos digit, same, span]
  rfl

theorem emits_negative (delimited : Delimited rest) :
    Emits scan ('-' :: (w ++ f ++ x)) [.number ('-' :: (w ++ f ++ x))] rest := by
  have dashes := count_dash_of_parts whole part power
  have span := number_span whole part power delimited
  have few : ('-' :: (w ++ f ++ x)).count '-' < 4 := by
    rw [List.count_cons_self]
    omega
  have first : (w ++ f ++ x ++ rest).head?.any Char.isDigit = true := by
    obtain ⟨c, ds, rfl⟩ := List.exists_cons_of_ne_nil some_
    exact whole c List.mem_cons_self
  have same : w ++ f ++ x ++ rest = w ++ (f ++ (x ++ rest)) := by simp
  apply Emits.of_scan scan_shrinks (some (.number ('-' :: (w ++ f ++ x))))
  rw [scan_other delimited (by decide) (by decide) (by decide) few, scanOther, if_neg (fun both => absurd both.1 (by decide)),
    if_neg (by decide), if_neg (by decide), if_pos ⟨rfl, first⟩, same, span]

end

end number

/-! ### Blobs and uuids -/

theorem emits_hex (all : ∀ c ∈ digits, isHex c = true) (delimited : Delimited rest) :
    Emits scan ('0' :: 'x' :: digits) [.hex digits] rest := by
  have dashes : ('0' :: 'x' :: digits).count '-' = 0 := by
    rw [List.count_cons_of_ne (by decide), List.count_cons_of_ne (by decide), count_dash_of_isHex all]
  obtain ⟨front, back⟩ := takeWhile_front all (delimited.stops (by decide))
  apply Emits.of_scan scan_shrinks (some (.hex digits))
  rw [scan_other delimited (by decide) (by decide) (by decide) (by omega)]
  change some (some (Token.hex ((digits ++ rest).takeWhile isHex)), (digits ++ rest).dropWhile isHex) = _
  rw [front, back]

theorem hexGroup_span {n : Nat} (length : digits.length = n) (all : ∀ c ∈ digits, isHex c = true)
    (rest : List Char) : hexGroup n (digits ++ rest) = some (digits, rest) := by
  have front : (digits ++ rest).take n = digits := List.take_left' length
  have back : (digits ++ rest).drop n = rest := List.drop_left' length
  rw [hexGroup, front, back]
  exact if_pos ⟨length, List.all_eq_true.mpr all⟩

theorem hexGroups_cons {n m : Nat} {ns : List Nat} {digits text others : List Char} (length : digits.length = n)
    (all : ∀ c ∈ digits, isHex c = true) (later : hexGroups (m :: ns) text = some (others, rest)) :
    hexGroups (n :: m :: ns) (digits ++ '-' :: text) = some (digits ++ others, rest) := by
  rw [hexGroups, hexGroup_span length all]
  change (hexGroups (m :: ns) text).bind _ = _
  rw [later]
  rfl

theorem emits_uuid {w digits : List Char} (first : isHex c = true)
    (groups : hexGroups uuidGroups (c :: w ++ rest) = some (digits, rest)) : Emits scan (c :: w) [.uuid digits] rest := by
  obtain ⟨visible, open_, name⟩ := visible_of first (by decide)
  apply Emits.of_scan scan_shrinks (some (.uuid digits))
  rw [List.cons_append] at groups ⊢
  rw [scan, visible, if_neg (by decide), if_neg open_, if_neg name, groups]

/-! ### Strings and names -/

def Quotation (q : Char) (make : List Char → Token) : Prop :=
  ∀ text, scan (q :: text) = (quoted q text).map fun found => (some (make found.1), found.2)

theorem quotation_string : Quotation '\'' .string := fun _ => rfl

theorem quotation_quotedName : Quotation '\x22' .quotedName := fun _ => rfl

section quotation
variable {q : Char} {make : List Char → Token} {s : List Char}

theorem Quotation.emits (reads : Quotation q make) (other : q ∉ delimiters) (plain : q ∉ s) (delimited : Delimited rest) :
    Emits scan (q :: (s ++ [q])) [make s] rest := by
  apply Emits.of_scan scan_shrinks (some (make s))
  rw [List.cons_append, List.append_assoc, List.singleton_append, reads, quoted_plain plain (delimited.not_quote other)]
  rfl

theorem Quotation.denied (reads : Quotation q make) (injective : ∀ a b, make a = make b → a = b) (other : q ∉ delimiters)
    (inside : q ∈ s) (delimited : Delimited rest) (others : List Token) :
    lex scan (q :: (s ++ [q]) ++ rest) ≠ some (make s :: others) := by
  intro lexed
  rw [List.cons_append, List.append_assoc, List.singleton_append, lex_cons scan_shrinks, reads] at lexed
  cases read : quoted q (s ++ q :: rest) with
  | none =>
    rw [read] at lexed
    cases lexed
  | some found =>
    rw [read] at lexed
    obtain ⟨tokens, _, same⟩ := Option.map_eq_some_iff.mp lexed
    obtain ⟨content, after⟩ := found
    obtain rfl : content = s := injective _ _ (List.cons.inj same).1
    exact quoted_denies inside (delimited.not_quote other) after read

end quotation

/-! ### Blanks and symbols -/

theorem emits_space : Emits scan [' '] [] rest := Emits.of_scan scan_shrinks none rfl

theorem scan_not_hex (visible : isSpace c = false) (open_ : c ≠ '\'') (name : c ≠ '\x22')
    (other : isHex c = false) (text : List Char) : scan (c :: text) = scanOther c text := by
  have group : hexGroup 8 (c :: text) = none := by
    refine if_neg fun fits => ?_
    have first := List.all_eq_true.mp fits.2 c List.mem_cons_self
    rw [other] at first
    cases first
  have none : hexGroups uuidGroups (c :: text) = none := by
    rw [uuidGroups, hexGroups, group]
    rfl
  rw [scan, visible, if_neg (by decide), if_neg open_, if_neg name, none]

theorem emits_other {token : Token} (plain : c ∈ ['(', ')', ',', '=', '*', '<', '>'])
    (found : scanOther c (w ++ rest) = some (some token, rest)) : Emits scan (c :: w) [token] rest := by
  have other : ∀ c ∈ ['(', ')', ',', '=', '*', '<', '>'], isSpace c = false ∧ c ≠ '\'' ∧ c ≠ '\x22' ∧ isHex c = false := by
    simp [isSpace, isHex, digitValue]
  obtain ⟨visible, open_, name, hex⟩ := other c plain
  exact Emits.of_scan scan_shrinks (some token) ((scan_not_hex visible open_ name hex _).trans found)

theorem emits_delimiter (symbol : c ∈ ['(', ')', ',', '=', '*']) : Emits scan [c] [.symbol [c]] rest := by
  simp only [List.mem_cons, List.not_mem_nil, or_false] at symbol
  rcases symbol with rfl | rfl | rfl | rfl | rfl
  all_goals exact emits_other (by decide) (by simp [scanOther])

theorem emits_angle (angle : c = '<' ∨ c = '>') (other : rest.head? ≠ some '=') :
    Emits scan [c] [.symbol [c]] rest := by
  rcases angle with rfl | rfl
  all_goals exact emits_other (by decide) (by simp [scanOther, other])

theorem emits_angle_equals (angle : c = '<' ∨ c = '>') : Emits scan [c, '='] [.symbol [c, '=']] rest := by
  rcases angle with rfl | rfl
  all_goals exact emits_other (by decide) (by simp [scanOther])

end TFCommon.Cql
