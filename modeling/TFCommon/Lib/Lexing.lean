import Mathlib.Data.List.Chain

/-! Lexers, which cut a text into tokens by a function that finds the first one, and texts that are written in pieces. What a
piece emits is said with the text that follows it, so that longest matches compose. -/
namespace TFCommon.Lexing

variable {α τ : Type}

abbrev Scanner (α τ : Type) := List α → Option (Option τ × List α)

def loop (scan : Scanner α τ) : Nat → List α → Option (List τ)
  | _, [] => some []
  | 0, _ :: _ => none
  | n + 1, c :: text => do
    let (token, rest) ← scan (c :: text)
    let tokens ← loop scan n rest
    return token.toList ++ tokens

def lex (scan : Scanner α τ) (text : List α) : Option (List τ) := loop scan text.length text

def Shrinks (scan : Scanner α τ) : Prop := ∀ text token rest, scan text = some (token, rest) → rest.length < text.length

variable {scan : Scanner α τ}

theorem loop_cons (n : Nat) (c : α) (text : List α) :
    loop scan (n + 1) (c :: text) =
      (scan (c :: text)).bind fun found => (loop scan n found.2).map (found.1.toList ++ ·) := by
  rw [loop]
  cases scan (c :: text) with
  | none => rfl
  | some found =>
    obtain ⟨token, rest⟩ := found
    change (loop scan n rest).bind _ = (loop scan n rest).map _
    cases loop scan n rest with
    | none => rfl
    | some tokens => rfl

theorem loop_enough (shrinks : Shrinks scan) (n m : Nat) (text : List α) (left : text.length ≤ n) (right : text.length ≤ m) :
    loop scan n text = loop scan m text := by
  induction n generalizing m text with
  | zero =>
    obtain rfl := List.length_eq_zero_iff.mp (Nat.le_zero.mp left)
    cases m <;> rfl
  | succ n ih =>
    cases text with
    | nil => cases m <;> rfl
    | cons c text =>
      obtain ⟨m, rfl⟩ : ∃ k, m = k + 1 := ⟨m - 1, by rw [List.length_cons] at right; omega⟩
      rw [loop_cons, loop_cons]
      cases found : scan (c :: text) with
      | none => rfl
      | some found' =>
        have shorter := shrinks _ _ _ found
        change (loop scan n found'.2).map _ = (loop scan m found'.2).map _
        rw [ih m found'.2 (by omega) (by omega)]

theorem lex_cons (shrinks : Shrinks scan) (c : α) (text : List α) :
    lex scan (c :: text) = (scan (c :: text)).bind fun found => (lex scan found.2).map (found.1.toList ++ ·) := by
  rw [lex, List.length_cons, loop_cons]
  cases found : scan (c :: text) with
  | none => rfl
  | some found' =>
    have shorter := shrinks _ _ _ found
    rw [List.length_cons] at shorter
    change (loop scan _ found'.2).map _ = (lex scan found'.2).map _
    rw [lex, loop_enough shrinks text.length found'.2.length found'.2 (by omega) (Nat.le_refl _)]

/-! ### What a text emits -/

def Emits (scan : Scanner α τ) (a : List α) (tokens : List τ) (rest : List α) : Prop :=
  lex scan (a ++ rest) = (lex scan rest).map (tokens ++ ·)

variable {a b rest : List α} {ts us : List τ}

theorem Emits.nil : Emits scan [] [] rest := Option.map_id'.symm

theorem Emits.append (first : Emits scan a ts (b ++ rest)) (second : Emits scan b us rest) :
    Emits scan (a ++ b) (ts ++ us) rest := by
  rw [Emits, List.append_assoc, first, second, Option.map_map]
  congr 1
  funext tokens
  exact (List.append_assoc _ _ _).symm

theorem Emits.of_scan (shrinks : Shrinks scan) (token : Option τ) {c : α}
    (found : scan (c :: a ++ rest) = some (token, rest)) : Emits scan (c :: a) token.toList rest := by
  rw [Emits, List.cons_append, lex_cons shrinks, ← List.cons_append, found]
  rfl

/-! ### Quotes -/

section quotes
variable [DecidableEq α] {q : α} {s : List α}

/-- What stands up to the closing quote; a double quote stands for one. -/
def quoted (q : α) : List α → Option (List α × List α)
  | [] => none
  | [c] => if c = q then some ([], []) else none
  | c :: d :: rest =>
    if c = q then
      if d = q then (quoted q rest).map fun found => (q :: found.1, found.2) else some ([], d :: rest)
    else (quoted q (d :: rest)).map fun found => (c :: found.1, found.2)

def doubled (q : α) (s : List α) : List α := s.flatMap fun c => if c = q then [q, q] else [c]

theorem doubled_cons (c : α) (s : List α) : doubled q (c :: s) = (if c = q then [q, q] else [c]) ++ doubled q s := rfl

theorem quoted_text {text : List α} (found : quoted q text = some (s, rest)) : text = doubled q s ++ q :: rest := by
  fun_induction quoted q text generalizing s with
  | case1 => cases found
  | case2 => cases found; rfl
  | case3 => cases found
  | case4 rest' ih =>
    obtain ⟨⟨inner, after⟩, quoted, same⟩ := Option.map_eq_some_iff.mp found
    cases same
    rw [ih quoted, doubled_cons, if_pos rfl]
    rfl
  | case5 => cases found; rfl
  | case6 c d rest' other ih =>
    obtain ⟨⟨inner, after⟩, quoted, same⟩ := Option.map_eq_some_iff.mp found
    cases same
    rw [ih quoted, doubled_cons, if_neg other]
    rfl

theorem length_doubled (s : List α) : (doubled q s).length = s.length + s.count q := by
  induction s with
  | nil => rfl
  | cons c s ih =>
    rw [doubled_cons, List.length_append, List.length_cons, List.count_cons]
    by_cases same : c = q
    · rw [if_pos same, if_pos (beq_iff_eq.mpr same), List.length_cons, List.length_singleton]
      omega
    · rw [if_neg same, if_neg (mt beq_iff_eq.mp same), List.length_singleton]
      omega

theorem count_doubled (s : List α) : (doubled q s).count q = 2 * s.count q := by
  induction s with
  | nil => rfl
  | cons c s ih =>
    rw [doubled_cons, List.count_append, List.count_cons]
    by_cases same : c = q
    · rw [if_pos same, if_pos (beq_iff_eq.mpr same), List.count_cons_self, List.count_cons_self, List.count_nil]
      omega
    · rw [if_neg same, List.count_singleton, if_neg (mt beq_iff_eq.mp same)]
      omega

theorem quoted_plain (plain : q ∉ s) (closed : rest.head? ≠ some q) : quoted q (s ++ q :: rest) = some (s, rest) := by
  induction s with
  | nil =>
    cases rest with
    | nil => simp [quoted]
    | cons d rest =>
      have other : d ≠ q := fun same => closed (congrArg some same)
      simp [quoted, other]
  | cons c s ih =>
    obtain ⟨other, later⟩ := not_or.mp (mt List.mem_cons.mpr plain)
    have tail := ih later
    cases more : s ++ q :: rest with
    | nil => simp at more
    | cons d more' =>
      rw [List.cons_append, more, quoted, if_neg (Ne.symm other), ← more, tail]
      rfl

theorem quoted_denies (inside : q ∈ s) (closed : rest.head? ≠ some q) (rest' : List α) :
    quoted q (s ++ q :: rest) ≠ some (s, rest') := by
  intro found
  have text := quoted_text found
  have positive : 0 < s.count q := List.count_pos_iff.mpr inside
  have lengths := congrArg List.length text
  rw [List.length_append, List.length_append, length_doubled, List.length_cons, List.length_cons] at lengths
  -- the quotes among as many characters as the doubled string has
  have counts := congrArg (fun l => (l.take (s.length + s.count q + 1)).count q) text
  have left : (s ++ q :: rest).take (s.length + s.count q + 1) = s ++ q :: rest.take (s.count q) := by
    rw [Nat.add_assoc, List.take_length_add_append]
    rfl
  have right : (doubled q s ++ q :: rest').take (s.length + s.count q + 1) = doubled q s ++ [q] := by
    rw [← length_doubled, List.take_length_add_append]
    rfl
  simp only [left, right, List.count_append, List.count_cons_self, count_doubled, List.count_nil] at counts
  have all : (rest.take (s.count q)).count q = (rest.take (s.count q)).length := by
    rw [List.length_take]
    omega
  cases rest with
  | nil =>
    rw [List.length_nil] at lengths
    omega
  | cons d rest =>
    refine closed (congrArg some (List.count_eq_length.mp all d ?_).symm)
    obtain ⟨k, succ⟩ : ∃ k, s.count q = k + 1 := ⟨s.count q - 1, by omega⟩
    rw [succ]
    exact List.mem_cons_self

end quotes

/-! ### The longest match of a class of symbols -/

theorem takeWhile_front {p : α → Bool} (all : ∀ c ∈ a, p c = true) (stop : ∀ c, rest.head? = some c → p c = false) :
    (a ++ rest).takeWhile p = a ∧ (a ++ rest).dropWhile p = rest := by
  rw [List.takeWhile_append_of_pos all, List.dropWhile_append_of_pos all]
  cases rest with
  | nil => exact ⟨List.append_nil a, rfl⟩
  | cons c rest =>
    have fails := stop c rfl
    rw [List.takeWhile_cons, List.dropWhile_cons, fails]
    exact ⟨List.append_nil a, rfl⟩

/-! ### Texts in pieces -/

section pieces
variable {P : Type} (text : P → List α) (accepts : P → List τ → Prop)

def written (pieces : List P) : List α := pieces.flatMap text

def Matches : List P → List τ → Prop
  | [], tokens => tokens = []
  | p :: pieces, tokens => ∃ own others, tokens = own ++ others ∧ accepts p own ∧ Matches pieces others

variable {text accepts} {plain : P → Prop}

/-- A text has the tokens of its pieces exactly if all pieces are plain, when the plain ones emit their tokens, whatever the
pieces before and behind, and the others do not. -/
theorem matches_iff (width : ∀ p own own', accepts p own → accepts p own' → own.length = own'.length) (pieces : List P)
    (emits : ∀ front p back, pieces = front ++ p :: back → plain p →
      ∃ own, accepts p own ∧ Emits scan (text p) own (written text back))
    (denies : ∀ front p back, pieces = front ++ p :: back → ¬ plain p →
      ∀ own others, accepts p own → lex scan (text p ++ written text back) ≠ some (own ++ others)) :
    (∃ tokens, lex scan (written text pieces) = some tokens ∧ Matches accepts pieces tokens) ↔ ∀ p ∈ pieces, plain p := by
  induction pieces with
  | nil =>
    constructor
    · exact nofun
    · intro _
      exact ⟨[], rfl, rfl⟩
  | cons p pieces ih =>
    have later := ih (fun front r back split => emits (p :: front) r back (congrArg (p :: ·) split))
      (fun front r back split => denies (p :: front) r back (congrArg (p :: ·) split))
    rw [List.forall_mem_cons, ← later]
    constructor
    · rintro ⟨tokens, lexed, own, others, rfl, accepted, matched⟩
      by_cases here : plain p
      · obtain ⟨own', accepted', emitted⟩ := emits [] p pieces rfl here
        have split : (lex scan (written text pieces)).map (own' ++ ·) = some (own ++ others) := emitted.symm.trans lexed
        obtain ⟨others', rest, same⟩ := Option.map_eq_some_iff.mp split
        obtain ⟨rfl, rfl⟩ := List.append_inj same (width p _ _ accepted' accepted)
        exact ⟨here, others', rest, matched⟩
      · exact absurd lexed (denies [] p pieces rfl here own others accepted)
    · rintro ⟨here, tokens, lexed, matched⟩
      obtain ⟨own, accepted, emitted⟩ := emits [] p pieces rfl here
      refine ⟨own ++ tokens, ?_, own, tokens, rfl, accepted, matched⟩
      exact emitted.trans (congrArg (Option.map (own ++ ·)) lexed)

/-- No two pieces meet that could run together: one closes before what follows, or one opens behind what comes before. -/
def Separated (opens closes : P → Bool) (pieces : List P) : Prop :=
  pieces.IsChain fun p q => closes p = true ∨ opens q = true

def Opens (opens : P → Bool) (pieces : List P) : Prop := ∀ q ∈ pieces.head?, opens q = true

def Closes (closes : P → Bool) (pieces : List P) : Prop := ∀ p ∈ pieces.getLast?, closes p = true

section separated
variable {opens closes : P → Bool} {ps qs : List P}

theorem Separated.append_opens (first : Separated opens closes ps) (second : Separated opens closes qs)
    (start : Opens opens qs) : Separated opens closes (ps ++ qs) :=
  List.isChain_append.mpr ⟨first, second, fun _ _ q head => .inr (start q head)⟩

theorem Separated.append_closes (first : Separated opens closes ps) (finish : Closes closes ps)
    (second : Separated opens closes qs) : Separated opens closes (ps ++ qs) :=
  List.isChain_append.mpr ⟨first, second, fun p last _ _ => .inl (finish p last)⟩

theorem Separated.dropLast (separated : Separated opens closes ps) : Separated opens closes ps.dropLast := by
  rw [List.dropLast_eq_take]
  exact List.IsChain.take separated _

theorem Opens.append (first : Opens opens ps) (second : Opens opens qs) : Opens opens (ps ++ qs) := by
  cases ps with
  | nil => exact second
  | cons p ps => exact first

theorem Closes.append (first : Closes closes ps) (second : Closes closes qs) : Closes closes (ps ++ qs) := by
  intro p last
  rw [List.getLast?_append] at last
  cases behind : qs.getLast? with
  | none =>
    rw [behind] at last
    exact first p last
  | some q =>
    rw [behind] at last
    exact second p (behind.trans last)

section flatMap
variable {A : Type} {f : A → List P} {l : List A}

theorem flatMap_of_append {property : List P → Prop} (nil : property [])
    (append : ∀ {ps qs}, property ps → property qs → property (ps ++ qs)) (each : ∀ a ∈ l, property (f a)) :
    property (l.flatMap f) := by
  induction l with
  | nil => exact nil
  | cons a l ih =>
    obtain ⟨here, later⟩ := List.forall_mem_cons.mp each
    exact append here (ih later)

theorem opens_flatMap (each : ∀ a ∈ l, Opens opens (f a)) : Opens opens (l.flatMap f) :=
  flatMap_of_append nofun Opens.append each

theorem closes_flatMap (each : ∀ a ∈ l, Closes closes (f a)) : Closes closes (l.flatMap f) :=
  flatMap_of_append nofun Closes.append each

theorem separated_flatMap_opens (each : ∀ a ∈ l, Separated opens closes (f a)) (start : ∀ a ∈ l, Opens opens (f a)) :
    Separated opens closes (l.flatMap f) := by
  induction l with
  | nil => exact List.IsChain.nil
  | cons a l ih =>
    obtain ⟨here, later⟩ := List.forall_mem_cons.mp each
    obtain ⟨_, begins⟩ := List.forall_mem_cons.mp start
    exact here.append_opens (ih later begins) (opens_flatMap begins)

theorem separated_flatMap_closes (each : ∀ a ∈ l, Separated opens closes (f a)) (finish : ∀ a ∈ l, Closes closes (f a)) :
    Separated opens closes (l.flatMap f) := by
  induction l with
  | nil => exact List.IsChain.nil
  | cons a l ih =>
    obtain ⟨here, later⟩ := List.forall_mem_cons.mp each
    obtain ⟨ends, others⟩ := List.forall_mem_cons.mp finish
    exact here.append_closes ends (ih later others)

end flatMap

theorem Separated.behind {front back : List P} {p : P} (separated : Separated opens closes (front ++ p :: back))
    (hard : closes p = false) : Opens opens back := by
  have tail := (List.isChain_append.mp separated).2.1
  intro q head
  cases back with
  | nil => cases head
  | cons r back =>
    cases head
    exact (List.isChain_cons_cons.mp tail).1.resolve_left fun soft => by rw [hard] at soft; cases soft

end separated

theorem Matches.shape {σ : Type} {see : τ → σ} {skeleton : P → List σ}
    (seen : ∀ p own, accepts p own → own.map see = skeleton p) {pieces : List P} {tokens : List τ}
    (matched : Matches accepts pieces tokens) : tokens.map see = pieces.flatMap skeleton := by
  induction pieces generalizing tokens with
  | nil =>
    cases matched
    rfl
  | cons p pieces ih =>
    obtain ⟨own, others, rfl, accepted, matched⟩ := matched
    rw [List.map_append, seen p own accepted, ih matched, List.flatMap_cons]

end pieces

end TFCommon.Lexing
