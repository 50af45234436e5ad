import TFCommon.Sandesh.PySession

/-! What the Python reader makes of a stream of envelopes. It takes the length of an envelope for a number of characters, and
an empty message for no message, so it delivers the messages that have as many bytes as characters and are not empty. -/
namespace TFCommon.Sandesh.Py

variable {n : Nat} {msg buf rest more : List Char}

/-! ### Lengths as text -/

theorem digits_digits (last : Bool) (value : Nat) (text : List Char) (all : ∀ c ∈ text, c.isDigit = true)
    (some_ : last = true ∨ text ≠ []) : digits last value text = some (Nat.ofDigitChars 10 text value) := by
  induction text generalizing last value with
  | nil =>
    obtain rfl : last = true := some_.resolve_right fun h => h rfl
    rfl
  | cons c text ih =>
    rw [digits, if_pos (all c List.mem_cons_self)]
    exact ih true _ (fun d inside => all d (List.mem_cons_of_mem c inside)) (.inl rfl)

variable {c : Char} {p : List Char} {r next : SandeshReader} {later left : List (List Char)} {found : Option (List Char)}

theorem range_of_isDigit (digit : c.isDigit = true) : 48 ≤ c.toNat ∧ c.toNat ≤ 57 := by
  simpa [Char.isDigit, UInt32.le_iff_toNat_le] using digit

theorem visible_of_isDigit (digit : c.isDigit = true) : isSpace c = false ∧ c ≠ '-' ∧ c ≠ '+' := by
  have range := range_of_isDigit digit
  refine ⟨decide_eq_false fun space => ?_, ?_, ?_⟩
  · simp only [List.mem_cons, List.not_mem_nil, or_false] at space
    omega
  all_goals
    rintro rfl
    exact absurd digit (by decide)

theorem dropWhile_isSpace {text : List Char} (all : ∀ c ∈ text, c.isDigit = true) : text.dropWhile isSpace = text := by
  cases text with
  | nil => rfl
  | cons c text => rw [List.dropWhile_cons_of_neg (by simp [(visible_of_isDigit (all c List.mem_cons_self)).1])]

theorem int_digits {text : List Char} (all : ∀ c ∈ text, c.isDigit = true) (some_ : text ≠ []) :
    int text = some (Nat.ofDigitChars 10 text 0 : Int) := by
  have reversed : ∀ c ∈ text.reverse, c.isDigit = true := fun c inside => all c (List.mem_reverse.mp inside)
  unfold int
  rw [dropWhile_isSpace all, dropWhile_isSpace reversed, List.reverse_reverse]
  obtain ⟨c, tail, rfl⟩ := List.exists_cons_of_ne_nil some_
  obtain ⟨_, minus, plus⟩ := visible_of_isDigit (all c List.mem_cons_self)
  split
  · rename_i same
    exact absurd (List.cons.inj same).1 minus
  · rename_i same
    exact absurd (List.cons.inj same).1 plus
  · rw [digits_digits false 0 _ all (.inr some_)]
    rfl

def field (n : Nat) : List Char := zfill (str n) 10

theorem isDigit_field : ∀ c ∈ field n, c.isDigit = true := by
  refine List.forall_mem_append.mpr ⟨fun c zero => ?_, fun c digit => Nat.isDigit_of_mem_toDigits (by decide) (by decide) digit⟩
  rw [List.eq_of_mem_replicate zero]
  decide

theorem int_field : int (field n) = some (n : Int) := by
  have some_ : field n ≠ [] := List.append_ne_nil_of_right_ne_nil _ Nat.toDigits_ne_nil
  rw [int_digits isDigit_field some_, field, zfill, Nat.ofDigitChars_append, Nat.ofDigitChars_replicate_zero, Nat.mul_zero,
    str, Nat.ofDigitChars_ten_toDigits]

theorem length_field : (field n).length = max 10 (Nat.toDigits 10 n).length := by
  simp only [field, zfill, str, List.length_append, List.length_replicate]
  omega

theorem length_field_fits (fits : n < 10 ^ 10) : (field n).length = 10 := by
  have short := (Nat.length_toDigits_le_iff (k := 10) (by decide) (by decide)).mpr fits
  rw [length_field]
  omega

theorem length_field_long (long : 10 ^ 10 ≤ n) : 10 < (field n).length := by
  have wide : ¬ (Nat.toDigits 10 n).length ≤ 10 := fun short =>
    absurd ((Nat.length_toDigits_le_iff (by decide) (by decide)).mp short) (Nat.not_lt.mpr long)
  rw [length_field]
  omega

/-! ### The header of an envelope -/

theorem place_nat (k : Nat) : place buf.length k = min k buf.length := by
  rfl

theorem sliceFrom_nat (i : Nat) (fits : i ≤ buf.length) : sliceFrom buf i = buf.drop i := by
  rw [sliceFrom, place_nat, Nat.min_eq_left fits]

theorem slice_nat (i j : Nat) (fits : j ≤ buf.length) : slice buf i j = (buf.take j).drop i := by
  rw [slice, place_nat, place_nat, Nat.min_eq_left fits]
  rcases Nat.le_total i buf.length with inside | past
  · rw [Nat.min_eq_left inside]
  · have short : (buf.take j).length ≤ buf.length := List.length_take_le' j buf
    rw [Nat.min_eq_right past, List.drop_of_length_le short, List.drop_of_length_le (Nat.le_trans short past)]

def header (n : Nat) : List Char := xmlSandeshOpenAttrLen ++ field n ++ xmlSandeshOpenEnd

theorem wrap_eq : wrap n msg = header n ++ (msg ++ xmlSandeshClose) := by
  have width : xmlSandeshOpen.length - (xmlSandeshOpenAttrLen.length + xmlSandeshOpenEnd.length) = 10 := rfl
  simp [wrap, header, field, width]

theorem length_header (fits : n < 10 ^ 10) : (header n).length = 29 := by
  rw [header, List.length_append, List.length_append, length_field_fits fits]
  rfl

theorem extractSandeshLen_eq (arrived : 29 ≤ buf.length) :
    extractSandeshLen buf =
      if buf.take 17 ≠ xmlSandeshOpenAttrLen then none
      else if (buf.take 29).drop 27 ≠ xmlSandeshOpenEnd then none
      else int ((buf.take 27).drop 17) := by
  have attr : slice buf 0 xmlSandeshOpenAttrLen.length = buf.take 17 := slice_nat 0 17 (by omega)
  have close : slice buf (xmlSandeshOpen.length - xmlSandeshOpenEnd.length) xmlSandeshOpen.length = (buf.take 29).drop 27 :=
    slice_nat 27 29 arrived
  have number : slice buf xmlSandeshOpenAttrLen.length (xmlSandeshOpen.length - xmlSandeshOpenEnd.length) =
      (buf.take 27).drop 17 := slice_nat 17 27 (by omega)
  have enough : ¬ buf.length < xmlSandeshOpen.length := Nat.not_lt.mpr arrived
  rw [extractSandeshLen, if_neg enough, attr, close, number]

theorem front_of_append {a b c d : List Char} (text : a ++ b = c ++ d) (short : c.length ≤ a.length) :
    ∃ tail, a = c ++ tail := by
  obtain ⟨tail, rfl⟩ := List.prefix_of_prefix_length_le (text ▸ List.prefix_append c d) (List.prefix_append a b) short
  exact ⟨tail, rfl⟩

theorem extractSandeshLen_header (fits : n < 10 ^ 10) (arrived : 29 ≤ buf.length) (text : buf ++ rest = header n ++ more) :
    extractSandeshLen buf = some (n : Int) := by
  obtain ⟨tail, rfl⟩ := front_of_append text (by rw [length_header fits]; exact arrived)
  have start : (xmlSandeshOpenAttrLen ++ field n).length = 27 := by
    rw [List.length_append, length_field_fits fits]
    rfl
  have attr : (header n ++ tail).take 17 = xmlSandeshOpenAttrLen := by
    rw [header, List.append_assoc, List.append_assoc]
    exact List.take_left' rfl
  have close : ((header n ++ tail).take 29).drop 27 = xmlSandeshOpenEnd := by
    rw [List.take_left' (length_header fits)]
    exact List.drop_left' start
  have number : ((header n ++ tail).take 27).drop 17 = field n := by
    rw [header, List.append_assoc, List.take_left' start]
    exact List.drop_left' rfl
  rw [extractSandeshLen_eq arrived, attr, close, number, if_neg (not_not.mpr rfl), if_neg (not_not.mpr rfl), int_field]

theorem extractSandeshLen_long (long : 10 ^ 10 ≤ n) (arrived : 29 ≤ buf.length) (text : buf ++ rest = header n ++ more) :
    extractSandeshLen buf = none := by
  have wide := length_field_long long
  rw [extractSandeshLen_eq arrived]
  split
  · rfl
  · refine if_pos fun close => ?_
    -- the eleventh digit stands where the header should end
    have quote : buf[27]? = some '\x22' := by
      have seen := congrArg (·[0]?) close
      simpa [show xmlSandeshOpenEnd[0]? = some '\x22' by decide] using seen
    have digit : buf[27]? = (field n)[10]? := by
      have seen := congrArg (·[27]?) text
      rw [header, List.append_assoc, List.append_assoc] at seen
      rw [List.getElem?_append_left (by omega), List.getElem?_append_right (by decide),
        List.getElem?_append_left (by exact wide)] at seen
      exact seen
    rw [digit] at quote
    exact absurd (isDigit_field _ (List.mem_of_getElem? quote)) (by decide)

/-! ### One turn of the loop -/

structure At (r : SandeshReader) (left : List (List Char)) (rest : List Char) : Prop where
  text : r.readBuf ++ rest = stream left
  known : r.sandeshLen = 0 ∨ ∃ p later, left = p :: later ∧ r.sandeshLen = total p ∧ total p < 10 ^ 10

theorem stream_cons (p : List Char) (later : List (List Char)) :
    stream (p :: later) = header (total p) ++ (p ++ xmlSandeshClose ++ stream later) := by
  rw [stream, List.map_cons, List.flatten_cons, envelope, wrap_eq, List.append_assoc]
  rfl

theorem length_xmlSandeshClose : xmlSandeshClose.length = 10 := rfl

theorem length_envelope (fits : total p < 10 ^ 10) : (envelope p).length = 39 + p.length := by
  rw [envelope, wrap_eq, List.length_append, List.length_append, length_header fits, length_xmlSandeshClose]
  omega

theorem total_eq (p : List Char) : total p = 39 + Chunks.bytes p := by
  change 29 + Chunks.bytes p + 10 = _
  omega

open SandeshReader

theorem extractKnown_short (known : r.sandeshLen = total p)
    (short : r.readBuf.length < total p) : r.extractKnown = .ok (none, r) := by
  rw [extractKnown, if_pos (by omega)]

theorem extractKnown_whole (known : r.sandeshLen = total p)
    (whole : total p ≤ r.readBuf.length) :
    r.extractKnown =
      if (r.readBuf.take (total p)).drop (29 + Chunks.bytes p) ≠ xmlSandeshClose then .error .readErr
      else .ok (some ((r.readBuf.take (29 + Chunks.bytes p)).drop 29), r) := by
  have size := total_eq p
  have before : ((total p : Int) - xmlSandeshClose.length) = ((29 + Chunks.bytes p : Nat) : Int) := by
    rw [length_xmlSandeshClose]
    omega
  have message : slice r.readBuf xmlSandeshOpen.length ((29 + Chunks.bytes p : Nat) : Int) =
      (r.readBuf.take (29 + Chunks.bytes p)).drop 29 := slice_nat 29 _ (by omega)
  rw [extractKnown, known, if_neg (by omega), before, slice_nat _ _ whole, message]

theorem extractSandesh_split (here : At r (p :: later) rest) :
    (10 ^ 10 ≤ total p ∧ r.extractSandesh = .error .readErr) ∨ (r.readBuf.length < 29 ∧ r.extractSandesh = .ok (none, r)) ∨
      total p < 10 ^ 10 ∧ r.extractSandesh = { r with sandeshLen := total p }.extractKnown := by
  have text := here.text
  rw [stream_cons] at text
  have positive := total_eq p
  unfold extractSandesh
  split
  · rcases Nat.lt_or_ge r.readBuf.length 29 with short | arrived
    · have unknown : extractSandeshLen r.readBuf = some 0 := if_pos short
      refine .inr (.inl ⟨short, ?_⟩)
      rw [unknown]
      rfl
    · rcases Nat.lt_or_ge (total p) (10 ^ 10) with fits | long
      · refine .inr (.inr ⟨fits, ?_⟩)
        rw [extractSandeshLen_header fits arrived text]
        exact if_neg (by omega)
      · refine .inl ⟨long, ?_⟩
        rw [extractSandeshLen_long long arrived text]
  · rename_i known
    obtain ⟨q, others, same, length, fits⟩ := here.known.resolve_left known
    cases same
    refine .inr (.inr ⟨fits, ?_⟩)
    rw [← length]

theorem At.nil (here : At r [] rest) : r.readBuf = [] ∧ r.extractSandesh = .ok (none, r) := by
  have empty : r.readBuf = [] := (List.append_eq_nil_iff.mp here.text).1
  have unknown : r.sandeshLen = 0 := here.known.resolve_right fun ⟨p, later, same, _⟩ => by cases same
  refine ⟨empty, ?_⟩
  rw [extractSandesh, if_pos unknown, empty]
  rfl

structure Good (p : List Char) : Prop where
  visible : p ≠ []
  same : Chunks.bytes p = p.length
  fits : total p < 10 ^ 10

theorem At.handle (here : At r (p :: later) rest)
    (good : Good p) (whole : total p ≤ r.readBuf.length) : At ({ r with sandeshLen := total p }.handle p) later rest := by
  refine ⟨?_, .inl rfl⟩
  have length : (envelope p).length = total p := by
    rw [length_envelope good.fits, total_eq, good.same]
  have text := congrArg (List.drop (total p)) here.text
  rw [List.drop_append_of_le_length whole, stream, List.map_cons, List.flatten_cons, List.drop_left' length] at text
  change sliceFrom r.readBuf (total p) ++ rest = stream later
  rw [sliceFrom_nat _ whole]
  exact text

theorem At.waits (here : At r (p :: later) rest)
    (fits : total p < 10 ^ 10) : At { r with sandeshLen := total p } (p :: later) rest :=
  ⟨here.text, .inr ⟨p, later, rfl, rfl, fits⟩⟩

/-! ### What is delivered is good -/

theorem readLoop_cases {turns : Nat} {r final : SandeshReader} (ran : readLoop (turns + 1) r = .ok final) :
    (∃ found, r.extractSandesh = .ok (found, final)) ∨
      ∃ message next, message ≠ [] ∧ r.extractSandesh = .ok (some message, next) ∧
        (final = next.handle message ∨ readLoop turns (next.handle message) = .ok final) := by
  obtain ⟨⟨found, next⟩, extracted, ended⟩ := bind_ok ran
  cases found with
  | none =>
    cases ended
    exact .inl ⟨none, extracted⟩
  | some message =>
    cases message with
    | nil =>
      cases ended
      exact .inl ⟨some [], extracted⟩
    | cons c chars =>
      refine .inr ⟨c :: chars, next, List.cons_ne_nil _ _, extracted, ?_⟩
      dsimp only at ended
      split at ended
      · cases ended
        exact .inl rfl
      · exact .inr ended

theorem extractKnown_same
    (extracted : r.extractKnown = .ok (found, next)) : next = r := by
  unfold extractKnown at extracted
  split at extracted
  · cases extracted
    rfl
  · split at extracted
    · cases extracted
    · cases extracted
      rfl

theorem extractSandesh_handled
    (extracted : r.extractSandesh = .ok (found, next)) : next.handled = r.handled := by
  unfold extractSandesh at extracted
  split at extracted
  · split at extracted
    · cases extracted
    · split at extracted
      · cases extracted
        rfl
      · rw [extractKnown_same extracted]
  · rw [extractKnown_same extracted]

theorem At.extracted (here : At r left rest)
    (extracted : r.extractSandesh = .ok (found, next)) : At next left rest := by
  cases left with
  | nil =>
    rw [here.nil.2] at extracted
    cases extracted
    exact here
  | cons p later =>
    rcases extractSandesh_split here with ⟨_, refused⟩ | ⟨_, nothing⟩ | ⟨small, known⟩
    · rw [refused] at extracted
      cases extracted
    · rw [nothing] at extracted
      cases extracted
      exact here
    · rw [known] at extracted
      rw [extractKnown_same extracted]
      exact here.waits small

theorem readLoop_grows (turns : Nat) (r final : SandeshReader) (ran : readLoop turns r = .ok final) :
    r.handled <+: final.handled := by
  induction turns generalizing r with
  | zero => cases ran
  | succ turns ih =>
    rcases readLoop_cases ran with ⟨_, extracted⟩ | ⟨message, next, _, extracted, ended⟩
    · exact extractSandesh_handled extracted ▸ List.prefix_rfl
    · have first : r.handled <+: (next.handle message).handled :=
        ⟨[message], by rw [handle, extractSandesh_handled extracted]⟩
      rcases ended with rfl | later
      · exact first
      · exact first.trans (ih _ later)

theorem At.handled {message : List Char} (here : At r left rest)
    (some_ : message ≠ []) (extracted : r.extractSandesh = .ok (some message, next))
    (fits : r.handled ++ [message] <+: r.handled ++ left) :
    ∃ later, left = message :: later ∧ Good message ∧ At (next.handle message) later rest := by
  cases left with
  | nil =>
    rw [here.nil.2] at extracted
    cases extracted
  | cons p later =>
    obtain rfl : message = p := by
      have one := (List.prefix_append_right_inj r.handled).mp fits
      exact (List.cons_prefix_cons.mp one).1
    rcases extractSandesh_split here with ⟨_, refused⟩ | ⟨_, nothing⟩ | ⟨small, known⟩
    · rw [refused] at extracted
      cases extracted
    · rw [nothing] at extracted
      cases extracted
    · rw [known] at extracted
      rcases Nat.lt_or_ge r.readBuf.length (total message) with short | whole
      · rw [extractKnown_short (r := { r with sandeshLen := total message }) rfl short] at extracted
        cases extracted
      · rw [extractKnown_whole (r := { r with sandeshLen := total message }) rfl whole] at extracted
        obtain ⟨_, extracted⟩ := of_check extracted
        obtain ⟨found, rfl⟩ := Prod.mk.inj (Except.ok.inj extracted)
        have size := total_eq message
        have length := congrArg List.length (Option.some.inj found)
        rw [List.length_drop, List.length_take] at length
        have good : Good message := ⟨some_, by simp only at whole length; omega, small⟩
        exact ⟨later, rfl, good, here.handle good whole⟩

theorem readLoop_sound (turns : Nat) (r final : SandeshReader) (left : List (List Char)) (here : At r left rest)
    (ran : readLoop turns r = .ok final) (fits : final.handled <+: r.handled ++ left) :
    ∃ done later, left = done ++ later ∧ final.handled = r.handled ++ done ∧ (∀ p ∈ done, Good p) ∧ At final later rest := by
  induction turns generalizing r left with
  | zero => cases ran
  | succ turns ih =>
    rcases readLoop_cases ran with ⟨_, extracted⟩ | ⟨message, next, some_, extracted, ended⟩
    · refine ⟨[], left, rfl, ?_, nofun, ?_⟩
      · rw [extractSandesh_handled extracted, List.append_nil]
      · exact here.extracted extracted
    · have first : (next.handle message).handled = r.handled ++ [message] := by
        rw [handle, extractSandesh_handled extracted]
      have grows : r.handled ++ [message] <+: final.handled := by
        rcases ended with rfl | later
        · exact first ▸ List.prefix_rfl
        · exact first ▸ readLoop_grows turns _ _ later
      obtain ⟨later, rfl, good, there⟩ := here.handled some_ extracted (grows.trans fits)
      rcases ended with rfl | ran
      · exact ⟨[message], later, rfl, first, fun p h => List.mem_singleton.mp h ▸ good, there⟩
      · obtain ⟨done, left, rfl, handled, all, final⟩ := ih _ later there ran (by rw [first, List.append_assoc]; exact fits)
        refine ⟨message :: done, left, rfl, ?_, List.forall_mem_cons.mpr ⟨good, all⟩, final⟩
        rw [handled, first, List.append_assoc]
        rfl

theorem run_sound (segments : List (List Char)) (r final : SandeshReader) (left : List (List Char))
    (here : At r left segments.flatten) (ran : run feed r segments = .ok final)
    (fits : final.handled <+: r.handled ++ left) :
    ∃ done later, left = done ++ later ∧ final.handled = r.handled ++ done ∧ ∀ p ∈ done, Good p := by
  induction segments generalizing r left with
  | nil =>
    cases ran
    exact ⟨[], left, rfl, (List.append_nil _).symm, nofun⟩
  | cons segment segments ih =>
    obtain ⟨middle, fed, ran⟩ := bind_ok ran
    have started : At { r with readBuf := r.readBuf ++ segment } left segments.flatten :=
      ⟨(List.append_assoc _ _ _).trans here.text, here.known⟩
    have grows : middle.handled <+: final.handled := by
      refine run_invariant (fun s => middle.handled <+: s.handled) (fun _ => True) (fun s a next before _ fed => ?_) segments
        middle final List.prefix_rfl (fun _ _ => trivial) ran
      exact before.trans (readLoop_grows _ { s with readBuf := s.readBuf ++ a } next fed)
    obtain ⟨done, later, rfl, handled, good, there⟩ := readLoop_sound _ _ middle left started fed (grows.trans fits)
    obtain ⟨done', later', rfl, handled', good'⟩ := ih middle later there ran (by rw [handled, List.append_assoc]; exact fits)
    refine ⟨done ++ done', later', (List.append_assoc _ _ _).symm, ?_, List.forall_mem_append.mpr ⟨good, good'⟩⟩
    rw [handled', handled, List.append_assoc]

/-! ### What is good is delivered -/

theorem extractSandesh_good (here : At r (p :: later) rest)
    (good : Good p) (whole : total p ≤ r.readBuf.length) :
    r.extractSandesh = .ok (some p, { r with sandeshLen := total p }) := by
  have size := total_eq p
  have same := good.same
  rcases extractSandesh_split here with ⟨long, _⟩ | ⟨short, _⟩ | ⟨_, known⟩
  · exact absurd good.fits (Nat.not_lt.mpr long)
  · omega
  · obtain ⟨tail, cut⟩ := front_of_append here.text (by
      rw [length_envelope good.fits]
      omega)
    have header := length_header good.fits
    rw [envelope, wrap_eq] at cut
    have close : (r.readBuf.take (total p)).drop (29 + Chunks.bytes p) = xmlSandeshClose := by
      rw [cut, List.take_left' (by simp [length_xmlSandeshClose]; omega), ← List.append_assoc]
      exact List.drop_left' (by simp; omega)
    have message : (r.readBuf.take (29 + Chunks.bytes p)).drop 29 = p := by
      rw [cut, ← List.append_assoc, List.append_assoc, List.take_left' (by simp; omega)]
      exact List.drop_left' header
    rw [known, extractKnown_whole (r := { r with sandeshLen := total p }) rfl whole, close, message]
    exact if_neg (not_not.mpr rfl)

def Waits (r : SandeshReader) (left : List (List Char)) : Prop :=
  ∀ p later, left = p :: later → r.readBuf.length < total p

theorem extractSandesh_waits (here : At r left rest) (good : ∀ p ∈ left, Good p) (short : Waits r left) :
    ∃ next, r.extractSandesh = .ok (none, next) ∧ next.readBuf = r.readBuf := by
  cases left with
  | nil => exact ⟨r, here.nil.2, rfl⟩
  | cons p later =>
    rcases extractSandesh_split here with ⟨long, _⟩ | ⟨_, nothing⟩ | ⟨_, known⟩
    · exact absurd (good p List.mem_cons_self).fits (Nat.not_lt.mpr long)
    · exact ⟨r, nothing, rfl⟩
    · exact ⟨_, known.trans (extractKnown_short rfl (short p later rfl)), rfl⟩

theorem readLoop_delivers (turns : Nat) (r : SandeshReader) (left : List (List Char)) (here : At r left rest)
    (good : ∀ p ∈ left, Good p) (enough : r.readBuf.length < turns) :
    ∃ final done later, readLoop turns r = .ok final ∧ left = done ++ later ∧ final.handled = r.handled ++ done ∧
      At final later rest ∧ Waits final later := by
  induction turns generalizing r left with
  | zero => cases enough
  | succ turns ih =>
    by_cases short : Waits r left
    · obtain ⟨next, extracted, buf⟩ := extractSandesh_waits here good short
      refine ⟨next, [], left, ?_, rfl, ?_, here.extracted extracted, fun p others same => buf ▸ short p others same⟩
      · rw [readLoop, extracted]
        rfl
      · rw [extractSandesh_handled extracted, List.append_nil]
    · obtain ⟨p, later, rfl, whole⟩ : ∃ p later, left = p :: later ∧ total p ≤ r.readBuf.length := by
        simpa [Waits] using short
      obtain ⟨first, others⟩ := List.forall_mem_cons.mp good
      obtain ⟨next, same⟩ : ∃ next, next = { r with sandeshLen := total p }.handle p := ⟨_, rfl⟩
      have there : At next later rest := same ▸ here.handle first whole
      have handled : next.handled = r.handled ++ [p] := congrArg SandeshReader.handled same
      have shorter : next.readBuf.length < turns := by
        have size := total_eq p
        have cut : next.readBuf = r.readBuf.drop (total p) := same ▸ sliceFrom_nat _ whole
        rw [cut, List.length_drop]
        omega
      have turn : readLoop (turns + 1) r = if next.readBuf = [] then .ok next else readLoop turns next := by
        obtain ⟨c, chars, rfl⟩ := List.exists_cons_of_ne_nil first.visible
        rw [readLoop, extractSandesh_good here first whole, same]
        rfl
      by_cases empty : next.readBuf = []
      · refine ⟨next, [p], later, turn.trans (if_pos empty), rfl, handled, there, fun q _ _ => ?_⟩
        rw [empty, total_eq]
        exact Nat.lt_of_lt_of_le (by decide) (Nat.le_add_right 39 _)
      · obtain ⟨final, done, left, ran, rfl, grown, after, waits⟩ := ih next later there others shorter
        refine ⟨final, p :: done, left, turn.trans ((if_neg empty).trans ran), rfl, ?_, after, waits⟩
        rw [grown, handled, List.append_assoc]
        rfl

theorem run_delivers (segments : List (List Char)) (r : SandeshReader) (left : List (List Char))
    (here : At r left segments.flatten) (good : ∀ p ∈ left, Good p) (waits : Waits r left) :
    ∃ final, run feed r segments = .ok final ∧ final.handled = r.handled ++ left := by
  induction segments generalizing r left with
  | nil =>
    have text : r.readBuf = stream left := (List.append_nil _).symm.trans here.text
    refine ⟨r, rfl, ?_⟩
    cases left with
    | nil => exact (List.append_nil _).symm
    | cons p others =>
      -- the whole message has arrived
      have short := waits p others rfl
      have first := good p List.mem_cons_self
      rw [text, stream, List.map_cons, List.flatten_cons, List.length_append, length_envelope first.fits, total_eq,
        first.same] at short
      omega
  | cons segment segments ih =>
    have started : At { r with readBuf := r.readBuf ++ segment } left segments.flatten :=
      ⟨(List.append_assoc _ _ _).trans here.text, here.known⟩
    obtain ⟨middle, done, later, fed, rfl, handled, there, waits⟩ :=
      readLoop_delivers ((r.readBuf ++ segment).length + 1) _ left started good (Nat.lt_succ_self _)
    obtain ⟨final, ran, rest⟩ := ih middle later there (List.forall_mem_append.mp good).2 waits
    refine ⟨final, ?_, ?_⟩
    · rw [run, feed, fed]
      exact ran
    · rw [rest, handled, List.append_assoc]

/-! ### Chunks of bytes -/

theorem run_readMsg_iff (chunks : List ByteArray) (r final : SandeshReader) :
    run readMsg r chunks = .ok final ↔
      ∃ segments, Chunks.decodeAll chunks = some segments ∧ run feed r segments = .ok final := by
  induction chunks generalizing r with
  | nil =>
    constructor
    · intro ran
      exact ⟨[], rfl, ran⟩
    · rintro ⟨segments, decoded, ran⟩
      cases decoded
      exact ran
  | cons c chunks ih =>
    constructor
    · intro ran
      obtain ⟨middle, read, ran⟩ := bind_ok ran
      obtain ⟨segments, decoded, ran⟩ := (ih middle).mp ran
      unfold readMsg at read
      split at read
      · cases read
      · rename_i chars first
        refine ⟨chars.toList :: segments, ?_, ?_⟩
        · rw [Chunks.decodeAll, first, decoded]
          rfl
        · rw [run, read]
          exact ran
    · rintro ⟨segments, decoded, ran⟩
      obtain ⟨chars, rest, first, later, rfl⟩ := Chunks.decodeAll_cons decoded
      obtain ⟨middle, fed, ran⟩ := bind_ok ran
      rw [run, readMsg, first]
      change feed r chars.toList >>= _ = _
      rw [fed]
      exact (ih middle).mpr ⟨rest, later, ran⟩

theorem good_iff (p : List Char) : Good p ↔ p ≠ [] ∧ Chunks.Ascii p ∧ total p < 10 ^ 10 := by
  constructor
  · rintro ⟨visible, same, fits⟩
    exact ⟨visible, (Chunks.bytes_eq_length_iff p).mp same, fits⟩
  · rintro ⟨visible, ascii, fits⟩
    exact ⟨visible, (Chunks.bytes_eq_length_iff p).mpr ascii, fits⟩

theorem ascii_of_isDigit (digit : c.isDigit = true) : c.toNat ≤ 127 :=
  Nat.le_trans (range_of_isDigit digit).2 (by decide)

theorem ascii_stream {payloads : List (List Char)} (ascii : ∀ p ∈ payloads, Chunks.Ascii p) :
    Chunks.Ascii (stream payloads) := by
  intro c inside
  obtain ⟨text, wrapped, inside⟩ := List.mem_flatten.mp inside
  obtain ⟨p, here, rfl⟩ := List.mem_map.mp wrapped
  have open_ : Chunks.Ascii xmlSandeshOpenAttrLen := by decide
  have openEnd : Chunks.Ascii xmlSandeshOpenEnd := by decide
  have close : Chunks.Ascii xmlSandeshClose := by decide
  rw [envelope, wrap_eq, header] at inside
  simp only [List.mem_append] at inside
  rcases inside with ((attr | digit) | attr) | message | attr
  · exact open_ c attr
  · exact ascii_of_isDigit (isDigit_field c digit)
  · exact openEnd c attr
  · exact ascii p here c message
  · exact close c attr

theorem encodeSandesh_eq_iff (msg : List Char) : encodeSandesh msg = envelope msg ↔ Chunks.Ascii msg := by
  rw [← Chunks.bytes_eq_length_iff]
  constructor
  · intro same
    rw [encodeSandesh, envelope, wrap_eq, wrap_eq, List.append_left_inj, header, header, List.append_left_inj,
      List.append_right_inj] at same
    have lengths := congrArg int same
    rw [int_field, int_field, Option.some.injEq, total] at lengths
    omega
  · intro same
    rw [encodeSandesh, envelope, total, same]

/-- The messages are handled as they were sent, for a cut of the stream into chunks, and a message that the writer encodes
carries its length in bytes, exactly if every message that is sent has a character, is ASCII and fits the ten digits of
the length, and the encoded message is ASCII. -/
theorem payloads_handled_iff (payloads : List (List Char)) (chunks : List ByteArray)
    (cut : Chunks.joined chunks = (stream payloads).utf8Encode) (msg : List Char) :
    ((∃ r, run readMsg {} chunks = .ok r ∧ r.handled = payloads) ∧ encodeSandesh msg = envelope msg) ↔
      (∀ p ∈ payloads, p ≠ [] ∧ Chunks.Ascii p ∧ total p < 10 ^ 10) ∧ Chunks.Ascii msg := by
  refine and_congr ?_ (encodeSandesh_eq_iff msg)
  simp only [← good_iff]
  constructor
  · rintro ⟨r, ran, handled⟩
    obtain ⟨segments, decoded, ran⟩ := (run_readMsg_iff chunks {} r).mp ran
    have here : At {} payloads segments.flatten := ⟨Chunks.flatten_decodeAll decoded cut, .inl rfl⟩
    obtain ⟨done, later, split, delivered, good⟩ := run_sound segments {} r payloads here ran (handled ▸ List.prefix_rfl)
    have all : done = payloads := delivered.symm.trans handled
    exact all ▸ good
  · intro good
    have ascii : Chunks.Ascii (stream payloads) := ascii_stream fun p inside => ((good_iff p).mp (good p inside)).2.1
    obtain ⟨segments, decoded⟩ := Chunks.decodeAll_ascii ascii cut
    have here : At {} payloads segments.flatten := ⟨Chunks.flatten_decodeAll decoded cut, .inl rfl⟩
    obtain ⟨final, ran, handled⟩ := run_delivers segments {} payloads here good fun p _ _ => by
      rw [total_eq]
      exact Nat.lt_of_lt_of_le (by decide) (Nat.le_add_right 39 _)
    exact ⟨final, (run_readMsg_iff chunks {} final).mpr ⟨segments, decoded, ran⟩, handled⟩

/-- Two messages, sent as one chunk. -/
theorem payloads_handled_two : ∃ r, run readMsg {} [(stream [['a'], ['b', 'c']]).utf8Encode] = .ok r ∧
    r.handled = [['a'], ['b', 'c']] :=
  ((payloads_handled_iff [['a'], ['b', 'c']] [(stream [['a'], ['b', 'c']]).utf8Encode] (ByteArray.append_empty) []).mpr
    ⟨by decide, by decide⟩).1

/-- An empty message ends the loop, and a message with a character of two bytes is waited for without end; the writer gives
the latter a length that is one too small. -/
theorem payloads_lost :
    run readMsg {} [(stream [[]]).utf8Encode] = .ok ⟨stream [[]], 39, []⟩ ∧
      run readMsg {} [(stream [['é']]).utf8Encode] = .ok ⟨stream [['é']], 41, []⟩ ∧
      encodeSandesh ['é'] = wrap 40 ['é'] ∧ envelope ['é'] = wrap 41 ['é'] := by
  refine ⟨?_, ?_, by decide, by decide⟩
  · rw [run_readMsg_iff]
    exact ⟨[stream [[]]], by simp [Chunks.decodeAll], by decide⟩
  · rw [run_readMsg_iff]
    exact ⟨[stream [['é']]], by simp [Chunks.decodeAll], by decide⟩

end TFCommon.Sandesh.Py
