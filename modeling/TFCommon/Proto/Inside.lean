import TFCommon.Proto.Grammar

/-! When the parser stays inside its buffer. A grammar without the parts that may lead it out, for a typed object in a
frame, keeps it inside whatever the bytes are; and so does a message with a length field if the bytes behind the field
are as many as it says. -/
namespace TFCommon.Proto

def Stop.Bad : Stop → Prop
  | .rejected _ _ => False
  | _ => True

def Setter.bytewise : Setter → Bool
  | .vector width _ => width == 1
  | _ => true

def Grammar.takes : Grammar → Bool
  | .element e => decide (0 < e.kSize)
  | .choice c _ => decide (0 < c.kSize)
  | .sequence s _ => decide (0 < s.kSize) && s.kMinOccurs != 0

def Parts.takes : Parts → Bool
  | .nil => false
  | .cons g rest => g.takes || rest.takes

mutual

/-- No `SequenceLength`, no vector of items with several bytes, no sequence with a length field of more than three bytes,
and no sequence without a bound whose occurrences may be empty. -/
def Grammar.plain : Grammar → Bool
  | .element e => !e.sequenceLength && e.setter.bytewise
  | .choice _ alternatives => alternatives.plain
  | .sequence s parts => decide (s.kSize < 4) && (s.kMaxOccurs != -1 || parts.takes) && parts.plain

def Alternatives.plain : Alternatives → Bool
  | .nil => true
  | .cons _ g rest => g.plain && rest.plain

def Parts.plain : Parts → Bool
  | .nil => true
  | .cons g rest => g.plain && rest.plain

end

def field (data : List UInt8) (at_ count : Nat) : Nat :=
  ((data.drop at_).take count).foldl (fun value byte => value * 256 + byte.toNat) 0

/-- A length field that is not there as a whole, or counts at most the bytes behind it, or more than those with itself. -/
def Honest (data : List UInt8) (at_ count : Nat) : Prop :=
  data.length < at_ + count ∨ at_ + count + field data at_ count ≤ data.length ∨ data.length < at_ + field data at_ count

/-- Fields of a fixed size, then an honest `SequenceLength`, and then plain parts. -/
def Parts.Headed (data : List UInt8) : Parts → Nat → Prop
  | .cons (.element e) rest, at_ =>
    0 < e.kSize ∧ e.contextType = false ∧
      if e.sequenceLength then
        e.kSize ≤ 4 ∧ rest.plain = true ∧ Honest data at_ e.kSize.toNat
      else rest.Headed data (at_ + e.kSize.toNat)
  | _, _ => False

def Grammar.Headed (data : List UInt8) : Grammar → Prop
  | .sequence s parts => s.kSize = 0 ∧ s.kMaxOccurs = 1 ∧ parts.Headed data 0
  | _ => False

/-! ### Numbers -/

theorem asInt_small {n : Nat} (small : n < 2 ^ 31) : asInt n = n := by
  unfold asInt
  rw [Nat.mod_eq_of_lt (by omega), if_pos small]

theorem asInt_toNat_le (n : Nat) : (asInt n).toNat ≤ n := by
  unfold asInt
  split <;> omega

theorem le_of_le_asInt {k : Int} {n : Nat} (fits : k ≤ asInt n) : k.toNat ≤ n := by
  have low := asInt_toNat_le n
  omega

theorem subSize_eq {size result : Nat} (taken : result ≤ size) (small : size < 2 ^ 64) : subSize size result = size - result := by
  unfold subSize
  omega

theorem foldl_lt (bytes : List UInt8) (value : Nat) :
    bytes.foldl (fun value byte => value * 256 + byte.toNat) value < (value + 1) * 256 ^ bytes.length := by
  induction bytes generalizing value with
  | nil => simp
  | cons byte bytes ih =>
    have low := byte.toNat_lt
    calc _ < (value * 256 + byte.toNat + 1) * 256 ^ bytes.length := ih _
      _ ≤ ((value + 1) * 256) * 256 ^ bytes.length := Nat.mul_le_mul_right _ (by omega)
      _ = (value + 1) * 256 ^ (byte :: bytes).length := by
        rw [List.length_cons, Nat.pow_succ, Nat.mul_comm (256 ^ bytes.length), ← Nat.mul_assoc]

theorem foldl_mod (bytes : List UInt8) (value : Nat) (fits : (value + 1) * 256 ^ bytes.length ≤ 2 ^ 64) :
    bytes.foldl (fun value byte => (value * 256 + byte.toNat) % 2 ^ 64) value =
      bytes.foldl (fun value byte => value * 256 + byte.toNat) value := by
  induction bytes generalizing value with
  | nil => rfl
  | cons byte bytes ih =>
    have low := byte.toNat_lt
    have positive : 1 ≤ 256 ^ bytes.length := Nat.one_le_pow _ _ (by decide)
    have next : (value * 256 + byte.toNat + 1) * 256 ^ bytes.length ≤ 2 ^ 64 := by
      refine Nat.le_trans ?_ fits
      rw [List.length_cons, Nat.pow_succ, Nat.mul_comm (256 ^ bytes.length), ← Nat.mul_assoc]
      exact Nat.mul_le_mul_right _ (by omega)
    have small : value * 256 + byte.toNat < 2 ^ 64 := by
      have := Nat.le_trans (Nat.le_mul_of_pos_right (value * 256 + byte.toNat + 1) positive) next
      omega
    rw [List.foldl_cons, List.foldl_cons, Nat.mod_eq_of_lt small]
    exact ih _ next

/-! ### Elements -/

abbrev Steady (post : α → Prop) (program : Parser α) : Prop := Keeps (·.stack ≠ []) id Stop.Bad program post

variable {data : List UInt8} {at_ size : Nat} {setter : Setter} {e : Element}

theorem rejectIf_steady {condition : Prop} [Decidable condition] : Steady (fun _ => ¬ condition) (rejectIf condition) :=
  Keeps.ite (fun _ => Keeps.fail id) (fun fails => Keeps.pure fails)

theorem demand_steady {condition : Prop} [Decidable condition] {stop : Stop} (holds : condition) :
    Steady (fun _ => True) (demand condition stop) :=
  Keeps.ite (fun _ => Keeps.pure trivial) (fun fails => absurd holds fails)

theorem onlyIf_steady {condition : Prop} [Decidable condition] {program : Parser Unit}
    (steady : condition → Steady (fun _ => True) program) : Steady (fun _ => True) (onlyIf condition program) :=
  Keeps.ite steady (fun _ => Keeps.pure trivial)

theorem bytes_steady {count : Nat} (inside : at_ + count ≤ data.length) :
    Steady (· = (data.drop at_).take count) (bytes data at_ count) := by
  unfold bytes
  rw [if_pos (.inr inside)]
  exact Keeps.pure rfl

theorem getValue_steady {count : Int} (inside : at_ + count.toNat ≤ data.length) :
    Steady (fun value => count ≤ 8 → value = field data at_ count.toNat) (getValue data at_ count) := by
  refine Keeps.ite (fun few => (bytes_steady inside).bind fun read same => Keeps.pure fun _ => ?_)
    (fun many => Keeps.pure fun few => absurd few many)
  rw [same, field]
  refine foldl_mod _ _ ?_
  have width : ((data.drop at_).take count.toNat).length ≤ 8 := by
    rw [List.length_take]
    omega
  calc _ = 256 ^ ((data.drop at_).take count.toNat).length := Nat.one_mul _
    _ ≤ 256 ^ 8 := Nat.pow_le_pow_right (by decide) width
    _ = 2 ^ 64 := by decide

theorem field_lt (count : Nat) : field data at_ count < 256 ^ count := by
  refine Nat.lt_of_lt_of_le (foldl_lt _ 0) ?_
  rw [Nat.zero_add, Nat.one_mul]
  exact Nat.pow_le_pow_right (by decide) (by rw [List.length_take]; omega)

theorem setMember_steady {amount : Nat} (bytewise : setter.bytewise = true) (inside : at_ + amount ≤ data.length) :
    Steady (fun _ => True) (setMember data setter at_ amount) := by
  unfold setMember
  split
  · rename_i width positive
    obtain rfl : width = 1 := by simpa [Setter.bytewise] using bytewise
    have same : vectorBytes amount 1 = amount := by simp [vectorBytes]
    exact demand_steady (by omega)
  · exact (bytes_steady inside).bind fun _ _ => Keeps.pure trivial

theorem variableLengthSetter_steady (bytewise : setter.bytewise = true) (inside : at_ + size ≤ data.length)
    (small : size < 2 ^ 31) : Steady (· ≤ size) (variableLengthSetter data setter at_ size) := by
  refine Keeps.read.bind fun c _ => Keeps.ite (fun unknown => ?_) (fun known => ?_)
  · have same := asInt_small small
    refine (demand_steady (by omega)).bind fun _ _ => (setMember_steady bytewise (by omega)).bind fun _ _ => ?_
    exact Keeps.pure (by omega)
  · refine rejectIf_steady.bind fun _ enough => ?_
    exact (setMember_steady bytewise (by omega)).bind fun _ _ => Keeps.pure (Nat.not_lt.mp enough)

theorem setElement_fixed (fixed : 0 < e.kSize) (inside : at_ + e.kSize.toNat ≤ data.length) :
    Steady (· = e.kSize.toNat) (setElement data e at_ size) := by
  unfold setElement
  rw [if_neg (by omega), if_pos fixed]
  split
  · exact Keeps.pure rfl
  · exact (getValue_steady inside).bind fun _ _ => Keeps.pure rfl

theorem setElement_free (free : ¬ 0 < e.kSize) (bytewise : e.setter.bytewise = true) (inside : at_ + size ≤ data.length)
    (small : size < 2 ^ 31) : Steady (· ≤ size) (setElement data e at_ size) := by
  refine Keeps.ite (fun _ => ?_) (fun _ => ?_)
  · split
    · exact Keeps.pure (Nat.zero_le _)
    · exact variableLengthSetter_steady bytewise inside small
  · rw [if_neg free]
    split
    · exact Keeps.fail id
    · exact Keeps.pure (Nat.zero_le _)

theorem parseElement_fixed (fixed : 0 < e.kSize) (plain : e.sequenceLength = false) (inside : at_ + size ≤ data.length) :
    Steady (fun n => n = e.kSize.toNat ∧ n ≤ size) (parseElement data e at_ size) := by
  refine rejectIf_steady.bind fun _ enough => ?_
  have fits : e.kSize.toNat ≤ size := le_of_le_asInt (by omega)
  refine (onlyIf_steady fun length => absurd (plain.symm.trans length) (by decide)).bind fun _ _ => ?_
  exact (setElement_fixed fixed (by omega)).mono fun n same => ⟨same, same ▸ fits⟩

theorem parseElement_steady (plain : (Grammar.element e).plain = true) (inside : at_ + size ≤ data.length)
    (small : size < 2 ^ 31) :
    Steady (fun n => n ≤ size ∧ ((Grammar.element e).takes = true → 0 < n)) (parseElement data e at_ size) := by
  simp only [Grammar.plain, Bool.and_eq_true, Bool.not_eq_true'] at plain
  simp only [Grammar.takes, decide_eq_true_eq]
  by_cases fixed : 0 < e.kSize
  · exact (parseElement_fixed fixed plain.1 inside).mono fun n taken => ⟨taken.2, by omega⟩
  · refine rejectIf_steady.bind fun _ _ => ?_
    refine (onlyIf_steady fun length => absurd (plain.1.symm.trans length) (by decide)).bind fun _ _ => ?_
    exact (setElement_free fixed plain.2 inside small).mono fun n taken => ⟨taken, fun takes => absurd takes fixed⟩

/-! ### Choices and sequences -/

/-- A program that changes no frame but the one on top. -/
abbrev Framed (post : α → Prop) (program : Parser α) : Prop := Keeps (·.stack ≠ []) (·.stack.tail) Stop.Bad program post

variable {c c' : ParseContext} {contextStorer : Bool} {child parts : Parser Nat} {post : Nat → Prop}

theorem setTop_filled {change : Frame → Frame} (filled : c.stack ≠ []) : (c.setTop change).stack ≠ [] := by
  unfold ParseContext.setTop
  split
  · exact filled
  · exact List.cons_ne_nil _ _

theorem setTop_tail {change : Frame → Frame} : (c.setTop change).stack.tail = c.stack.tail := by
  unfold ParseContext.setTop
  split
  · rfl
  · rename_i stack
    rw [stack]
    rfl

theorem contextPop_pushed (filled : c.stack ≠ []) (pushed : c'.stack.tail = c.stack) :
    contextPop contextStorer c' = .ok ((), c) := by
  have deep : 2 ≤ c'.stack.length := by
    have some_ := List.length_pos_iff.mpr filled
    rw [← pushed, List.length_tail] at some_
    omega
  have popped : c'.pop = c := by
    rw [ParseContext.pop, if_neg (by omega), pushed]
  have ran : onlyIf contextStorer (demand (2 ≤ c'.stack.length) .assertion) c' = .ok ((), c') := by
    unfold onlyIf demand
    rw [if_pos deep, ite_self]
    rfl
  show (onlyIf contextStorer _ c' >>= fun _ => .ok ((), c'.pop)) = _
  rw [ran, popped]
  rfl

theorem contextPop_restores {result : Nat} (filled : c.stack ≠ []) (pushed : c'.stack.tail = c.stack) (holds : post result) :
    Verdict (fun r => post r.1 ∧ r.2.stack ≠ [] ∧ r.2 = c) Stop.Bad ((contextPop contextStorer >>= fun _ => pure result) c') := by
  show Verdict _ _ (contextPop contextStorer c' >>= fun done => .ok (result, done.2))
  rw [contextPop_pushed filled pushed]
  exact ⟨holds, filled, rfl⟩

theorem descend_steady {contextType : Bool} (steady : Steady post child) : Steady post (descend contextStorer contextType child) := by
  cases contextType with
  | false => exact steady
  | true =>
    intro c filled
    refine Verdict.bind (steady.blur (·.stack.tail) (c.push {}) (List.cons_ne_nil _ _)) fun r kept => ?_
    exact contextPop_restores filled kept.2.2 kept.1

theorem refail_framed (framed : Framed post parts) : Framed post (refail parts) := by
  intro c filled
  have verdict := framed c filled
  unfold refail
  cases ran : parts c with
  | ok r =>
    rw [ran] at verdict
    exact verdict
  | error stop =>
    rw [ran] at verdict
    cases stop with
    | rejected code negative => exact id
    | _ => exact absurd trivial verdict

theorem occurrence_steady (framed : Framed post parts) : Steady post (occurrence true contextStorer parts) := by
  intro c filled
  refine Verdict.bind (refail_framed framed (c.push {}) (List.cons_ne_nil _ _)) fun r kept => ?_
  refine Keeps.afterGet (rejectIf_steady.andThen kept.2.1 fun _ _ => ?_)
  exact contextPop_restores filled kept.2.2 kept.1

theorem occurrences_steady {body : Nat → Nat → Parser Nat} {unbounded : Bool} (turns : Nat) {length : Nat}
    (steady : ∀ at_ length, at_ + length ≤ data.length →
      Steady (fun n => n ≤ length ∧ (unbounded = true → 0 < n)) (body at_ length))
    (inside : at_ + length ≤ data.length) : Steady (· ≤ length) (occurrences body unbounded turns at_ length) := by
  induction turns generalizing at_ length with
  | zero => exact Keeps.pure (Nat.zero_le _)
  | succ turns ih =>
    refine Keeps.ite (fun _ => Keeps.pure (Nat.zero_le _)) (fun _ => ?_)
    refine (steady at_ length inside).bind fun sublen taken => ?_
    refine (onlyIf_steady fun endless => demand_steady (taken.2 endless)).bind fun _ _ => ?_
    refine (ih (by omega)).bind fun later rest => Keeps.pure ?_
    omega

theorem sequenceLength_steady {kSize : Nat} (few : kSize < 4) (inside : at_ + size ≤ data.length) :
    Steady (fun length => kSize + length.toNat ≤ size) (sequenceLength data kSize at_ size) := by
  refine Keeps.ite (fun none_ => ?_) (fun _ => ?_)
  · have low := asInt_toNat_le size
    exact Keeps.pure (by omega)
  · refine rejectIf_steady.bind fun _ enough => ?_
    refine (getValue_steady (by omega)).bind fun value same => ?_
    have small : value < 2 ^ 31 := by
      rw [same (by omega)]
      refine Nat.lt_of_lt_of_le (field_lt _) ?_
      calc 256 ^ (kSize : Int).toNat ≤ 256 ^ 3 := Nat.pow_le_pow_right (by decide) (by omega)
        _ ≤ 2 ^ 31 := by decide
    have same := asInt_small small
    refine (demand_steady (by omega)).bind fun _ _ => ?_
    exact rejectIf_steady.bind fun _ fits => Keeps.pure (by omega)

/-- The parts behind one that has taken some bytes. Unless it has changed the size of the frame, they have what is left. -/
theorem rest_framed {prevSize result : Nat} {rest : Nat → Parser Nat} (taken : result ≤ size) (small : size < 2 ^ 31)
    (filled : c.stack ≠ [])
    (later : Framed post (rest (if c.size = prevSize then size - result else c.size))) :
    Verdict (fun r => (∃ n, post n ∧ r.1 = result + n) ∧ r.2.stack ≠ [] ∧ r.2.stack.tail = c.stack.tail) Stop.Bad
      ((takeSize prevSize size result >>= fun left => rest left >>= fun n => pure (result + n)) c) := by
  have after : ∀ c' : ParseContext, c'.stack ≠ [] → c'.stack.tail = c.stack.tail →
      Verdict (fun r => (∃ n, post n ∧ r.1 = result + n) ∧ r.2.stack ≠ [] ∧ r.2.stack.tail = c.stack.tail) Stop.Bad
        ((rest (if c.size = prevSize then size - result else c.size) >>= fun n => pure (result + n)) c') := by
    intro c' filled' tail
    exact (later c' filled').bind fun r kept => ⟨⟨r.1, kept.1, rfl⟩, kept.2.1, kept.2.2.trans tail⟩
  by_cases same : c.size = prevSize
  · have left := subSize_eq taken (Nat.lt_trans small (by decide))
    rw [if_pos same, ← left] at after
    have ran : takeSize prevSize size result c = .ok (subSize size result, c.setSize (subSize prevSize result)) := by
      show ite _ _ (_ : Parser Nat) c = _
      rw [if_neg (not_not.mpr same)]
      rfl
    show Verdict _ _ (takeSize prevSize size result c >>= _)
    rw [ran]
    exact after _ (setTop_filled filled) setTop_tail
  · rw [if_neg same] at after
    have ran : takeSize prevSize size result c = .ok (c.size, c) := by
      show ite _ _ (_ : Parser Nat) c = _
      rw [if_pos same]
      rfl
    show Verdict _ _ (takeSize prevSize size result c >>= _)
    rw [ran]
    exact after _ filled rfl

mutual

theorem parse_steady (g : Grammar) (plain : g.plain = true) (at_ size : Nat) (inside : at_ + size ≤ data.length)
    (small : data.length < 2 ^ 31) :
    Steady (fun n => n ≤ size ∧ (g.takes = true → 0 < n)) (parse data true g at_ size) := by
  cases g with
  | element e =>
    rw [parse]
    exact parseElement_steady plain inside (by omega)
  | choice c alternatives =>
    rw [parse]
    simp only [Grammar.takes, decide_eq_true_eq]
    refine rejectIf_steady.bind fun _ enough => ?_
    refine (getValue_steady (by omega)).bind fun value _ => ?_
    refine (parseChoice_steady _ _ alternatives plain _ _ (by omega) small).bind fun result taken => ?_
    exact Keeps.pure (by omega)
  | sequence s parts =>
    rw [parse]
    simp only [Grammar.plain, Bool.and_eq_true, Bool.or_eq_true, bne_iff_ne, ne_eq, decide_eq_true_eq] at plain
    obtain ⟨⟨few, bounded⟩, plain⟩ := plain
    simp only [Grammar.takes, Bool.and_eq_true, decide_eq_true_eq, bne_iff_ne, ne_eq]
    refine Keeps.ite (fun empty => Keeps.pure ⟨Nat.zero_le _, fun takes => absurd empty.1 takes.2⟩) (fun _ => ?_)
    refine (sequenceLength_steady few inside).bind fun length fits => ?_
    have body (at_ length : Nat) (inside : at_ + length ≤ data.length) :
        Steady (fun n => n ≤ length ∧ (decide (s.kMaxOccurs = -1) = true → 0 < n))
          (occurrence true s.contextStorer (parseParts data true s.contextStorer parts at_ length)) := by
      refine occurrence_steady ((parseParts_framed s.contextStorer parts plain at_ length inside small).mono ?_)
      intro n taken
      refine ⟨taken.1, fun unbounded => taken.2 (bounded.resolve_left fun other => ?_)⟩
      exact other (by simpa using unbounded)
    refine (occurrences_steady _ body (by omega)).bind fun result taken => Keeps.pure ?_
    omega

theorem parseChoice_steady (contextStorer : Bool) (value : Int) (alternatives : Alternatives)
    (plain : alternatives.plain = true) (at_ size : Nat) (inside : at_ + size ≤ data.length) (small : data.length < 2 ^ 31) :
    Steady (· ≤ size) (parseChoice data true contextStorer value alternatives at_ size) := by
  cases alternatives with
  | nil =>
    rw [parseChoice]
    exact Keeps.fail id
  | cons first g rest =>
    rw [parseChoice]
    simp only [Alternatives.plain, Bool.and_eq_true] at plain
    refine Keeps.ite (fun _ => ?_) (fun _ => ?_)
    · exact parseChoice_steady contextStorer value rest plain.2 at_ size inside small
    · exact descend_steady ((parse_steady g plain.1 at_ size inside small).mono fun _ taken => taken.1)

theorem parseParts_framed (contextStorer : Bool) (parts : Parts) (plain : parts.plain = true) (at_ size : Nat)
    (inside : at_ + size ≤ data.length) (small : data.length < 2 ^ 31) :
    Framed (fun n => n ≤ size ∧ (parts.takes = true → 0 < n)) (parseParts data true contextStorer parts at_ size) := by
  cases parts with
  | nil =>
    rw [parseParts]
    exact Keeps.pure ⟨Nat.zero_le _, nofun⟩
  | cons g rest =>
    rw [parseParts]
    simp only [Parts.plain, Bool.and_eq_true] at plain
    simp only [Parts.takes, Bool.or_eq_true]
    intro c filled
    refine Keeps.afterGet ((descend_steady (parse_steady g plain.1 at_ size inside small)).andThen filled fun result taken => ?_)
    obtain ⟨taken, takes⟩ := taken
    have later := parseParts_framed contextStorer rest plain.2 (at_ + result) (size - result) (by omega) small
    refine (rest_framed taken (by omega) filled (by rwa [if_pos rfl])).imp ?_
    rintro ⟨_, c'⟩ ⟨⟨n, ⟨most, more⟩, rfl⟩, kept⟩
    refine ⟨⟨by omega, ?_⟩, kept⟩
    rintro (first | other)
    · exact Nat.add_pos_left (takes first) _
    · exact Nat.add_pos_right _ (more other)

end

/-! ### Length fields -/

end TFCommon.Proto
