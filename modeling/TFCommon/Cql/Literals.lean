import TFCommon.Cql.Statements

/-! The literals of a statement: every value is one token that denotes it, and the other tokens do not depend on the values,
exactly when the values are plain. -/
namespace TFCommon.Cql
open Lexing

/-! ### Pieces and their tokens -/

def Operator.token (o : Operator) : Token :=
  match o with
  | .like | .contains => .word o.toString
  | _ => .symbol o.toString

def Piece.Accepts : Piece → List Token → Prop
  | .space, own => own = []
  | .symbol s, own => own = [.symbol [s.char]]
  | .word name, own => own = [.word name.val]
  | .number i, own => own = [.number (intText i)]
  | .operator o, own => own = [o.token]
  | .value v, own => v.Accepts own
  | .columnName v, own => own = [.quotedName (cassQueryPrinter false v)]

def Piece.Plain : Piece → Prop
  | .value v => v.Plain
  | .columnName v => v.PlainName
  | _ => True

def Piece.opens : Piece → Bool
  | .space | .symbol _ => true
  | _ => false

def Piece.closes : Piece → Bool
  | .space | .symbol _ | .operator _ => true
  | _ => false

theorem Piece.width (p : Piece) (own own' : List Token) (first : p.Accepts own) (second : p.Accepts own') :
    own.length = own'.length := by
  cases p with
  | value v => exact width_accepts first second
  | _ => rw [first, second]

variable {rest : List Char}

theorem delimited_cons {c : Char} (stop : c ∈ delimiters) : Delimited (c :: rest) := by
  intro d head
  cases head
  exact stop

theorem Symbol.stops (s : Symbol) : s.char ∈ delimiters := by
  cases s <;> decide

theorem delimited_of_opens {back : List Piece} (start : Opens Piece.opens back) : Delimited (text back) := by
  cases back with
  | nil =>
    intro c head
    cases head
  | cons q back =>
    have soft := start q rfl
    cases q with
    | space => exact delimited_cons (by decide)
    | symbol s => exact delimited_cons s.stops
    | _ => cases soft

theorem Operator.emits (o : Operator) : Emits scan (o.toString ++ [' ']) [o.token] rest := by
  have blank : Delimited ([' '] ++ rest) := delimited_cons (by decide)
  have own : Emits scan o.toString [o.token] ([' '] ++ rest) := by
    cases o with
    | ge => exact emits_angle_equals (.inr rfl)
    | gt => exact emits_angle (.inr rfl) (by simp)
    | le => exact emits_angle_equals (.inl rfl)
    | lt => exact emits_angle (.inl rfl) (by simp)
    | eq => exact emits_delimiter (by decide)
    | like | contains => exact emits_word (by decide) (List.all_eq_true.mp (by decide)) blank
  exact own.append emits_space

theorem Name.emits (name : Name) (delimited : Delimited rest) : Emits scan name.val [.word name.val] rest := by
  obtain ⟨text, valid⟩ := name
  cases text with
  | nil => cases valid
  | cons c text =>
    obtain ⟨letter, ident⟩ := Bool.and_eq_true_iff.mp valid
    exact emits_word letter (List.all_eq_true.mp ident) delimited

theorem Piece.emits {p : Piece} (plain : p.Plain) (delimited : p.closes = false → Delimited rest) :
    ∃ own, p.Accepts own ∧ Emits scan p.text own rest := by
  cases p with
  | space => exact ⟨_, rfl, emits_space⟩
  | symbol s => exact ⟨_, rfl, emits_delimiter (by cases s <;> decide)⟩
  | word name => exact ⟨_, rfl, Name.emits name (delimited rfl)⟩
  | number i => exact ⟨_, rfl, emits_intText i (delimited rfl)⟩
  | operator o => exact ⟨_, rfl, o.emits⟩
  | value v => exact value_emits plain (delimited rfl)
  | columnName v =>
    exact ⟨_, rfl, quotation_quotedName.emits (by decide) (quote_not_mem plain) (delimited rfl)⟩

theorem Piece.denied {p : Piece} (loud : ¬ p.Plain) (delimited : p.closes = false → Delimited rest) (own others : List Token)
    (accepted : p.Accepts own) : lex scan (p.text ++ rest) ≠ some (own ++ others) := by
  cases p with
  | value v => exact value_denied loud (delimited rfl) own others accepted
  | columnName v =>
    cases v with
    | string s =>
      rw [accepted]
      exact quotation_quotedName.denied (fun _ _ => Token.quotedName.inj) (by decide) (not_not.mp loud) (delimited rfl) others
    | _ => exact absurd trivial loud
  | _ => exact absurd trivial loud

variable {pieces : List Piece}

theorem lex_text_iff (separated : Separated Piece.opens Piece.closes pieces) :
    (∃ tokens, lex scan (text pieces) = some tokens ∧ Matches Piece.Accepts pieces tokens) ↔ ∀ p ∈ pieces, p.Plain := by
  have behind : ∀ {front p back}, pieces = front ++ p :: back → p.closes = false → Delimited (text back) := by
    rintro front p back rfl hard
    exact delimited_of_opens (separated.behind hard)
  apply matches_iff Piece.width pieces
  · intro front p back split plain
    exact Piece.emits plain (behind split)
  · intro front p back split loud
    exact Piece.denied loud (behind split)

/-! ### The pieces of a statement are separated -/

abbrev Sep (pieces : List Piece) : Prop := Separated Piece.opens Piece.closes pieces

structure Soft (pieces : List Piece) : Prop where
  sep : Sep pieces
  opens : Opens Piece.opens pieces

section soft
variable {ps qs : List Piece} {p : Piece}

theorem soft_nil : Soft [] := ⟨List.IsChain.nil, fun _ none => by cases none⟩

theorem soft_cons (start : p.opens = true) (sep : Sep (p :: ps)) : Soft (p :: ps) := by
  refine ⟨sep, fun q head => ?_⟩
  cases head
  exact start

theorem Soft.append (first : Soft ps) (second : Soft qs) : Soft (ps ++ qs) :=
  ⟨first.sep.append_opens second.sep second.opens, first.opens.append second.opens⟩

theorem append_soft (first : Sep ps) (second : Soft qs) : Sep (ps ++ qs) :=
  first.append_opens second.sep second.opens

theorem Soft.closing (first : Soft (p :: ps)) (finish : Closes Piece.closes (p :: ps)) (second : Sep qs) :
    Soft (p :: ps ++ qs) :=
  ⟨first.sep.append_closes finish second, first.opens⟩

theorem soft_flatMap {A : Type} {f : A → List Piece} {l : List A} (each : ∀ a ∈ l, Soft (f a)) : Soft (l.flatMap f) :=
  ⟨separated_flatMap_opens (fun a inside => (each a inside).sep) (fun a inside => (each a inside).opens),
    opens_flatMap fun a inside => (each a inside).opens⟩

theorem soft_comma (p : Piece) : Soft (comma ++ [p]) :=
  soft_cons rfl (by simp [Sep, Separated, Piece.closes])

end soft

section segments
variable {A : Type} {f : Nat → A → Piece}

theorem sep_items (i : Nat) (l : List A) : Sep (items f i l) ∧ (i ≠ 0 → Soft (items f i l)) := by
  induction l generalizing i with
  | nil => exact ⟨List.IsChain.nil, fun _ => soft_nil⟩
  | cons a l ih =>
    have later : Soft (items f (i + 1) l) := (ih (i + 1)).2 (Nat.succ_ne_zero i)
    have tail : Soft (comma ++ [f i a] ++ items f (i + 1) l) := (soft_comma (f i a)).append later
    have bare : Sep ([f i a] ++ items f (i + 1) l) := append_soft (List.IsChain.singleton _) later
    rw [items]
    constructor
    · split
      · exact bare
      · exact tail.sep
    · intro positive
      rw [if_neg positive]
      exact tail

theorem soft_usingTtl (ttl : Int) : Soft (.symbol .right :: usingTtl ttl) := by
  apply soft_cons rfl
  unfold usingTtl
  split
  · simp [Separated, keyword, Piece.opens, Piece.closes]
  · simp [Separated]

theorem sep_insertInto (table : Name) : Sep (insertInto table) ∧ Closes Piece.closes (insertInto table) := by
  simp [Separated, Closes, insertInto, keyword, Piece.opens, Piece.closes]

theorem soft_values {values : List Piece} (sep : Sep values) :
    Soft ([.symbol .right, .space, keyword "VALUES", .space, .symbol .left] ++ values) := by
  refine Soft.closing (soft_cons rfl ?_) ?_ sep
  · simp [Separated, keyword, Piece.opens, Piece.closes]
  · simp [Closes, Piece.closes]

theorem sep_static {v : ColList} (built : staticCf2CassInsertIntoTable v = some pieces) :
    Sep pieces := by
  obtain ⟨columns, _, same⟩ := Option.bind_eq_some_iff.mp built
  cases same
  obtain ⟨into, left⟩ := sep_insertInto v.cfname
  have values : Soft (columns.flatMap fun column => comma ++ [.value column.2]) := soft_flatMap fun column _ => soft_comma _
  have names : Soft (columns.flatMap fun column => comma ++ [.columnName column.1]) :=
    soft_flatMap fun column _ => soft_comma _
  apply into.append_closes left
  apply append_soft (sep_items 0 v.rowkey).1
  refine names.append (soft_values ?_)
  exact append_soft (sep_items 0 v.rowkey).1 (values.append (soft_usingTtl _))

theorem soft_columnNames (i : Nat) (l : List DbDataValue) : Soft (columnNames i l) := by
  induction l generalizing i with
  | nil => exact soft_nil
  | cons v l ih =>
    rw [columnNames]
    split
    · exact ih (i + 1)
    · exact (soft_comma _).append (ih (i + 1))

theorem closes_value_comma (v : DbDataValue) :
    Sep (.value v :: comma) ∧ Closes Piece.closes (.value v :: comma) := by
  simp [Separated, Closes, comma, Piece.opens, Piece.closes]

theorem sep_columnValues (l : List DbDataValue) : Sep (columnValues l) := by
  induction l with
  | nil => exact List.IsChain.nil
  | cons v l ih =>
    cases l with
    | nil =>
      rw [columnValues]
      split
      · exact List.IsChain.nil
      · exact List.IsChain.singleton _
    | cons w l =>
      rw [columnValues]
      split
      · exact ih
      · exact (closes_value_comma v).1.append_closes (closes_value_comma v).2 ih

theorem sep_dynamic {v : ColList} (built : dynamicCf2CassInsertIntoTable v = some pieces) :
    Sep pieces := by
  unfold dynamicCf2CassInsertIntoTable at built
  split at built
  · rename_i column _
    split at built
    · cases built
      obtain ⟨into, left⟩ := sep_insertInto v.cfname
      have value : Soft ((column.value.take 1).flatMap fun v => comma ++ [.value v]) := soft_flatMap fun v _ => soft_comma _
      have keyValues : Sep (v.rowkey.flatMap fun v => .value v :: comma) :=
        separated_flatMap_closes (fun v _ => (closes_value_comma v).1) (fun v _ => (closes_value_comma v).2)
      have valueName : Soft (if column.value = [] then [] else comma ++ [keyword "value"]) := by
        split
        · exact soft_nil
        · exact soft_comma _
      apply into.append_closes left
      apply append_soft (sep_items 0 v.rowkey).1
      refine (soft_columnNames 0 column.name).append (valueName.append (soft_values ?_))
      apply keyValues.append_closes (closes_flatMap fun v _ => (closes_value_comma v).2)
      exact append_soft (sep_columnValues column.name) (value.append (soft_usingTtl column.ttl))
    · cases built
  · cases built

/-! ### The segments of a SELECT -/

theorem sep_fields (table : Name) (readVec : List FieldNamesToReadInfo) : Sep (fields table readVec) := by
  have each : ∀ field, Sep (fieldName field) ∧ Closes Piece.closes (fieldName field) := by
    intro field
    unfold fieldName
    split
    · simp [Separated, Closes, keyword, Piece.opens, Piece.closes]
    · simp [Separated, Closes, Piece.opens, Piece.closes]
  have names : Sep (readVec.flatMap fieldName).dropLast :=
    (separated_flatMap_closes (fun field _ => (each field).1) (fun field _ => (each field).2)).dropLast
  unfold fields
  split
  · simp [Separated, keyword, Piece.opens, Piece.closes]
  · have select : Sep [keyword "SELECT", .space] := by simp [Separated, Piece.opens]
    apply select.append_closes (by simp [Closes, Piece.closes])
    apply append_soft names
    exact soft_cons rfl (by simp [Separated, keyword, Piece.opens, Piece.closes])

theorem soft_keyParts (i : Nat) (l : List DbDataValue) : Soft (keyParts i l) := by
  induction l generalizing i with
  | nil => exact soft_nil
  | cons v l ih =>
    refine Soft.append (soft_cons rfl ?_) (ih (i + 1))
    simp [Separated, Piece.opens, Piece.closes]

theorem soft_rowKeys {rkeys : List (List DbDataValue)} (built : rowKeys rkeys = some pieces) :
    Soft pieces := by
  unfold rowKeys at built
  split at built
  · cases built
    exact soft_nil
  · cases built
    exact soft_keyParts 0 _
  · obtain ⟨keys, _, same⟩ := Option.bind_eq_some_iff.mp built
    cases same
    have list : Sep (keys.flatMap fun v => [.value v, .symbol .comma]).dropLast := by
      apply Separated.dropLast
      apply separated_flatMap_closes
      · simp [Separated, Piece.opens]
      · simp [Closes, Piece.closes]
    refine Soft.closing (soft_cons rfl ?_) ?_ (append_soft list (soft_cons rfl (List.IsChain.singleton _)))
    · simp [Separated, keyword, Piece.opens, Piece.closes]
    · simp [Closes, Piece.closes]

theorem soft_whereIndex {info : WhereIndexInfo} (built : whereIndex info = some pieces) :
    Soft pieces := by
  obtain ⟨op, _, same⟩ := Option.bind_eq_some_iff.mp built
  cases same
  exact soft_cons rfl (by simp [Separated, keyword, Piece.opens, Piece.closes])

theorem soft_rangeEnd {values : List DbDataValue} {op : Op} (built : rangeEnd values op = some pieces) :
    Soft pieces := by
  unfold rangeEnd at built
  split at built
  · cases built
    exact soft_nil
  · obtain ⟨op, _, same⟩ := Option.bind_eq_some_iff.mp built
    cases same
    refine Soft.closing (soft_cons rfl ?_) ?_ (append_soft (sep_items 0 values).1 (Soft.closing (soft_cons rfl ?_) ?_
      (append_soft (sep_items 0 values).1 (soft_cons rfl (List.IsChain.singleton _)))))
    · simp [Separated, keyword, Piece.opens, Piece.closes]
    · simp [Closes, Piece.closes]
    · simp [Separated, Piece.opens, Piece.closes]
    · simp [Closes, Piece.closes]

theorem soft_limit (count : BitVec 32) : Soft (limit count) := by
  unfold limit
  split
  · exact soft_nil
  · exact soft_cons rfl (by simp [Separated, keyword, Piece.opens, Piece.closes])

theorem mapM_cons {B C : Type} {g : B → Option C} {b : B} {l : List B} {r : List C} (mapped : (b :: l).mapM g = some r) :
    ∃ c rest, g b = some c ∧ l.mapM g = some rest ∧ r = c :: rest := by
  simp only [List.mapM_cons, Option.bind_eq_bind, Option.bind_eq_some_iff, Option.pure_def, Option.some.injEq] at mapped
  obtain ⟨c, first, rest, later, same⟩ := mapped
  exact ⟨c, rest, first, later, same.symm⟩

theorem forall_mapM {B C : Type} {g : B → Option C} {Q : C → Prop} {R : B → Prop} (each : ∀ b c, g b = some c → (Q c ↔ R b))
    {l : List B} {r : List C} (mapped : l.mapM g = some r) : (∀ c ∈ r, Q c) ↔ ∀ b ∈ l, R b := by
  induction l generalizing r with
  | nil =>
    cases mapped
    simp
  | cons b l ih =>
    obtain ⟨c, rest, first, later, rfl⟩ := mapM_cons mapped
    rw [List.forall_mem_cons, List.forall_mem_cons, each b c first, ih later]

theorem mem_of_mapM {B C : Type} {g : B → Option C} {l : List B} {r : List C} (mapped : l.mapM g = some r) :
    ∀ c ∈ r, ∃ b ∈ l, g b = some c :=
  (forall_mapM (R := fun b => ∃ b' ∈ l, g b' = g b) (fun b c found => by rw [found]) mapped).mpr
    fun b inside => ⟨b, inside, rfl⟩

theorem sep_select {table : Name} {rkeys : List (List DbDataValue)} {ckRange : ColumnNameRange}
    {readVec : List FieldNamesToReadInfo} {whereVec : List WhereIndexInfo}
    (built : cassSelectFromTableInternal table rkeys ckRange readVec whereVec = some pieces) : Sep pieces := by
  simp only [cassSelectFromTableInternal, Option.bind_eq_bind, Option.bind_eq_some_iff, Option.pure_def,
    Option.some.injEq] at built
  obtain ⟨keys, rowKeys, conditions, indexed, start, first, finish, last, rfl⟩ := built
  have indices : Soft conditions.flatten := by
    rw [← List.flatMap_id]
    refine soft_flatMap fun pieces inside => ?_
    obtain ⟨info, _, condition⟩ := mem_of_mapM indexed pieces inside
    exact soft_whereIndex condition
  have filtering : Soft (if 1 < whereVec.length then [.space, keyword "ALLOW", .space, keyword "FILTERING"] else []) := by
    split
    · exact soft_cons rfl (by simp [Separated, keyword, Piece.opens, Piece.closes])
    · exact soft_nil
  apply append_soft (sep_fields table readVec)
  exact (soft_rowKeys rowKeys).append (indices.append ((soft_rangeEnd first).append ((soft_rangeEnd last).append
    ((soft_limit ckRange.count).append filtering))))

theorem Statement.separated {s : Statement} (built : s.pieces = some pieces) : Sep pieces := by
  cases s with
  | staticInsert v => exact sep_static built
  | dynamicInsert v => exact sep_dynamic built
  | _ => exact sep_select built

end segments

end TFCommon.Cql
