import TFCommon.Cql.Literals

/-! What the values of a statement can do to its tokens. -/
namespace TFCommon.Cql
open Lexing

def Statement.values : Statement → List DbDataValue
  | .staticInsert v => v.rowkey ++ v.columns.flatMap NewCol.value
  | .dynamicInsert v => v.rowkey ++ v.columns.flatMap fun column => column.name ++ column.value.take 1
  | .selectIndexed _ rkeys ckRange whereVec _ =>
    rkeys ++ whereVec.map WhereIndexInfo.value ++ ckRange.start ++ ckRange.finish
  | .selectKey _ rkeys => rkeys
  | .selectRange _ rkeys ckRange _ => rkeys ++ ckRange.start ++ ckRange.finish
  | .selectRanges _ rkeys ckRange _ => rkeys.flatten ++ ckRange.start ++ ckRange.finish
  | .selectAll _ => []

def Statement.names : Statement → List DbDataValue
  | .staticInsert v => v.columns.flatMap NewCol.name
  | _ => []

/-- No string has a quote in it and no blob is empty, and no name has a quote of names in it. -/
def Statement.Plain (s : Statement) : Prop := (∀ v ∈ s.values, v.Plain) ∧ ∀ n ∈ s.names, n.PlainName

instance (s : Statement) : Decidable s.Plain := inferInstanceAs (Decidable (_ ∧ _))

/-! ### The pieces are plain when the values are -/

def AllPlain (pieces : List Piece) : Prop := ∀ p ∈ pieces, p.Plain

section plain
variable {A : Type} {f : Nat → A → Piece} {ps qs : List Piece}

@[simp] theorem allPlain_nil : AllPlain [] := nofun

@[simp] theorem allPlain_cons (p : Piece) : AllPlain (p :: ps) ↔ p.Plain ∧ AllPlain ps := List.forall_mem_cons

@[simp] theorem allPlain_append : AllPlain (ps ++ qs) ↔ AllPlain ps ∧ AllPlain qs := List.forall_mem_append

@[simp] theorem allPlain_flatMap {g : A → List Piece} {l : List A} : AllPlain (l.flatMap g) ↔ ∀ a ∈ l, AllPlain (g a) := by
  simp only [AllPlain, List.mem_flatMap, forall_exists_index, and_imp]
  exact ⟨fun all a inside p here => all p a inside here, fun all p a inside here => all a inside p here⟩

@[simp] theorem plain_space : Piece.space.Plain := trivial

@[simp] theorem plain_symbol (s : Symbol) : (Piece.symbol s).Plain := trivial

@[simp] theorem plain_word (name : Name) : (Piece.word name).Plain := trivial

@[simp] theorem plain_keyword (text : String) (name : isName text.toList = true) : (keyword text name).Plain := trivial

@[simp] theorem plain_number (i : Int) : (Piece.number i).Plain := trivial

@[simp] theorem plain_operator (o : Operator) : (Piece.operator o).Plain := trivial

@[simp] theorem plain_value (v : DbDataValue) : (Piece.value v).Plain ↔ v.Plain := Iff.rfl

@[simp] theorem plain_columnName (v : DbDataValue) : (Piece.columnName v).Plain ↔ v.PlainName := Iff.rfl

@[simp] theorem allPlain_comma : AllPlain comma := by simp [comma]

@[simp] theorem plain_keyName (i : Nat) : (keyName i).Plain := by
  unfold keyName
  split <;> trivial

@[simp] theorem plain_columnOf (i : Nat) : (columnOf i).Plain := trivial

theorem allPlain_items (i : Nat) (l : List A) {Q : A → Prop} (each : ∀ i a, (f i a).Plain ↔ Q a) :
    AllPlain (items f i l) ↔ ∀ a ∈ l, Q a := by
  induction l generalizing i with
  | nil => simp [items]
  | cons a l ih =>
    rw [items, allPlain_append, allPlain_cons, each, ih]
    split
    · simp
    · simp

theorem allPlain_values (l : List DbDataValue) : AllPlain (items (fun _ v => .value v) 0 l) ↔ ∀ v ∈ l, v.Plain :=
  allPlain_items 0 l fun _ _ => Iff.rfl

theorem allPlain_keyNames (l : List DbDataValue) : AllPlain (items (fun i _ => keyName i) 0 l) ↔ True := by
  rw [allPlain_items 0 l fun i _ => iff_of_true (plain_keyName i) trivial]
  simp

theorem allPlain_columnsOf (l : List DbDataValue) : AllPlain (items (fun i _ => columnOf i) 0 l) ↔ True := by
  rw [allPlain_items 0 l fun i _ => iff_of_true (plain_columnOf i) trivial]
  simp

theorem allPlain_dropLast (finish : Closes Piece.closes ps) : AllPlain ps.dropLast ↔ AllPlain ps := by
  rcases List.eq_nil_or_concat ps with rfl | ⟨init, p, rfl⟩
  · rfl
  · have soft : p.closes = true := finish p (by simp)
    have plain : p.Plain := by
      cases p with
      | value v | columnName v => cases soft
      | _ => trivial
    simp [plain]

end plain

section statements
variable {pieces : List Piece}

theorem allPlain_usingTtl (ttl : Int) : AllPlain (usingTtl ttl) := by
  unfold usingTtl
  split
  · simp
  · simp

theorem allPlain_insertInto (table : Name) : AllPlain (insertInto table) := by
  simp [insertInto]

theorem sqlColumn_cases {column : NewCol} {pair : DbDataValue × DbDataValue} (found : sqlColumn column = some pair) :
    column.name = [pair.1] ∧ column.value = [pair.2] := by
  unfold sqlColumn at found
  split at found
  · rename_i names values
    cases found
    exact ⟨names, values⟩
  · cases found

theorem plain_static {v : ColList} (built : staticCf2CassInsertIntoTable v = some pieces) :
    AllPlain pieces ↔ (Statement.staticInsert v).Plain := by
  obtain ⟨columns, mapped, same⟩ := Option.bind_eq_some_iff.mp built
  cases same
  have values : (∀ column ∈ columns, column.2.Plain) ↔ ∀ column ∈ v.columns, ∀ x ∈ column.value, x.Plain :=
    forall_mapM (fun column pair found => by rw [(sqlColumn_cases found).2]; simp) mapped
  have names : (∀ column ∈ columns, column.1.PlainName) ↔ ∀ column ∈ v.columns, ∀ x ∈ column.name, x.PlainName :=
    forall_mapM (fun column pair found => by rw [(sqlColumn_cases found).1]; simp) mapped
  simp only [allPlain_append, allPlain_cons, allPlain_flatMap, allPlain_values, allPlain_keyNames, allPlain_insertInto,
    allPlain_usingTtl, allPlain_comma, allPlain_nil, plain_space, plain_symbol, plain_keyword, plain_value, plain_columnName,
    values, names, Statement.Plain, Statement.values,
    Statement.names, List.forall_mem_append, List.forall_mem_flatMap, true_and, and_true]
  exact and_comm

theorem allPlain_columnNames (i : Nat) (l : List DbDataValue) : AllPlain (columnNames i l) := by
  induction l generalizing i with
  | nil => exact allPlain_nil
  | cons v l ih =>
    rw [columnNames]
    split
    · exact ih (i + 1)
    · simp [ih (i + 1)]

theorem allPlain_columnValues (l : List DbDataValue) : AllPlain (columnValues l) ↔ ∀ v ∈ l, v.Plain := by
  have blank : DbDataValue.blank.Plain := trivial
  induction l with
  | nil => simp [columnValues]
  | cons v l ih =>
    suffices step : AllPlain (columnValues (v :: l)) ↔ v.Plain ∧ AllPlain (columnValues l) from
      step.trans ((and_congr_right' ih).trans List.forall_mem_cons.symm)
    cases l with
    | nil =>
      change AllPlain (if v = .blank then [] else [.value v]) ↔ v.Plain ∧ AllPlain []
      split
      · rename_i same
        simp [same, blank]
      · simp
    | cons w l =>
      rw [columnValues]
      split
      · rename_i same
        simp [same, blank]
      · simp

theorem plain_dynamic {v : ColList} (built : dynamicCf2CassInsertIntoTable v = some pieces) :
    AllPlain pieces ↔ (Statement.dynamicInsert v).Plain := by
  unfold dynamicCf2CassInsertIntoTable at built
  split at built
  · rename_i column one
    split at built
    · cases built
      have valueName : AllPlain (if column.value = [] then [] else comma ++ [keyword "value"]) := by
        split
        · exact allPlain_nil
        · simp
      simp only [allPlain_append, allPlain_cons, allPlain_flatMap, allPlain_columnValues, allPlain_keyNames,
        allPlain_insertInto, allPlain_usingTtl, allPlain_comma, allPlain_nil, plain_space, plain_symbol, plain_keyword,
        plain_value, Statement.Plain,
        Statement.values, Statement.names, List.forall_mem_append, List.forall_mem_flatMap, one, List.forall_mem_cons,
        List.not_mem_nil, false_imp_iff, implies_true, allPlain_columnNames, true_and, and_true] at valueName ⊢
      simp [valueName]
    · cases built
  · cases built

theorem allPlain_fields (table : Name) (readVec : List FieldNamesToReadInfo) : AllPlain (fields table readVec) := by
  have names : AllPlain (readVec.flatMap fieldName) := by
    rw [allPlain_flatMap]
    intro field _
    unfold fieldName
    split
    · simp
    · simp
  unfold fields
  split
  · simp
  · have kept : AllPlain (readVec.flatMap fieldName).dropLast := fun p inside => names p (List.mem_of_mem_dropLast inside)
    simp [kept]

theorem allPlain_keyParts (i : Nat) (l : List DbDataValue) : AllPlain (keyParts i l) ↔ ∀ v ∈ l, v.Plain := by
  induction l generalizing i with
  | nil => simp [keyParts]
  | cons v l ih =>
    have condition : (if i = 0 then keyword "WHERE" else keyword "AND").Plain := by
      split <;> trivial
    rw [keyParts, allPlain_append, ih]
    simp [condition]

theorem allPlain_rowKeys {rkeys : List (List DbDataValue)} (built : rowKeys rkeys = some pieces) :
    AllPlain pieces ↔ ∀ v ∈ rkeys.flatten, v.Plain := by
  unfold rowKeys at built
  split at built
  · cases built
    simp
  · cases built
    rw [allPlain_keyParts, List.flatten_singleton]
  · obtain ⟨keys, mapped, same⟩ := Option.bind_eq_some_iff.mp built
    cases same
    have list : AllPlain (keys.flatMap fun v => [.value v, .symbol .comma]) ↔ ∀ v ∈ keys, v.Plain := by simp
    have closed : Closes Piece.closes (keys.flatMap fun v => [.value v, .symbol .comma]) :=
      closes_flatMap fun v _ => by simp [Closes, Piece.closes]
    have single : ∀ rkey v, singleKey rkey = some v → (v.Plain ↔ ∀ x ∈ rkey, x.Plain) := by
      intro rkey v found
      unfold singleKey at found
      split at found
      · cases found
        simp
      · cases found
    rw [List.forall_mem_flatten, ← forall_mapM single mapped, ← list, ← allPlain_dropLast closed]
    simp

theorem allPlain_whereIndex {info : WhereIndexInfo} (built : whereIndex info = some pieces) :
    AllPlain pieces ↔ info.value.Plain := by
  obtain ⟨op, _, same⟩ := Option.bind_eq_some_iff.mp built
  cases same
  simp

theorem allPlain_rangeEnd {values : List DbDataValue} {op : Op} (built : rangeEnd values op = some pieces) :
    AllPlain pieces ↔ ∀ v ∈ values, v.Plain := by
  unfold rangeEnd at built
  split at built
  · rename_i none
    cases built
    simp [none]
  · obtain ⟨op, _, same⟩ := Option.bind_eq_some_iff.mp built
    cases same
    simp only [allPlain_append, allPlain_cons, allPlain_nil, allPlain_columnsOf, allPlain_values, plain_space, plain_symbol,
      plain_keyword, plain_operator, true_and, and_true]

theorem allPlain_limit (count : BitVec 32) : AllPlain (limit count) := by
  unfold limit
  split
  · exact allPlain_nil
  · simp

theorem plain_select {table : Name} {rkeys : List (List DbDataValue)} {ckRange : ColumnNameRange}
    {readVec : List FieldNamesToReadInfo} {whereVec : List WhereIndexInfo}
    (built : cassSelectFromTableInternal table rkeys ckRange readVec whereVec = some pieces) :
    AllPlain pieces ↔
      ∀ v ∈ rkeys.flatten ++ whereVec.map WhereIndexInfo.value ++ ckRange.start ++ ckRange.finish, v.Plain := by
  simp only [cassSelectFromTableInternal, Option.bind_eq_bind, Option.bind_eq_some_iff, Option.pure_def,
    Option.some.injEq] at built
  obtain ⟨keys, rowKeys, conditions, indexed, start, first, finish, last, rfl⟩ := built
  have indices : AllPlain conditions.flatten ↔ ∀ v ∈ whereVec.map WhereIndexInfo.value, v.Plain := by
    rw [← List.flatMap_id, allPlain_flatMap, List.forall_mem_map]
    exact forall_mapM (fun info pieces found => allPlain_whereIndex found) indexed
  have filtering : AllPlain (if 1 < whereVec.length then [.space, keyword "ALLOW", .space, keyword "FILTERING"] else []) := by
    split
    · simp
    · exact allPlain_nil
  simp only [allPlain_append, allPlain_fields, allPlain_rowKeys rowKeys, indices, allPlain_rangeEnd first,
    allPlain_rangeEnd last, allPlain_limit, filtering, List.forall_mem_append, true_and, and_true, and_assoc]

theorem Statement.allPlain_iff {s : Statement} (built : s.pieces = some pieces) : AllPlain pieces ↔ s.Plain := by
  cases s with
  | staticInsert v => exact plain_static built
  | dynamicInsert v => exact plain_dynamic built
  | selectIndexed table rkeys ckRange whereVec readVec =>
    rw [plain_select built, List.flatten_singleton]
    exact (and_iff_left nofun).symm
  | selectKey table rkeys | selectRange table rkeys ckRange readVec | selectRanges table rkeys ckRange readVec
  | selectAll table =>
    rw [plain_select built]
    simp [Statement.Plain, Statement.values, Statement.names]

end statements

/-! ### The structure of the tokens -/

/-- What is left of a token without the contents of literals. -/
inductive Shape where
  | word (text : List Char)
  | symbol (text : List Char)
  | number | hex | uuid | string | quotedName
deriving DecidableEq, Repr

def Token.shape : Token → Shape
  | .word text => .word text
  | .number _ => .number
  | .hex _ => .hex
  | .uuid _ => .uuid
  | .string _ => .string
  | .quotedName _ => .quotedName
  | .symbol text => .symbol text

def Kind.shape : Kind → Shape
  | .string | .inet => .string
  | .uint64 | .uint32 | .uint8 | .uint16 => .number
  | .uuid => .uuid
  | .blob => .hex

def DbDataValue.shapes (v : DbDataValue) : List Shape :=
  match v.kind with
  | some kind => [kind.shape]
  | none => v.bareTokens.map Token.shape

def Piece.shapes : Piece → List Shape
  | .space => []
  | .symbol s => [.symbol [s.char]]
  | .word name => [.word name.val]
  | .number _ => [.number]
  | .operator o => [o.token.shape]
  | .value v => v.shapes
  | .columnName _ => [.quotedName]

/-- The same piece, but for the contents of a value or of the name of a column. -/
def Piece.Similar : Piece → Piece → Prop
  | .value v, .value w => v = w ∨ v.kind = w.kind ∧ v.kind ≠ none
  | .columnName _, .columnName _ => True
  | p, q => p = q

theorem Token.shape_of_read {t : Token} {kind : Kind} {v : DbDataValue} (read : t.read kind = some v) :
    t.shape = kind.shape := by
  cases kind <;> cases t <;> first | rfl | cases read

theorem DbDataValue.shapes_of_accepts {v : DbDataValue} {own : List Token} (accepted : v.Accepts own) :
    own.map Token.shape = v.shapes := by
  rw [DbDataValue.shapes]
  cases known : v.kind with
  | none => rw [(accepts_bare known).mp accepted]
  | some kind =>
    obtain ⟨t, rfl, read⟩ := (accepts_literal known).mp accepted
    exact congrArg (fun shape => [shape]) (Token.shape_of_read read)

theorem Piece.shapes_of_accepts (p : Piece) (own : List Token) (accepted : p.Accepts own) :
    own.map Token.shape = p.shapes := by
  cases p with
  | value v => exact DbDataValue.shapes_of_accepts accepted
  | _ =>
    rw [accepted]
    rfl

theorem DbDataValue.shapes_of_kind {v w : DbDataValue} (same : v.kind = w.kind) (literal : v.kind ≠ none) :
    v.shapes = w.shapes := by
  unfold DbDataValue.shapes
  rw [← same]
  cases known : v.kind with
  | none => exact absurd known literal
  | some kind => rfl

theorem Piece.shapes_of_similar {p q : Piece} (similar : p.Similar q) : p.shapes = q.shapes := by
  cases p with
  | value v =>
    cases q with
    | value w =>
      rcases similar with rfl | ⟨same, literal⟩
      · rfl
      · exact DbDataValue.shapes_of_kind same literal
    | _ => cases similar
  | columnName v =>
    cases q with
    | columnName w => rfl
    | _ => cases similar
  | _ => cases q <;> first | cases similar; rfl | cases similar

theorem shapes_of_similar {ps qs : List Piece} (similar : List.Forall₂ Piece.Similar ps qs) :
    ps.flatMap Piece.shapes = qs.flatMap Piece.shapes := by
  induction similar with
  | nil => rfl
  | cons here _ ih => rw [List.flatMap_cons, List.flatMap_cons, Piece.shapes_of_similar here, ih]

/-- Every value of a statement is one literal that denotes it, among tokens that are those of the statement, exactly if its
strings have no quotes, its blobs a byte and its names no quotes of names. Then statements that differ only in the contents of
values have the same tokens but for these. -/
theorem literals_hold_iff (s : Statement) (pieces : List Piece) (built : s.pieces = some pieces) :
    ((∃ tokens, lex scan (text pieces) = some tokens ∧ Matches Piece.Accepts pieces tokens) ↔ s.Plain) ∧
    ∀ (s' : Statement) pieces', s'.pieces = some pieces' → List.Forall₂ Piece.Similar pieces pieces' → s.Plain → s'.Plain →
      ∃ tokens tokens', lex scan (text pieces) = some tokens ∧ lex scan (text pieces') = some tokens' ∧
        tokens.map Token.shape = tokens'.map Token.shape := by
  have literals : ∀ {s pieces}, Statement.pieces s = some pieces →
      ((∃ tokens, lex scan (text pieces) = some tokens ∧ Matches Piece.Accepts pieces tokens) ↔ s.Plain) := fun built =>
    (lex_text_iff (Statement.separated built)).trans (Statement.allPlain_iff built)
  refine ⟨literals built, fun s' pieces' built' similar plain plain' => ?_⟩
  obtain ⟨tokens, lexed, matched⟩ := (literals built).mpr plain
  obtain ⟨tokens', lexed', matched'⟩ := (literals built').mpr plain'
  refine ⟨tokens, tokens', lexed, lexed', ?_⟩
  rw [matched.shape Piece.shapes_of_accepts, matched'.shape Piece.shapes_of_accepts, shapes_of_similar similar]

def table : Name := ⟨['t'], by decide⟩

/-- The key `ab` is one literal that denotes it. -/
theorem literals_hold_ab : ∃ pieces tokens, (Statement.selectKey table [.string ['a', 'b']]).pieces = some pieces ∧
    lex scan (text pieces) = some tokens ∧ Matches Piece.Accepts pieces tokens := by
  have builds : (Statement.selectKey table [.string ['a', 'b']]).pieces.isSome = true := by decide
  obtain ⟨pieces, built⟩ := Option.isSome_iff_exists.mp builds
  obtain ⟨tokens, lexed, matched⟩ := (literals_hold_iff _ pieces built).1.mpr (by decide)
  exact ⟨pieces, tokens, built, lexed, matched⟩

/-- A quote in the key adds a condition to the statement, and the literal of an empty blob denotes a zero byte. -/
theorem quote_adds_condition :
    (Statement.selectKey table [.string "a' AND key2='b".toList]).pieces.bind (fun pieces => lex scan (text pieces)) =
      some [.word "SELECT".toList, .symbol ['*'], .word "FROM".toList, .word ['t'], .word "WHERE".toList, .word "key".toList,
        .symbol ['='], .string ['a'], .word "AND".toList, .word "key2".toList, .symbol ['='], .string ['b']] ∧
    (Statement.selectKey table [.string "ab".toList]).pieces.bind (fun pieces => lex scan (text pieces)) =
      some [.word "SELECT".toList, .symbol ['*'], .word "FROM".toList, .word ['t'], .word "WHERE".toList, .word "key".toList,
        .symbol ['='], .string ['a', 'b']] ∧
    cassQueryPrinter true (.blob []) = "0x00".toList ∧ (Token.hex ['0', '0']).read .blob = some (.blob [0#8]) := by
  decide +kernel

end TFCommon.Cql
