import TFCommon.Cql.Values

/-! The INSERT and SELECT statements of `cql_if.cc`. A statement is modelled as the pieces that are written into its stream,
in their order; `none` is a failed assertion. -/
namespace TFCommon.Cql
open Lexing

def isName : List Char → Bool
  | [] => false
  | c :: text => c.isAlpha && text.all isIdent

abbrev Name := { text : List Char // isName text = true }

inductive Symbol where
  | left | right | comma | equals | star
deriving DecidableEq, Repr

def Symbol.char : Symbol → Char
  | .left => '('
  | .right => ')'
  | .comma => ','
  | .equals => '='
  | .star => '*'

inductive Operator where
  | ge | gt | le | lt | eq | like | contains
deriving DecidableEq, Repr

/-- `Op`; `none` is `INVALID`, for which `ToString` asserts. -/
abbrev Op := Option Operator

def Operator.toString : Operator → List Char
  | .ge => ['>', '=']
  | .gt => ['>']
  | .le => ['<', '=']
  | .lt => ['<']
  | .eq => ['=']
  | .like => "LIKE".toList
  | .contains => "CONTAINS".toList

inductive Piece where
  | space
  | symbol (s : Symbol)
  | word (name : Name)
  | number (i : Int)
  -- An operator, with the blank that always follows it.
  | operator (o : Operator)
  -- A value, with its strings in quotes.
  | value (v : DbDataValue)
  -- The name of a column, without the quotes of strings between the quotes of names.
  | columnName (v : DbDataValue)
deriving DecidableEq

def Piece.text : Piece → List Char
  | .space => [' ']
  | .symbol s => [s.char]
  | .word name => name.val
  | .number i => intText i
  | .operator o => o.toString ++ [' ']
  | .value v => cassQueryPrinter true v
  | .columnName v => '\x22' :: (cassQueryPrinter false v ++ ['\x22'])

def keyword (text : String) (h : isName text.toList = true := by decide) : Piece := .word ⟨text.toList, h⟩

theorem isName_append_digits {text : List Char} (name : isName text = true) (n : Nat) :
    isName (text ++ Nat.toDigits 10 n) = true := by
  cases text with
  | nil => cases name
  | cons c text =>
    obtain ⟨letter, ident⟩ := Bool.and_eq_true_iff.mp name
    rw [List.cons_append, isName, letter, List.all_append, ident, Bool.true_and, Bool.true_and, List.all_eq_true]
    intro d inside
    rw [isIdent, isDigit_toDigits n d inside, Bool.or_true, Bool.true_or]

def numbered (text : String) (n : Nat) (h : isName text.toList = true := by decide) : Piece :=
  .word ⟨text.toList ++ Nat.toDigits 10 n, isName_append_digits h n⟩

def keyName (i : Nat) : Piece := if i = 0 then keyword "key" else numbered "key" (i + 1)

def columnOf (i : Nat) : Piece := numbered "column" (i + 1)

def comma : List Piece := [.symbol .comma, .space]

def items {A : Type} (f : Nat → A → Piece) : Nat → List A → List Piece
  | _, [] => []
  | i, a :: l => (if i = 0 then [] else comma) ++ f i a :: items f (i + 1) l

/-! ### INSERT -/

inductive ColumnFamilyType where
  | invalid | sql | nosql
deriving DecidableEq, Repr

structure NewCol where
  cftype : ColumnFamilyType
  name : List DbDataValue
  value : List DbDataValue
  ttl : Int
deriving DecidableEq

structure ColList where
  cfname : Name
  rowkey : List DbDataValue
  columns : List NewCol
deriving DecidableEq

def insertInto (table : Name) : List Piece :=
  [keyword "INSERT", .space, keyword "INTO", .space, .word table, .space, .symbol .left]

def usingTtl (ttl : Int) : List Piece :=
  if 0 < ttl then [.space, keyword "USING", .space, keyword "TTL", .space, .number ttl] else []

def sqlColumn (column : NewCol) : Option (DbDataValue × DbDataValue) :=
  match column.cftype, column.name, column.value with
  | .sql, [name], [value] => some (name, value)
  | _, _, _ => none

def staticCf2CassInsertIntoTable (v : ColList) : Option (List Piece) := do
  let columns ← v.columns.mapM sqlColumn
  let cttl := (v.columns.getLast?.map NewCol.ttl).getD (-1)
  return insertInto v.cfname ++ (items (fun i _ => keyName i) 0 v.rowkey ++
    (columns.flatMap (fun column => comma ++ [.columnName column.1]) ++
    ([.symbol .right, .space, keyword "VALUES", .space, .symbol .left] ++ (items (fun _ v => .value v) 0 v.rowkey ++
    (columns.flatMap (fun column => comma ++ [.value column.2]) ++ (.symbol .right :: usingTtl cttl))))))

def columnNames : Nat → List DbDataValue → List Piece
  | _, [] => []
  | i, v :: l => (if v = .blank then [] else comma ++ [columnOf i]) ++ columnNames (i + 1) l

def columnValues : List DbDataValue → List Piece
  | [] => []
  | [v] => if v = .blank then [] else [.value v]
  | v :: w :: l => (if v = .blank then [] else .value v :: comma) ++ columnValues (w :: l)

def dynamicCf2CassInsertIntoTable (v : ColList) : Option (List Piece) :=
  match v.columns with
  | [column] =>
    if column.cftype = .nosql then
      some (insertInto v.cfname ++ (items (fun i _ => keyName i) 0 v.rowkey ++ (columnNames 0 column.name ++
        ((if column.value = [] then [] else comma ++ [keyword "value"]) ++
        ([.symbol .right, .space, keyword "VALUES", .space, .symbol .left] ++
        (v.rowkey.flatMap (fun v => .value v :: comma) ++ (columnValues column.name ++
        ((column.value.take 1).flatMap (fun v => comma ++ [.value v]) ++ (.symbol .right :: usingTtl column.ttl)))))))))
    else none
  | _ => none

/-! ### SELECT -/

structure ColumnNameRange where
  start : List DbDataValue := []
  finish : List DbDataValue := []
  count : BitVec 32 := 0
  startOp : Op := some .ge
  finishOp : Op := some .le
deriving DecidableEq

structure WhereIndexInfo where
  name : Name
  op : Op
  value : DbDataValue
deriving DecidableEq

structure FieldNamesToReadInfo where
  name : Name
  readTimestamp : Bool
deriving DecidableEq

def fieldName (field : FieldNamesToReadInfo) : List Piece :=
  [.word field.name, .symbol .comma] ++
    if field.readTimestamp then [keyword "WRITETIME", .symbol .left, .word field.name, .symbol .right, .symbol .comma] else []

/-- The comma that was written last is overwritten. -/
def fields (table : Name) (readVec : List FieldNamesToReadInfo) : List Piece :=
  if readVec = [] then [keyword "SELECT", .space, .symbol .star, .space, keyword "FROM", .space, .word table]
  else [keyword "SELECT", .space] ++ ((readVec.flatMap fieldName).dropLast ++ [.space, keyword "FROM", .space, .word table])

def keyParts : Nat → List DbDataValue → List Piece
  | _, [] => []
  | i, v :: l =>
    [.space, if i = 0 then keyword "WHERE" else keyword "AND", .space, keyName i, .symbol .equals, .value v] ++
      keyParts (i + 1) l

def singleKey : List DbDataValue → Option DbDataValue
  | [v] => some v
  | _ => none

def rowKeys : List (List DbDataValue) → Option (List Piece)
  | [] => some []
  | [rkey] => some (keyParts 0 rkey)
  | rkeys => do
    let keys ← rkeys.mapM singleKey
    return [.space, keyword "WHERE", .space, keyword "key", .space, keyword "IN", .space, .symbol .left] ++
      ((keys.flatMap fun v => [.value v, .symbol .comma]).dropLast ++ [.symbol .right])

def whereIndex (info : WhereIndexInfo) : Option (List Piece) := do
  let op ← info.op
  return [.space, keyword "AND", .space, .word info.name, .space, .operator op, .value info.value]

def rangeEnd (values : List DbDataValue) (op : Op) : Option (List Piece) :=
  if values = [] then some []
  else do
    let op ← op
    return [.space, keyword "AND", .space, .symbol .left] ++ (items (fun i _ => columnOf i) 0 values ++
      ([.symbol .right, .space, .operator op, .symbol .left] ++ (items (fun _ v => .value v) 0 values ++ [.symbol .right])))

def limit (count : BitVec 32) : List Piece :=
  if count = 0 then [] else [.space, keyword "LIMIT", .space, .number count.toNat]

def cassSelectFromTableInternal (table : Name) (rkeys : List (List DbDataValue)) (ckRange : ColumnNameRange)
    (readVec : List FieldNamesToReadInfo) (whereVec : List WhereIndexInfo) : Option (List Piece) := do
  let keys ← rowKeys rkeys
  let conditions ← whereVec.mapM whereIndex
  let start ← rangeEnd ckRange.start ckRange.startOp
  let finish ← rangeEnd ckRange.finish ckRange.finishOp
  return fields table readVec ++ (keys ++ (conditions.flatten ++ (start ++ (finish ++ (limit ckRange.count ++
    if 1 < whereVec.length then [.space, keyword "ALLOW", .space, keyword "FILTERING"] else [])))))

/-! ### All statements -/

inductive Statement where
  | staticInsert (v : ColList)
  | dynamicInsert (v : ColList)
  -- `ClusteringKeyRangeAndIndexValue2CassSelectFromTable`.
  | selectIndexed (table : Name) (rkeys : List DbDataValue) (ckRange : ColumnNameRange) (whereVec : List WhereIndexInfo)
      (readVec : List FieldNamesToReadInfo)
  -- `PartitionKey2CassSelectFromTable`.
  | selectKey (table : Name) (rkeys : List DbDataValue)
  -- `PartitionKeyAndClusteringKeyRange2CassSelectFromTable`.
  | selectRange (table : Name) (rkeys : List DbDataValue) (ckRange : ColumnNameRange) (readVec : List FieldNamesToReadInfo)
  -- The same, for several row keys.
  | selectRanges (table : Name) (rkeys : List (List DbDataValue)) (ckRange : ColumnNameRange)
      (readVec : List FieldNamesToReadInfo)
  | selectAll (table : Name)
deriving DecidableEq

def Statement.pieces : Statement → Option (List Piece)
  | .staticInsert v => staticCf2CassInsertIntoTable v
  | .dynamicInsert v => dynamicCf2CassInsertIntoTable v
  | .selectIndexed table rkeys ckRange whereVec readVec => cassSelectFromTableInternal table [rkeys] ckRange readVec whereVec
  | .selectKey table rkeys => cassSelectFromTableInternal table [rkeys] {} [] []
  | .selectRange table rkeys ckRange readVec => cassSelectFromTableInternal table [rkeys] ckRange readVec []
  | .selectRanges table rkeys ckRange readVec => cassSelectFromTableInternal table rkeys ckRange readVec []
  | .selectAll table => cassSelectFromTableInternal table [] {} [] []

def text (pieces : List Piece) : List Char := written Piece.text pieces

example : (Statement.selectKey ⟨['t'], by decide⟩ [.string ['a'], .uint32 0xffffffff#32]).pieces.map text =
    some "SELECT * FROM t WHERE key='a' AND key2=-1".toList := by decide

example :
    (Statement.staticInsert ⟨⟨['t'], by decide⟩, [.uint8 7#8],
      [⟨.sql, [.string ['c']], [.blob [1#8, 255#8]], 5⟩]⟩).pieces.map text =
    some "INSERT INTO t (key, \"c\") VALUES (7, 0x01ff) USING TTL 5".toList := by decide

end TFCommon.Cql
