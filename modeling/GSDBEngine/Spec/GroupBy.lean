import GSDBEngine.Spec.Access
import GSDBEngine.Spec.Ddl
import GSDBEngine.Spec.Select
import GSDBEngine.Lib.SortedGroups

/-!
# GROUP BY

`executor.cpp`: a SELECT with GROUP BY. The rows that WHERE lets through are put into groups by the values of the GROUP BY
columns; HAVING keeps groups, and each of them gives a row.

* `group_by_error`: what is rejected. `filtered_rows`: the rows, of one table or of a JOIN.
* `bucket`: the groups. `execute_select_group_by`: the statement.
* `GroupedRight`: **what GROUP BY promises**, and `FollowsKey`, `Grouped`: when it keeps that.
-/

namespace GSDBEngine

/-! ### Statements -/

structure SelectStmt (Q : Type) where
  columns : List SelectColumn
  table_name : Bytes
  table_alias : Bytes
  joins : List JoinClause
  where_ : Option (Formula (WhereLeaf Q))
  group_by : List ColumnRef
  having : Option HavingExpr
  order_by : List OrderByClause
  limit : Option UInt32

structure QueryResult where
  success : Bool
  error_message : Bytes
  columns : List Bytes
  rows : List (List Bytes)
  rows_affected : UInt32
  deriving DecidableEq

/-- What is thrown. -/
inductive SelectErr where
  | scan (e : ScanErr)
  /-- `get_table` -/
  | no_table (table : Bytes)
  deriving DecidableEq

/-! ### Groups and their columns -/

def group_key (group_col_idx : List ℕ) (row : Row) : Except ExecErr Key := group_col_idx.mapM row.get

/-- `groups[key].push_back(sr)` for each row. -/
def bucket (group_col_idx : List ℕ) (rows : List ScanResult) : Except ExecErr (List (Key × List ScanResult)) := do
  let keyed ← rows.mapM fun sr => do
    let key ← group_key group_col_idx sr.row
    pure (key, sr)
  pure (SortedGroups.group Key.lt keyed)

/-- A column that is read from one row of the group. -/
def SelectColumn.is_plain (sc : SelectColumn) : Bool := sc.aggregate = .NONE

def aggregate_header_label (type : AggregateType) (col_name : Bytes) : Bytes :=
  match type with
  | .COUNT_STAR => bytes "COUNT(*)"
  | .COUNT_COLUMN => bytes "COUNT(" ++ col_name ++ bytes ")"
  | .MAX => bytes "MAX(" ++ col_name ++ bytes ")"
  | .MIN => bytes "MIN(" ++ col_name ++ bytes ")"
  | .AVG => bytes "AVG(" ++ col_name ++ bytes ")"
  | .MEDIAN => bytes "MEDIAN(" ++ col_name ++ bytes ")"
  | .NONE => col_name

def column_label (sc : SelectColumn) : Bytes :=
  if sc.is_literal then value_to_string sc.literal
  else if !sc.is_plain then aggregate_header_label sc.aggregate sc.column.column_name
  else sc.column.column_name

section column

variable (scope : Scope) (group_rows : List ScanResult)

/-- The value of the first row; a group has one. -/
def front_value (column : ColumnRef) : Except ExecErr Value := do
  let idx ← scope.resolve column
  match group_rows with
  | [] => throw .column_out_of_range
  | sr :: _ => sr.row.get idx

def output_column (sc : SelectColumn) : Except ExecErr Bytes :=
  if sc.is_literal then pure (value_to_string sc.literal)
  else if !sc.is_plain then do
    let value ← compute_aggregate_value sc group_rows scope
    pure (if value.isNull then bytes "NULL" else value_to_string value)
  else do
    let value ← front_value scope group_rows sc.column
    pure (value_to_string value)

end column

/-! ### Columns that are read -/

def having_refs : HavingExpr → List ColumnRef
  | .leaf c => if c.operand.is_plain then [c.operand.column] else []
  | .and left right | .or left right => having_refs left ++ having_refs right
  | .not left => having_refs left

/-- The number of columns of a row, with those of the right table. -/
def Scope.width (scope : Scope) : ℕ := scope.schema.columns.length + (scope.right_schema.map fun right_schema => right_schema.columns.length).getD 0

/-- Rows of the width, of numbers. -/
def Scope.Rows (scope : Scope) (rows : List ScanResult) : Prop := ∀ sr ∈ rows, sr.row.length = scope.width ∧ ∀ v ∈ sr.row, v.isNaN = false

/-- The trees hold the contents of the tables. -/
def TablesHold (tables : Bytes → Option Table) (s : TableState) : Prop :=
  ∀ name tbl, tables name = some tbl → ∃ S, tbl.Represents s.trees S ∧ tbl.Sound S

namespace SelectStmt

variable {Q : Type} (stmt : SelectStmt Q)

/-! ### Validation -/

/-- Names only are compared. -/
def in_group_by (column : ColumnRef) : Bool := stmt.group_by.any fun gb => gb.column_name = column.column_name

def order_by_error : Option Bytes :=
  match stmt.order_by with
  | [] => none
  | [ob] =>
    if ob.operand.is_plain && !stmt.in_group_by ob.operand.column then
      some (bytes "SELECT: ORDER BY column '" ++ ob.operand.column.column_name ++
        bytes "' must appear in GROUP BY or be used inside an aggregate function")
    else none
  | _ => some (bytes "SELECT: only a single ORDER BY column is supported")

def column_error (sc : SelectColumn) : Option Bytes :=
  if sc.is_star then some (bytes "SELECT: * is not yet supported with GROUP BY")
  else if sc.is_literal || !sc.is_plain then none
  else if stmt.in_group_by sc.column then none
  else
    some (bytes "SELECT: column '" ++ sc.column.column_name ++
      bytes "' must appear in GROUP BY or be used inside an aggregate function")

/-- The checks come before the tables are read; there is none of the columns of HAVING. -/
def group_by_error : Option Bytes :=
  if stmt.having.isSome && stmt.group_by.isEmpty then some (bytes "SELECT: HAVING requires GROUP BY")
  else stmt.order_by_error <|> stmt.columns.findSome? stmt.column_error

/-! ### Rows -/

section rows

variable (runner : SubqueryRunner Q) (precompute : WhereExpr Q → Except ExecErr (SubqueryCache Q)) (tables : Bytes → Option Table)
  (tbl : Table) (s : TableState)

/-- `precompute_subqueries`, where there is a condition. -/
def where_cache : Except ExecErr (SubqueryCache Q) :=
  match stmt.where_ with
  | none => pure ⟨fun _ => .missing, fun _ => .missing⟩
  | some expr => precompute expr

/-- The joined rows that WHERE lets through. -/
def filter_joined (cache : SubqueryCache Q) (scope : Scope) : List JoinedRow → Except ExecErr (List ScanResult)
  | [] => pure []
  | jr :: joined => do
    let found ← evaluate_where runner (some cache) jr.row scope none stmt.where_
    let rows ← filter_joined cache scope joined
    pure (if found then ⟨jr.primary_key, jr.row⟩ :: rows else rows)

def joined_rows (join : JoinClause) (right_tbl : Table) : Except ScanErr (List ScanResult) := do
  let left_results ← run_query (tbl.scan fun _ => some true) s
  let joined ← lift_exec (nested_loop_join left_results tbl.schema right_tbl right_tbl.schema join stmt.table_alias join.table_alias s)
  let cache ← lift_exec (stmt.where_cache precompute)
  lift_exec (stmt.filter_joined runner cache ⟨tbl.schema, some right_tbl.schema, stmt.table_alias, join.table_alias⟩ joined)

def table_rows : Except ScanErr (List ScanResult) := do
  let cache ← lift_exec (stmt.where_cache precompute)
  scan_with_index tbl stmt.where_ (build_predicate tbl stmt.where_ stmt.table_alias runner cache) stmt.table_alias none s

/-- **The rows that WHERE lets through**, and the schemas that their columns are looked up in. -/
def filtered_rows : Except SelectErr (List ScanResult × Scope) :=
  match stmt.joins with
  | [] => do
    let rows ← (stmt.table_rows runner precompute tbl s).mapError .scan
    pure (rows, ⟨tbl.schema, none, stmt.table_alias, []⟩)
  -- the other clauses are not looked at
  | join :: _ =>
    match tables join.table_name with
    | none => throw (.no_table join.table_name)
    | some right_tbl => do
      let rows ← (stmt.joined_rows runner precompute tbl s join right_tbl).mapError .scan
      pure (rows, ⟨tbl.schema, some right_tbl.schema, stmt.table_alias, join.table_alias⟩)

end rows

/-! ### Groups -/

def groups (scope : Scope) (rows : List ScanResult) : Except ExecErr (List (Key × List ScanResult)) := do
  let group_col_idx ← stmt.group_by.mapM scope.resolve
  bucket group_col_idx rows

section group

variable (scope : Scope) (group_rows : List ScanResult)

/-- The printed row of a group. -/
def output_row : Except ExecErr (List Bytes) := stmt.columns.mapM (output_column scope group_rows)

def order_key : Except ExecErr Value :=
  match stmt.order_by with
  | [] => pure .null
  | ob :: _ => compute_aggregate_value ob.operand group_rows scope

end group

/-- A row for each group that HAVING keeps. -/
def output_rows (scope : Scope) : List (Key × List ScanResult) → Except ExecErr (List (Value × List Bytes))
  | [] => pure []
  | (_, group_rows) :: groups => do
    if ← evaluate_having group_rows scope stmt.having then
      let row_out ← stmt.output_row scope group_rows
      let order_key ← stmt.order_key scope group_rows
      let rest ← output_rows scope groups
      pure ((order_key, row_out) :: rest)
    else output_rows scope groups

def ordered_rows (output_rows : List (Value × List Bytes)) : List (Value × List Bytes) :=
  match stmt.order_by with
  | [] => output_rows
  | ob :: _ => sort_groups ob.ascending output_rows

/-- LIMIT is on the number of groups. -/
def limited (rows : List (List Bytes)) : List (List Bytes) :=
  match stmt.limit with
  | none => rows
  | some lim => rows.take lim.toNat

def grouped_result (scope : Scope) (rows : List ScanResult) : Except ExecErr QueryResult := do
  let groups ← stmt.groups scope rows
  let output_rows ← stmt.output_rows scope groups
  pure ⟨true, [], stmt.columns.map column_label, stmt.limited ((stmt.ordered_rows output_rows).map Prod.snd), 0⟩

def execute_select_group_by (runner : SubqueryRunner Q) (precompute : WhereExpr Q → Except ExecErr (SubqueryCache Q))
    (tables : Bytes → Option Table) (tbl : Table) (s : TableState) : Except SelectErr QueryResult :=
  match stmt.group_by_error with
  | some message => pure ⟨false, message, [], [], 0⟩
  | none => do
    let (rows, scope) ← stmt.filtered_rows runner precompute tables tbl s
    (stmt.grouped_result scope rows).mapError fun e => .scan (.exec e)

/-! ### What GROUP BY promises -/

section promise

variable (scope : Scope) (rows : List ScanResult)

/-- The plain columns of the SELECT list, of HAVING and of ORDER BY. -/
def plain_refs : List ColumnRef :=
  (stmt.columns.filter fun sc => !sc.is_literal && sc.is_plain).map SelectColumn.column ++ stmt.having.toList.flatMap having_refs ++
    (stmt.order_by.filter fun ob => ob.operand.is_plain).map fun ob => ob.operand.column

/-- A plain column, by its place in the rows. -/
def Plain (idx : ℕ) : Prop := ∃ ref ∈ stmt.plain_refs, scope.resolve ref = .ok idx

/-- The GROUP BY columns are equal; NULL is equal to NULL. -/
def SameKey (row row' : Row) : Prop :=
  ∀ gb ∈ stmt.group_by, ∀ idx, scope.resolve gb = .ok idx → (row.getD idx .null).eq (row'.getD idx .null) = true

/-- The classes of the rows with equal GROUP BY columns. -/
structure GroupsOf (groups : List (List ScanResult)) : Prop where
  perm : groups.flatten.Perm rows
  nonempty : ∀ g ∈ groups, g ≠ []
  same : ∀ g ∈ groups, ∀ sr ∈ g, ∀ sr' ∈ g, stmt.SameKey scope sr.row sr'.row
  apart : groups.Pairwise fun g g' => ∀ sr ∈ g, ∀ sr' ∈ g', ¬ stmt.SameKey scope sr.row sr'.row

/-- The groups that HAVING keeps. -/
def surviving (groups : List (List ScanResult)) : List (List ScanResult) :=
  groups.filter fun g => (evaluate_having g scope stmt.having).toOption = some true

/-- The rows of the result are one for each group that is kept, in some order, up to the LIMIT. -/
def OneRowEach (groups : List (List ScanResult)) (result : QueryResult) : Prop :=
  ∃ outs, List.Forall₂ (fun g out => stmt.output_row scope g = .ok out) (stmt.surviving scope groups) outs ∧
    ∃ ordered, ordered.Perm outs ∧ result.rows = stmt.limited ordered

/-- The plain columns have one value in a group. -/
def Determined (groups : List (List ScanResult)) : Prop :=
  ∀ g ∈ groups, ∀ idx, stmt.Plain scope idx → ∀ sr ∈ g, ∀ sr' ∈ g, sr.row[idx]? = sr'.row[idx]?

/-- **What GROUP BY promises** of the rows that WHERE lets through. -/
def GroupedRight (result : QueryResult) : Prop :=
  ∃ groups, stmt.groups scope rows = .ok groups ∧ stmt.GroupsOf scope rows (groups.map Prod.snd) ∧
    stmt.OneRowEach scope (groups.map Prod.snd) result ∧ stmt.Determined scope (groups.map Prod.snd)

/-- The GROUP BY columns of a row determine its plain columns. -/
def FollowsKey : Prop :=
  ∀ idx, stmt.Plain scope idx → ∀ sr ∈ rows, ∀ sr' ∈ rows, stmt.SameKey scope sr.row sr'.row → sr.row[idx]? = sr'.row[idx]?

/-- **Every plain column is the column of a GROUP BY item**, not one of its name. -/
def Grouped : Prop := ∀ idx, stmt.Plain scope idx → ∃ gb ∈ stmt.group_by, scope.resolve gb = .ok idx

/-- Equal values of a plain column are the same: there are not both zeros of a FLOAT. -/
def OneZero : Prop := ∀ idx, stmt.Plain scope idx → ∀ sr ∈ rows, ∀ sr' ∈ rows,
  (sr.row.getD idx .null).eq (sr'.row.getD idx .null) = true → sr.row.getD idx .null = sr'.row.getD idx .null

end promise

end SelectStmt

end GSDBEngine
