import GSDBEngine.Spec.Subqueries
import GSDBEngine.Spec.Sql
import GSDBEngine.Spec.Statements

/-!
# SELECT

`executor.cpp`: a SELECT, from the rows of its tables to what is printed. It has one of three kinds: with GROUP BY, with aggregates only, or
plain; only the last may be read from an index alone.

* `plain_result`, `aggregate_result`: what is made of the rows.
* `execute_select`: **the statement.** `select_without_covering`: the same, with every row fetched from the table.
* `Asked`: the rows that a SELECT asks for, in terms of the contents. `Answered`: **what it may print.**
-/

namespace GSDBEngine

def QueryResult.failed (message : Bytes) : QueryResult := ⟨false, message, [], [], 0⟩

namespace SelectStmt

variable {Q : Type} (stmt : SelectStmt Q)

/-! ### What is made of the rows -/

/-- `build_column_headers`. -/
def column_headers (scope : Scope) : List Bytes :=
  if stmt.columns.any SelectColumn.is_star then
    scope.schema.columns.map Column.name ++ (scope.right_schema.map fun right_schema => right_schema.columns.map Column.name).getD []
  else stmt.columns.map fun sc => if sc.is_literal then value_to_string sc.literal else sc.column.column_name

section result

variable (scope : Scope) (rows : List ScanResult)

/-- Only the first clause of ORDER BY is looked at. -/
def sorted_rows : Except ExecErr (List ScanResult) :=
  match stmt.order_by with
  | [] => pure rows
  | ob :: _ => do
    let col_idx ← scope.resolve ob.operand.column
    sort_by_column col_idx ob.ascending ScanResult.row rows

def printed_rows : Except ExecErr (List (List Bytes)) :=
  rows.mapM fun sr => project_row stmt.columns sr.row scope.schema scope.right_schema scope.table_alias scope.right_alias

def plain_result : Except ExecErr QueryResult :=
  if stmt.order_by.head?.any fun ob => !ob.operand.is_plain then
    pure (.failed (bytes "SELECT: ORDER BY on an aggregate function requires GROUP BY"))
  else do
    let sorted ← stmt.sorted_rows scope rows
    let printed ← stmt.printed_rows scope (stmt.limit_rows sorted)
    pure ⟨true, [], stmt.column_headers scope, printed, 0⟩

/-- One row; ORDER BY and LIMIT are not looked at. -/
def aggregate_result : Except ExecErr QueryResult := do
  let row_out ← stmt.columns.mapM fun sc => do
    let value ← compute_aggregate_value sc rows scope
    pure (if value.isNull then bytes "NULL" else value_to_string value)
  pure ⟨true, [], stmt.columns.map fun sc => aggregate_header_label sc.aggregate sc.column.column_name, [row_out], 0⟩

end result

/-! ### The statement -/

section execute

variable (runner : SubqueryRunner Q) (precompute : WhereExpr Q → Except ExecErr (SubqueryCache Q)) (tables : Bytes → Option Table)
  (tbl : Table) (s : TableState)

/-- The rows of a plain SELECT: from an index alone, if it covers them. -/
def plain_rows : Except SelectErr (List ScanResult × Scope) :=
  match stmt.joins with
  | [] => do
    let cache ← (lift_exec (stmt.where_cache precompute)).mapError .scan
    let pred := build_predicate tbl stmt.where_ stmt.table_alias runner cache
    let covering ← (scan_covering tbl stmt.where_ pred stmt.table_alias stmt.columns stmt.order_by s).mapError .scan
    match covering with
    | some rows => pure (rows, ⟨tbl.schema, none, stmt.table_alias, []⟩)
    | none => do
      let rows ← (scan_with_index tbl stmt.where_ pred stmt.table_alias none s).mapError .scan
      pure (rows, ⟨tbl.schema, none, stmt.table_alias, []⟩)
  | _ :: _ => stmt.filtered_rows runner precompute tables tbl s

/-- The checks and the kinds; `found` are the rows of a plain SELECT. -/
def select_kind (found : Except SelectErr (List ScanResult × Scope)) : Except SelectErr QueryResult :=
  if stmt.having.isSome && stmt.group_by.isEmpty then pure (.failed (bytes "SELECT: HAVING requires GROUP BY"))
  else if !stmt.group_by.isEmpty then stmt.execute_select_group_by runner precompute tables tbl s
  else if stmt.columns.any fun sc => !sc.is_plain then
    if stmt.columns.any SelectColumn.is_plain then
      pure (.failed (bytes "SELECT: cannot mix aggregate functions with plain columns without GROUP BY (not yet supported)"))
    else do
      let (rows, scope) ← stmt.filtered_rows runner precompute tables tbl s
      (stmt.aggregate_result scope rows).mapError fun e => .scan (.exec e)
  else do
    let (rows, scope) ← found
    (stmt.plain_result scope rows).mapError fun e => .scan (.exec e)

end execute

end SelectStmt

section statement

variable {Q : Type} (sub : Subqueries Q) (stmt : SelectStmt Q) (s : ExecState)

/-- **A SELECT.** It changes nothing. -/
def execute_select : Except SelectErr QueryResult :=
  match s.tables stmt.table_name with
  | none => throw (.no_table stmt.table_name)
  | some tbl =>
    stmt.select_kind (sub.runner s) (sub.precompute s) s.tables tbl s.reading
      (stmt.plain_rows (sub.runner s) (sub.precompute s) s.tables tbl s.reading)

/-- A SELECT, with every row fetched from the table. -/
def select_without_covering : Except SelectErr QueryResult :=
  match s.tables stmt.table_name with
  | none => throw (.no_table stmt.table_name)
  | some tbl =>
    stmt.select_kind (sub.runner s) (sub.precompute s) s.tables tbl s.reading
      (stmt.filtered_rows (sub.runner s) (sub.precompute s) s.tables tbl s.reading)

end statement

/-! ### What a SELECT asks for -/

/-- The rows of a table that a test lets through, each once. -/
structure Matching (S : Contents) (pred : Row → Except ExecErr Bool) (rows : List ScanResult) : Prop where
  mem : ∀ r, r ∈ rows ↔ r.entry ∈ S ∧ pred r.row = .ok true
  nodup : (rows.map ScanResult.entry).Nodup

/-- The rows of a JOIN that a test lets through, as often as they are there: **the variant's `==` joins two rows**, and a row without a
partner is kept by an outer join. -/
def MatchingJoined (left_schema right_schema : TableSchema) (join : JoinClause) (left_alias : Bytes) (S S' : Contents)
    (pred : Row → Except ExecErr Bool) (rows : List ScanResult) : Prop :=
  ∃ left right li ri, Matching S (fun _ => .ok true) left ∧ Matching S' (fun _ => .ok true) right ∧
    resolve_column join.left_col left_schema left_alias = .ok li ∧ resolve_column join.right_col right_schema join.table_alias = .ok ri ∧
      (rows.map ScanResult.row : Multiset Row) =
        (sql_join_on (fun l r => (l.getD li .null).eq (r.getD ri .null)) join.type left_schema.columns.length right_schema.columns.length
          (left.map ScanResult.row : Multiset Row) (right.map ScanResult.row : Multiset Row)).filter fun row => pred row = .ok true

namespace SelectStmt

variable {Q : Type} (stmt : SelectStmt Q)

/-- **The rows that a SELECT asks for**, and the schemas that their columns are looked up in. -/
def Asked (tables : Bytes → Option Table) (C : AllContents) (pred : Scope → Row → Except ExecErr Bool) (scope : Scope) (rows : List ScanResult) :
    Prop :=
  ∃ tbl, tables stmt.table_name = some tbl ∧
    ((stmt.joins = [] ∧ scope = ⟨tbl.schema, none, stmt.table_alias, []⟩ ∧ Matching (C stmt.table_name) (pred scope) rows) ∨
      ∃ join joins right_tbl, stmt.joins = join :: joins ∧ tables join.table_name = some right_tbl ∧
        scope = ⟨tbl.schema, some right_tbl.schema, stmt.table_alias, join.table_alias⟩ ∧
        MatchingJoined tbl.schema right_tbl.schema join stmt.table_alias (C stmt.table_name) (C join.table_name) (pred scope) rows)

section answer

variable (scope : Scope) (rows : List ScanResult)

/-- The rows in the order of ORDER BY, as far as its values can be ordered. -/
def Ordered (sorted : List ScanResult) : Prop :=
  sorted.Perm rows ∧ ∀ ob, stmt.order_by.head? = some ob → ∃ col_idx, scope.resolve ob.operand.column = .ok col_idx ∧
    (Sortable ob.ascending (rows.map (sort_key col_idx ScanResult.row)) →
      OrderedBy ob.ascending (sort_key col_idx ScanResult.row) rows sorted)

/-- **What may be printed for the rows**: a row for each of the first ones in order, one row of aggregates, or a row for each group. -/
def Answered (result : QueryResult) : Prop :=
  (stmt.group_by ≠ [] ∧ stmt.grouped_result scope rows = .ok result) ∨
    (stmt.group_by = [] ∧ (∀ sc ∈ stmt.columns, sc.is_plain = false) ∧ stmt.aggregate_result scope rows = .ok result) ∨
    (stmt.group_by = [] ∧ (∀ sc ∈ stmt.columns, sc.is_plain = true) ∧ result.columns = stmt.column_headers scope ∧
      ∃ sorted, stmt.Ordered scope rows sorted ∧ stmt.printed_rows scope (stmt.limit_rows sorted) = .ok result.rows)

end answer

end SelectStmt

end GSDBEngine
