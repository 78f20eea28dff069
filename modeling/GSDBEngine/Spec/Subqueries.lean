import GSDBEngine.Spec.Dml
import GSDBEngine.Spec.Parser

/-!
# Subqueries

`executor.cpp`: the subqueries of a WHERE clause. Those that name columns of their own table only are run once, before the first row; the
others are run for each row, and see its columns.

* `precompute_subqueries`: the results that are kept. `subquery_runner`: how a correlated subquery is run.
* `run_subquery_scan`: **the rows of a subquery**, which may have subqueries itself.
* `run_for_each_row`: the same with nothing kept.
-/

namespace GSDBEngine

def Subquery.stmt : Subquery → SelectStmt Subquery
  | .mk stmt => stmt

/-- What a subquery throws. -/
inductive SubqueryErr where
  | with_join
  /-- IN takes exactly one plain column -/
  | not_one_column
  /-- `get_table` -/
  | no_table (table : Bytes)
  | scan (e : ScanErr)
  /-- not one of the source: nested deeper than the bound -/
  | too_deep

/-- LIMIT, on rows. -/
def SelectStmt.limit_rows {Q α : Type} (stmt : SelectStmt Q) (rows : List α) : List α :=
  match stmt.limit with
  | none => rows
  | some lim => rows.take lim.toNat

/-- `build_predicate`, with the row that is outside of a subquery. -/
def build_predicate_in {Q : Type} (tbl : Table) (where_ : Option (WhereExpr Q)) (table_alias : Bytes) (outer : Option OuterContext)
    (runner : SubqueryRunner Q) (cache : SubqueryCache Q) (row : Row) : Except ExecErr Bool :=
  evaluate_where runner (some cache) row ⟨tbl.schema, none, table_alias, []⟩ outer where_

/-- A column of WHERE that the subquery's own table does not have. Those of a nested EXISTS are not looked at. -/
def where_references_unknown_column {Q : Type} (sub_schema : TableSchema) (sub_alias : Bytes) : WhereExpr Q → Bool
  | .leaf (.EXISTS _) => false
  | .leaf (.COMPARE c) =>
    (try_resolve_column c.column sub_schema sub_alias).isNone ||
      c.operand_column.any fun ref => (try_resolve_column ref sub_schema sub_alias).isNone
  | .and left right | .or left right =>
    where_references_unknown_column sub_schema sub_alias left || where_references_unknown_column sub_schema sub_alias right
  | .not left => where_references_unknown_column sub_schema sub_alias left

/-! ### One level -/

/-- How the rows of a subquery are found. -/
abbrev RunSubquery := Subquery → Option OuterContext → Except ExecErr (List ScanResult)

section level

-- an exception of a subquery is one of the statement, as `raise` says
variable (raise : SubqueryErr → ExecErr) (tables : Bytes → Option Table) (run : RunSubquery)

def subquery_table (subquery : Subquery) : Except ExecErr Table :=
  match tables subquery.stmt.table_name with
  | none => throw (raise (.no_table subquery.stmt.table_name))
  | some tbl => pure tbl

def is_correlated (subquery : Subquery) : Except ExecErr Bool := do
  let tbl ← subquery_table raise tables subquery
  pure (subquery.stmt.where_.any (where_references_unknown_column tbl.schema subquery.stmt.table_alias))

/-- The values that IN compares with. -/
def run_subquery_values (subquery : Subquery) (outer : Option OuterContext) : Except ExecErr (List Value) :=
  match subquery.stmt.columns with
  | [sc] =>
    if sc.is_star || sc.is_literal || !sc.is_plain then throw (raise .not_one_column)
    else do
      let tbl ← subquery_table raise tables subquery
      let col_idx ← resolve_column sc.column tbl.schema subquery.stmt.table_alias
      let rows ← run subquery outer
      rows.mapM fun sr => sr.row.get col_idx
  | _ => throw (raise .not_one_column)

def subquery_runner : SubqueryRunner Subquery where
  nonempty subquery outer := do
    let rows ← run subquery (some outer)
    pure !rows.isEmpty
  values subquery outer := run_subquery_values raise tables run subquery (some outer)

/-- What is kept of an EXISTS. -/
def exists_result (subquery : Subquery) : Except ExecErr (Precomputed Bool) := do
  if ← is_correlated raise tables subquery then pure .correlated
  else do
    let rows ← run subquery none
    pure (.computed !rows.isEmpty)

/-- What is kept of an IN. -/
def in_values (c : CompareExpr Subquery) : Except ExecErr (Precomputed (List Value)) :=
  match c.subquery with
  -- the parser gives IN a subquery
  | none => pure .missing
  | some subquery => do
    if ← is_correlated raise tables subquery then pure .correlated
    else do
      let values ← run_subquery_values raise tables run subquery none
      pure (.computed values)

def precompute_leaf : WhereLeaf Subquery → Except ExecErr Unit
  | .EXISTS subquery => discard (exists_result raise tables run subquery)
  | .COMPARE c => if c.op = .IN_SUBQUERY ∨ c.op = .NOT_IN_SUBQUERY then discard (in_values raise tables run c) else pure ()

/-- The nodes, from the left; the first exception is that of the whole. -/
def precompute_nodes : WhereExpr Subquery → Except ExecErr Unit
  | .leaf a => precompute_leaf raise tables run a
  | .and left right | .or left right => do
    precompute_nodes left
    precompute_nodes right
  | .not left => precompute_nodes left

/-- **The results that are kept**, by their node. WHERE asks for those of its own nodes. -/
def precompute_subqueries (expr : WhereExpr Subquery) : Except ExecErr (SubqueryCache Subquery) := do
  precompute_nodes raise tables run expr
  pure ⟨fun subquery => (exists_result raise tables run subquery).toOption.getD .missing,
    fun c => (in_values raise tables run c).toOption.getD .missing⟩

/-- An exception of the search for rows. -/
def raise_scan : ScanErr → ExecErr
  | .exec e => e
  | e => raise (.scan e)

/-- The rows of a subquery, with the results that `cache_of` keeps. -/
def scan_subquery (cache_of : SelectStmt Subquery → Except ExecErr (SubqueryCache Subquery)) (s : TableState) (subquery : Subquery)
    (outer : Option OuterContext) : Except ExecErr (List ScanResult) :=
  let stmt := subquery.stmt
  if !stmt.joins.isEmpty then throw (raise .with_join)
  else do
    let sub_tbl ← subquery_table raise tables subquery
    let cache ← cache_of stmt
    let pred := build_predicate_in sub_tbl stmt.where_ stmt.table_alias outer (subquery_runner raise tables run) cache
    let rows ← (scan_with_index sub_tbl stmt.where_ pred stmt.table_alias outer s).mapError (raise_scan raise)
    pure (stmt.limit_rows rows)

end level

/-! ### All levels -/

section levels

variable (raise : SubqueryErr → ExecErr) (tables : Bytes → Option Table) (s : TableState)

/-- **The rows of a subquery**; the depth bounds how deep it is nested. -/
def run_subquery_scan : ℕ → RunSubquery
  | 0 => fun _ _ => throw (raise .too_deep)
  | depth + 1 =>
    let run := run_subquery_scan depth
    scan_subquery raise tables run (fun stmt => stmt.where_cache (precompute_subqueries raise tables run)) s

/-- Nothing is kept. -/
def uncached {Q : Type} : SubqueryCache Q := ⟨fun _ => .correlated, fun _ => .correlated⟩

/-- The rows of a subquery, where each one in it **is run for each row anew**. -/
def run_for_each_row : ℕ → RunSubquery
  | 0 => fun _ _ => throw (raise .too_deep)
  | depth + 1 => scan_subquery raise tables (run_for_each_row depth) (fun _ => pure uncached) s

end levels

/-! ### How deep a subquery is nested -/

mutual

def Subquery.height : Subquery → ℕ
  | .mk stmt => select_height stmt + 1

def select_height : SelectStmt Subquery → ℕ
  | ⟨_, _, _, _, where_, _, _, _, _⟩ => where_height where_

def where_height : Option (Formula (WhereLeaf Subquery)) → ℕ
  | none => 0
  | some e => expr_height e

def expr_height : Formula (WhereLeaf Subquery) → ℕ
  | .leaf a => leaf_height a
  | .and left right => max (expr_height left) (expr_height right)
  | .or left right => max (expr_height left) (expr_height right)
  | .not left => expr_height left

def leaf_height : WhereLeaf Subquery → ℕ
  | .COMPARE compare => compare_height compare
  | .EXISTS subquery => subquery.height

def compare_height : CompareExpr Subquery → ℕ
  | ⟨_, _, _, _, subquery⟩ => subquery_height subquery

def subquery_height : Option Subquery → ℕ
  | none => 0
  | some subquery => subquery.height

end

/-! ### Statements -/

section statements

variable (raise : SubqueryErr → ExecErr) (depth : ℕ)

/-- The tables of the catalog, with their indexes. -/
def ExecState.tables (s : ExecState) (table_name : Bytes) : Option Table :=
  (s.catalog.tables.lookup table_name).map fun schema => ⟨schema, (s.indexes_of schema).map (IndexSchema.binding schema)⟩

/-- What a call that only reads looks at: the trees. -/
def ExecState.reading (s : ExecState) : TableState := ⟨s.trees, 0, fun _ => 0, 1⟩

/-- **The subqueries of a statement.** -/
def subqueries : Subqueries Subquery where
  precompute s := precompute_subqueries raise s.tables (run_subquery_scan raise s.tables s.reading depth)
  runner s := subquery_runner raise s.tables (run_subquery_scan raise s.tables s.reading depth)

/-- WHERE, on a row of a statement: a row of its table, or of its JOIN. -/
def where_value (s : ExecState) (where_ : Option (WhereExpr Subquery)) (row : Row) (scope : Scope) : Except ExecErr Bool := do
  let cache ← (subqueries raise depth).cache s where_
  evaluate_where ((subqueries raise depth).runner s) (some cache) row scope none where_

/-- WHERE, with each subquery run for each row anew. -/
def where_value_each_row (s : ExecState) (where_ : Option (WhereExpr Subquery)) (row : Row) (scope : Scope) : Except ExecErr Bool :=
  evaluate_where (subquery_runner raise s.tables (run_for_each_row raise s.tables s.reading depth)) (some uncached) row scope none where_

end statements

end GSDBEngine
