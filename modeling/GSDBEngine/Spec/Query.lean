import GSDBEngine.Spec.Table
import GSDBEngine.Lib.Kleene

/-!
# WHERE, HAVING and JOIN

`executor.cpp`: how a condition is evaluated on a row, on a group of rows, and how two tables
are joined. The conditions of `ast.h` are formulas over comparisons; what a subquery is, is left
open here.

* `compare_values`, `like_match`: two values. `resolve_value`: the value of a column, in the row or
  in the outer row.
* `evaluate_where`, `evaluate_having`: a condition.
* `nested_loop_join`: **the pairs of rows that the variant's `==` calls equal**, and the padded rest.
-/

namespace GSDBEngine

/-! ### Expressions -/

/-- `name`, `users.name`; the table is empty if unqualified. -/
structure ColumnRef where
  table_name : Bytes
  column_name : Bytes
  deriving DecidableEq

inductive CompareOp where
  | EQ
  | NEQ
  | LT
  | GT
  | LTE
  | GTE
  | LIKE
  | IS_NULL
  | IS_NOT_NULL
  | IN_SUBQUERY
  | NOT_IN_SUBQUERY
  deriving DecidableEq

/-- `column op operand`; with an `operand_column` the operand is ignored. -/
structure CompareExpr (Q : Type) where
  column : ColumnRef
  op : CompareOp
  operand : Value
  operand_column : Option ColumnRef
  subquery : Option Q
  deriving DecidableEq

inductive WhereLeaf (Q : Type) where
  | COMPARE (compare : CompareExpr Q)
  | EXISTS (subquery : Q)
  deriving DecidableEq

/-- A LOGICAL node is a node of the formula. -/
abbrev WhereExpr (Q : Type) := Formula (WhereLeaf Q)

inductive AggregateType where
  | NONE
  | COUNT_STAR
  | COUNT_COLUMN
  | MAX
  | MIN
  | AVG
  | MEDIAN
  deriving DecidableEq

structure SelectColumn where
  is_star : Bool
  is_literal : Bool
  literal : Value
  column : ColumnRef
  aggregate : AggregateType
  deriving DecidableEq

structure HavingCompareExpr where
  operand : SelectColumn
  op : CompareOp
  value : Value
  deriving DecidableEq

abbrev HavingExpr := Formula HavingCompareExpr

inductive JoinType where
  | INNER
  | LEFT
  | RIGHT
  deriving DecidableEq

structure JoinClause where
  type : JoinType
  table_name : Bytes
  table_alias : Bytes
  left_col : ColumnRef
  right_col : ColumnRef

/-- What the executor throws. -/
inductive ExecErr where
  | unknown_column (ref : ColumnRef)
  | unknown_column_in (column table : Bytes)
  | ambiguous_column (column left_table right_table : Bytes)
  | other_table (ref : ColumnRef) (table : Bytes)
  | unknown_table (table : Bytes)
  /-- `Row::get` -/
  | column_out_of_range
  | not_numeric (aggregate : AggregateType) (column : Bytes)
  /-- internal error: evaluated without a precomputed subquery cache -/
  | no_cache
  /-- `at` of a result that was not computed -/
  | not_cached
  | table (e : TableErr)
  deriving DecidableEq

/-! ### Values -/

/-- Two values of one alternative. -/
def compare_same (l : Value) (op : CompareOp) (r : Value) : Bool :=
  match op with
  | .EQ => l.eq r
  | .NEQ => !l.eq r
  | .LT => l.lt r
  | .GT => r.lt l
  | .LTE => l.lt r || l.eq r
  | .GTE => r.lt l || l.eq r
  | _ => false

/-- INT and FLOAT compare as floats; NULL, and other values of two types, do not compare. -/
def compare_values : Value → CompareOp → Value → Bool
  | .null, _, _ => false
  | _, _, .null => false
  | .int l, op, .float r => compare_same (.float (Single.ofInt l.toInt)) op (.float r)
  | .float l, op, .int r => compare_same (.float l) op (.float (Single.ofInt r.toInt))
  | l, op, r => if l.index = r.index then compare_same l op r else false

/-- The order of ORDER BY, MAX and MIN. -/
def value_less_than : Value → Value → Bool
  | .null, .null => false
  | .int x, .float y => (Single.ofInt x.toInt).lt y
  | .float x, .int y => x.lt (Single.ofInt y.toInt)
  | x, y => if x.index = y.index then x.lt y else false

/-- The candidates of IN. -/
def values_equal : Value → Value → Bool
  | .null, _ => false
  | _, .null => false
  | .int l, .float r => (Single.ofInt l.toInt).eq r
  | .float l, .int r => l.eq (Single.ofInt r.toInt)
  | l, r => l.eq r

/-- `%` is any text, `_` any character. -/
def like_match (text : Bytes) : Bytes → Bool
  | [] => text.isEmpty
  | p :: pattern =>
    if p = 37 then (List.range (text.length + 1)).any fun i => like_match (text.drop i) pattern
    else
      match text with
      | [] => false
      | c :: text => (p = 95 || p = c) && like_match text pattern

def Row.get (row : Row) (col_idx : ℕ) : Except ExecErr Value :=
  match row[col_idx]? with
  | none => throw .column_out_of_range
  | some v => pure v

/-! ### Columns -/

/-- The schemas a column is looked up in; with a right one the row is that of a JOIN. -/
structure Scope where
  schema : TableSchema
  right_schema : Option TableSchema
  table_alias : Bytes
  right_alias : Bytes

/-- The row of the query around. -/
structure OuterContext extends Scope where
  row : Row

def table_name_matches (ref_table : Bytes) (schema : TableSchema) (table_alias : Bytes) : Bool :=
  ref_table = schema.name || (table_alias ≠ [] && ref_table = table_alias)

/-- In one schema. -/
def try_resolve_column (ref : ColumnRef) (schema : TableSchema) (table_alias : Bytes) : Option ℕ :=
  if ref.table_name ≠ [] && !table_name_matches ref.table_name schema table_alias then none
  else schema.column_index ref.column_name

/-- In the two schemas of a JOIN. -/
def try_resolve_column_join (ref : ColumnRef) (left_schema right_schema : TableSchema) (left_alias right_alias : Bytes) :
    Except ExecErr (Option ℕ) :=
  let left_width := left_schema.columns.length
  let left_idx := left_schema.column_index ref.column_name
  let right_idx := (right_schema.column_index ref.column_name).map (left_width + ·)
  if ref.table_name ≠ [] then
    if table_name_matches ref.table_name left_schema left_alias then pure left_idx
    else if table_name_matches ref.table_name right_schema right_alias then pure right_idx
    else pure none
  else if left_idx.isSome && right_idx.isSome then
    throw (.ambiguous_column ref.column_name left_schema.name right_schema.name)
  else pure (left_idx <|> right_idx)

def Scope.try_resolve (scope : Scope) (ref : ColumnRef) : Except ExecErr (Option ℕ) :=
  match scope.right_schema with
  | some right_schema => try_resolve_column_join ref scope.schema right_schema scope.table_alias scope.right_alias
  | none => pure (try_resolve_column ref scope.schema scope.table_alias)

/-- The row's own columns come first, then those of the outer row. -/
def resolve_value (ref : ColumnRef) (row : Row) (scope : Scope) (outer : Option OuterContext) : Except ExecErr Value := do
  match ← scope.try_resolve ref with
  | some idx => row.get idx
  | none =>
    match outer with
    | none => throw (.unknown_column ref)
    | some outer =>
      match ← outer.toScope.try_resolve ref with
      | some idx => outer.row.get idx
      | none => throw (.unknown_column ref)

def resolve_column (ref : ColumnRef) (schema : TableSchema) (table_alias : Bytes) : Except ExecErr ℕ :=
  if ref.table_name ≠ [] && !table_name_matches ref.table_name schema table_alias then throw (.other_table ref schema.name)
  else
    match schema.column_index ref.column_name with
    | none => throw (.unknown_column ref)
    | some idx => pure idx

def resolve_column_join (ref : ColumnRef) (left_schema right_schema : TableSchema) (left_alias right_alias : Bytes) :
    Except ExecErr ℕ :=
  let left_width := left_schema.columns.length
  let left_idx := left_schema.column_index ref.column_name
  let right_idx := (right_schema.column_index ref.column_name).map (left_width + ·)
  if ref.table_name ≠ [] then
    if table_name_matches ref.table_name left_schema left_alias then
      match left_idx with
      | none => throw (.unknown_column_in ref.column_name left_schema.name)
      | some idx => pure idx
    else if table_name_matches ref.table_name right_schema right_alias then
      match right_idx with
      | none => throw (.unknown_column_in ref.column_name right_schema.name)
      | some idx => pure idx
    else throw (.unknown_table ref.table_name)
  else if left_idx.isSome && right_idx.isSome then
    throw (.ambiguous_column ref.column_name left_schema.name right_schema.name)
  else
    match left_idx <|> right_idx with
    | none => throw (.unknown_column ref)
    | some idx => pure idx

/-! ### WHERE -/

/-- A result of `precompute_subqueries`: a correlated subquery is run for each row. -/
inductive Precomputed (α : Type) where
  | correlated
  | computed (a : α)
  | missing

/-- `SubqueryCache`; a node of the tree stands for its address. -/
structure SubqueryCache (Q : Type) where
  exists_results : Q → Precomputed Bool
  in_values : CompareExpr Q → Precomputed (List Value)

/-- How a correlated subquery is run for an outer row: `run_subquery_scan`, for whether there is a row, and `run_subquery_values`. -/
structure SubqueryRunner (Q : Type) where
  nonempty : Q → OuterContext → Except ExecErr Bool
  values : Q → OuterContext → Except ExecErr (List Value)

section where_

variable {Q : Type} (runner : SubqueryRunner Q) (cache : Option (SubqueryCache Q)) (row : Row) (scope : Scope)
  (outer : Option OuterContext)

/-- `IN` or `NOT IN` a list of candidates. -/
def evaluate_in (op : CompareOp) (val : Value) (candidates : List Value) : Bool :=
  let found := candidates.any fun c => !c.isNull && values_equal val c
  let any_null := candidates.any Value.isNull
  if op = .IN_SUBQUERY then found else !found && !any_null

def in_candidates (expr : CompareExpr Q) (cache : SubqueryCache Q) : Except ExecErr (List Value) :=
  match cache.in_values expr, expr.subquery with
  | .correlated, some subquery => runner.values subquery ⟨scope, row⟩
  | .computed values, _ => pure values
  | _, _ => throw .not_cached

/-- The right-hand side: a column or a literal. -/
def CompareExpr.rhs (expr : CompareExpr Q) : Except ExecErr Value :=
  match expr.operand_column with
  | some ref => resolve_value ref row scope outer
  | none => pure expr.operand

/-- Two operands, neither of them NULL; LIKE is for VARCHAR. -/
def compare_operands (op : CompareOp) (val rhs : Value) : Bool :=
  match op, val, rhs with
  | .LIKE, .varchar text, .varchar pattern => like_match text pattern
  | .LIKE, _, _ => false
  | op, val, rhs => compare_values val op rhs

def evaluate_compare (expr : CompareExpr Q) : Except ExecErr Bool := do
  let val ← resolve_value expr.column row scope outer
  match expr.op with
  | .IS_NULL => pure val.isNull
  | .IS_NOT_NULL => pure !val.isNull
  | .IN_SUBQUERY | .NOT_IN_SUBQUERY =>
    match cache with
    | none => throw .no_cache
    | some cache =>
      if val.isNull then pure false
      else do
        let candidates ← in_candidates runner row scope expr cache
        pure (evaluate_in expr.op val candidates)
  | op => do
    let rhs ← expr.rhs row scope outer
    -- any comparison with NULL yields false
    if val.isNull || rhs.isNull then pure false else pure (compare_operands op val rhs)

def evaluate_leaf : WhereLeaf Q → Except ExecErr Bool
  | .COMPARE compare => evaluate_compare runner cache row scope outer compare
  | .EXISTS subquery =>
    match cache with
    | none => throw .no_cache
    | some cache =>
      match cache.exists_results subquery with
      | .correlated => runner.nonempty subquery ⟨scope, row⟩
      | .computed result => pure result
      | .missing => throw .not_cached

/-- Without a condition every row is taken. -/
def evaluate_where : Option (WhereExpr Q) → Except ExecErr Bool
  | none => pure true
  | some expr => expr.eval (evaluate_leaf runner cache row scope outer)

end where_

/-! ### Aggregates and HAVING -/

def to_float (x : Single) : Float32 := Float32.ofBits x.bits

def of_float (x : Float32) : Single := ⟨x.toBits⟩

/-- The sum is taken in double precision. -/
def average (nums : List Single) : Single :=
  let sum := nums.foldl (fun sum f => sum + (to_float f).toFloat) (Float.ofNat 0)
  of_float (sum / Float.ofNat nums.length).toFloat32

/-- The middle one, or the mean of the two middle ones. -/
def median (nums : List Single) : Single :=
  let nums := nums.mergeSort fun a b => !b.lt a
  let n := nums.length
  let num i := to_float (nums.getD i ⟨0⟩)
  if n % 2 = 1 then nums.getD (n / 2) ⟨0⟩ else of_float ((num (n / 2 - 1) + num (n / 2)) / Float32.ofNat 2)

/-- The values of the column that are not NULL. -/
def column_values (rows : List ScanResult) (idx : ℕ) : Except ExecErr (List Value) := do
  let values ← rows.mapM fun sr => sr.row.get idx
  pure (values.filter fun v => !v.isNull)

/-- `MAX` where `better best v` says that `v` is greater, `MIN` where it says that it is less. -/
def best_value (better : Value → Value → Bool) : List Value → Value
  | [] => .null
  | v :: vs => vs.foldl (fun best v => if better best v then v else best) v

/-- The numbers of AVG and MEDIAN. -/
def numeric_values (sc : SelectColumn) (idx : ℕ) : List ScanResult → Except ExecErr (List Single)
  | [] => pure []
  | sr :: rows => do
    match ← sr.row.get idx with
    | .null => numeric_values sc idx rows
    | .int v => do
      let nums ← numeric_values sc idx rows
      pure (Single.ofInt v.toInt :: nums)
    | .float v => do
      let nums ← numeric_values sc idx rows
      pure (v :: nums)
    | _ => throw (.not_numeric sc.aggregate sc.column.column_name)

def Scope.resolve (scope : Scope) (ref : ColumnRef) : Except ExecErr ℕ :=
  match scope.right_schema with
  | some right_schema => resolve_column_join ref scope.schema right_schema scope.table_alias scope.right_alias
  | none => resolve_column ref scope.schema scope.table_alias

def compute_aggregate_value (sc : SelectColumn) (rows : List ScanResult) (scope : Scope) : Except ExecErr Value :=
  if sc.aggregate = .COUNT_STAR then pure (.int (Int32.ofNat rows.length))
  else do
    let idx ← scope.resolve sc.column
    match sc.aggregate with
    | .NONE =>
      match rows with
      | [] => pure .null
      | sr :: _ => sr.row.get idx
    | .MAX => do
      let values ← column_values rows idx
      pure (best_value value_less_than values)
    | .MIN => do
      let values ← column_values rows idx
      pure (best_value (fun best v => value_less_than v best) values)
    | .AVG => do
      let nums ← numeric_values sc idx rows
      pure (if nums = [] then .null else .float (average nums))
    | .MEDIAN => do
      let nums ← numeric_values sc idx rows
      pure (if nums = [] then .null else .float (median nums))
    | _ => do
      let values ← column_values rows idx
      pure (.int (Int32.ofNat values.length))

section having

variable (group_rows : List ScanResult) (scope : Scope)

def evaluate_having_compare (c : HavingCompareExpr) : Except ExecErr Bool := do
  let lhs ← compute_aggregate_value c.operand group_rows scope
  if lhs.isNull then pure false else pure (compare_values lhs c.op c.value)

/-- Without a condition every group is kept. -/
def evaluate_having : Option HavingExpr → Except ExecErr Bool
  | none => pure true
  | some expr => expr.eval (evaluate_having_compare group_rows scope)

end having

/-! ### JOIN -/

structure JoinedRow where
  row : Row
  /-- the key of the left row -/
  primary_key : Key

section join

variable (left_col_idx right_col_idx : ℕ)

/-- `lr.row.get(left_col_idx) == rr.row.get(right_col_idx)`. -/
def joins (lr rr : ScanResult) : Except ExecErr Bool := do
  let l ← lr.row.get left_col_idx
  let r ← rr.row.get right_col_idx
  pure (l.eq r)

def combine (lr rr : ScanResult) : JoinedRow := ⟨lr.row ++ rr.row, lr.primary_key⟩

/-- The inner loop over the right rows. -/
def match_right (lr : ScanResult) : List ScanResult → Except ExecErr (List JoinedRow)
  | [] => pure []
  | rr :: right_results => do
    let found ← joins left_col_idx right_col_idx lr rr
    let out ← match_right lr right_results
    pure (if found then combine lr rr :: out else out)

/-- INNER or LEFT: the outer loop is over the left rows. -/
def join_left (type : JoinType) (left_width right_width : ℕ) (right_results : List ScanResult) :
    List ScanResult → Except ExecErr (List JoinedRow)
  | [] => pure []
  | lr :: left_results => do
    let matched ← match_right left_col_idx right_col_idx lr right_results
    let rest ← join_left type left_width right_width right_results left_results
    if matched.isEmpty && type = .LEFT then
      pure (⟨lr.row.rightpad (left_width + right_width) .null |>.take (left_width + right_width), lr.primary_key⟩ :: rest)
    else pure (matched ++ rest)

/-- The inner loop over the left rows. -/
def match_left (rr : ScanResult) : List ScanResult → Except ExecErr (List JoinedRow)
  | [] => pure []
  | lr :: left_results => do
    let found ← joins left_col_idx right_col_idx lr rr
    let out ← match_left rr left_results
    pure (if found then combine lr rr :: out else out)

/-- RIGHT: the outer loop is over the right rows. -/
def join_right (left_width : ℕ) (left_results : List ScanResult) : List ScanResult → Except ExecErr (List JoinedRow)
  | [] => pure []
  | rr :: right_results => do
    let matched ← match_left left_col_idx right_col_idx rr left_results
    let rest ← join_right left_width left_results right_results
    if matched.isEmpty then pure (⟨List.replicate left_width .null ++ rr.row, []⟩ :: rest)
    else pure (matched ++ rest)

end join

def nested_loop_join (left_results : List ScanResult) (left_schema : TableSchema) (right_table : Table)
    (right_schema : TableSchema) (join : JoinClause) (left_alias right_alias : Bytes) (s : TableState) :
    Except ExecErr (List JoinedRow) := do
  let left_col_idx ← resolve_column join.left_col left_schema left_alias
  let right_col_idx ← resolve_column join.right_col right_schema right_alias
  match right_table.scan (fun _ => some true) s with
  | .error e _ => throw (.table e)
  | .ok right_results _ =>
    let left_width := left_schema.columns.length
    let right_width := right_schema.columns.length
    if join.type = .RIGHT then join_right left_col_idx right_col_idx left_width left_results right_results
    else join_left left_col_idx right_col_idx join.type left_width right_width right_results left_results

end GSDBEngine
