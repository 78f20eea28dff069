import GSDBEngine.Spec.Query
import GSDBEngine.Lib.OuterJoin

/-!
# What SQL says of a condition and of a join

The truth value of a condition, and the rows of a join, as SQL defines them; to compare what
`executor.cpp` computes with.

* `where_truth`, `having_truth`: **a comparison with NULL is UNKNOWN**, and the connectives are Kleene's.
* `sql_join`: **the pairs on which `left_col = right_col` is TRUE**, and the rows without a partner.
-/

namespace GSDBEngine

/-! ### Conditions -/

section where_

variable {Q : Type} (row : Row) (scope : Scope) (outer : Option OuterContext)

/-- UNKNOWN for a NULL on either side. -/
def operands_truth (op : CompareOp) (val : Value) : Except ExecErr Value → Option Truth
  | .error _ => none
  | .ok rhs => some (if val.isNull || rhs.isNull then .unknown else .ofBool (compare_operands op val rhs))

/-- A comparison or LIKE; none where a column does not resolve, and for IN. -/
def CompareExpr.truth (c : CompareExpr Q) : Option Truth :=
  match resolve_value c.column row scope outer with
  | .error _ => none
  | .ok val =>
    match c.op with
    | .IS_NULL => some (.ofBool val.isNull)
    | .IS_NOT_NULL => some (.ofBool !val.isNull)
    | .IN_SUBQUERY | .NOT_IN_SUBQUERY => none
    | op => operands_truth op val (c.rhs row scope outer)

def WhereLeaf.truth : WhereLeaf Q → Option Truth
  | .COMPARE compare => compare.truth row scope outer
  | .EXISTS _ => none

/-- **The truth value of a WHERE tree** without subqueries, all of whose columns resolve. -/
abbrev where_truth (expr : WhereExpr Q) : Option Truth := Formula.truth (WhereLeaf.truth row scope outer) expr

end where_

section having

variable (group_rows : List ScanResult) (scope : Scope)

def HavingCompareExpr.truth (c : HavingCompareExpr) : Option Truth :=
  match compute_aggregate_value c.operand group_rows scope with
  | .error _ => none
  | .ok lhs => some (if lhs.isNull || c.value.isNull then .unknown else .ofBool (compare_values lhs c.op c.value))

/-- **The truth value of a HAVING tree** on a group. -/
abbrev having_truth (expr : HavingExpr) : Option Truth := Formula.truth (HavingCompareExpr.truth group_rows scope) expr

end having

/-! ### JOIN -/

/-- `left_col = right_col`, as WHERE compares. -/
def on_clause (left_col_idx right_col_idx : ℕ) (l r : Row) : Bool :=
  compare_values (l.getD left_col_idx .null) .EQ (r.getD right_col_idx .null)

/-- The rows of a JOIN whose ON clause is `partner`. -/
def sql_join_on (partner : Row → Row → Bool) (type : JoinType) (left_width right_width : ℕ) (left right : Multiset Row) : Multiset Row :=
  OuterJoin.output partner (· ++ ·) (List.replicate left_width .null ++ ·) (· ++ List.replicate right_width .null)
    (decide (type = .LEFT)) (decide (type = .RIGHT)) left right

/-- **The rows of a JOIN.** -/
def sql_join (left_col_idx right_col_idx : ℕ) : JoinType → ℕ → ℕ → Multiset Row → Multiset Row → Multiset Row :=
  sql_join_on (on_clause left_col_idx right_col_idx)

/-- A row as it is read from a table: a value a column, and a key without NULL. -/
structure TableSchema.Holds (schema : TableSchema) (row : Row) : Prop where
  width : row.length = schema.columns.length
  key : ∃ v key, schema.extract_primary_key row = .ok (v :: key)

/-- Two values that the variant's `==` and the comparison of WHERE say the same of. -/
def Comparable (l r : Value) : Prop := ¬ (l = .null ∧ r = .null) ∧ (l.index ≠ r.index → compare_values l .EQ r = false)

end GSDBEngine
