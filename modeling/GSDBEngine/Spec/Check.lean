import GSDBEngine.Spec.Ddl
import GSDBEngine.Spec.Grammar
import GSDBEngine.Spec.Sql

/-!
# CHECK constraints

`executor.cpp`: a row is tested against the flat list that `flatten_check_expr` makes of the expressions, with the comparison of WHERE.

* `find_violated_check`: the first constraint that a row does not meet.
* `Checkable`: the expressions that can be a CHECK. `NullOnNull`: no value is compared with the literal NULL.
* `Checks`: **what CHECK is to do with an expression on a row**, before and after the catalog was stored.
-/

namespace GSDBEngine

def check_op_to_compare_op : CheckOp → CompareOp
  | .EQ => .EQ
  | .NEQ => .NEQ
  | .LT => .LT
  | .GT => .GT
  | .LTE => .LTE
  | .GTE => .GTE

/-- There is no subquery in a CHECK. -/
def no_runner : SubqueryRunner Empty := ⟨fun q _ => q.elim, fun q _ => q.elim⟩

section row

variable (schema : TableSchema) (row : Row)

/-- The columns of a row of the table. -/
def TableSchema.own_scope : Scope := ⟨schema, none, [], []⟩

/-- Whether a row fails a constraint; NULL does not. -/
def violates (c : CheckConstraint) : Except ExecErr Bool :=
  match schema.columns[c.column_index.toNat]? with
  -- an index outside of the schema is undefined
  | none => throw .column_out_of_range
  | some col => do
    let val ← row.get c.column_index.toNat
    if val.isNull then pure false
    else do
      let met ← evaluate_compare no_runner none row schema.own_scope none ⟨⟨[], col.name⟩, check_op_to_compare_op c.op, c.operand, none, none⟩
      pure !met

/-- The loop, from the `i`-th constraint on; none is `-1`. -/
def find_violated_from : ℕ → List CheckConstraint → Except ExecErr (Option ℕ)
  | _, [] => pure none
  | i, c :: checks => do
    if ← violates schema row c then pure (some i) else find_violated_from (i + 1) checks

def find_violated_check : Except ExecErr (Option ℕ) := find_violated_from schema row 0 schema.checks

end row

/-! ### What is to hold -/

section expr

variable {Q : Type} (schema : TableSchema) (row : Row)

def comparisons : List CompareOp := [.EQ, .NEQ, .LT, .GT, .LTE, .GTE]

/-- A comparison of a column of the table with a literal. -/
def ColumnAgainstLiteral : WhereLeaf Q → Prop
  | .EXISTS _ => False
  | .COMPARE cmp => cmp.operand_column = none ∧ cmp.column.table_name = [] ∧ (schema.column_index cmp.column.column_name).isSome = true ∧
      cmp.op ∈ comparisons

/-- A conjunction of such comparisons. -/
def Checkable : WhereExpr Q → Prop
  | .leaf a => ColumnAgainstLiteral schema a
  | .and left right => Checkable left ∧ Checkable right
  | .or _ _ => False
  | .not _ => False

/-- Only a NULL is compared with the literal NULL. -/
def NullOnNull : WhereLeaf Q → Prop
  | .EXISTS _ => True
  | .COMPARE cmp => cmp.operand = .null → resolve_value cmp.column row schema.own_scope none = .ok .null

/-- A violation is reported exactly on a row that makes the expression FALSE. -/
def ViolatedOnFalse (expr : WhereExpr Q) : Prop :=
  (∃ i, find_violated_check schema row = .ok (some i)) ↔ where_truth row schema.own_scope none expr = some .false

/-- The table as it is read back from page 1 gives the same verdict. -/
def SameWhenStored (c : Catalog) : Prop :=
  ∃ cat stored, Catalog.deserialize (c.serialize ++ List.replicate (PAGE_SIZE - c.serialize.length) 0) = some cat ∧
    cat.tables.lookup schema.name = some stored ∧ find_violated_check stored row = find_violated_check schema row

/-- **CHECK does what it says with an expression**: it is refused, unless all of it is tested; a row violates it exactly if it is FALSE; and it
is the same CHECK after the catalog was stored. -/
structure Checks (c : Catalog) (expr : WhereExpr Q) : Prop where
  refused : ¬ Checkable schema expr → ∃ e, flatten_check_expr schema expr = .error e
  judged : flatten_check_expr schema expr = .ok schema.checks → ViolatedOnFalse schema row expr
  stored : SameWhenStored schema row c

end expr

end GSDBEngine
