import GSDBEngine.Spec.Sql

/-!
# Which rows a condition lets through

The executor is two-valued and takes UNKNOWN for false at the leaves. A NOT around an UNKNOWN then
comes out true.

* `conditions_iff_true`: **`evaluate_where` and `evaluate_having` return true exactly on TRUE, unless the tree is
  UNKNOWN and `Lifted`.**
* `not_equal_null`: `NOT (a = 1)` on a NULL.
-/

namespace GSDBEngine

variable {Q : Type} {runner : SubqueryRunner Q} {cache : Option (SubqueryCache Q)} {row : Row} {scope : Scope}
  {outer : Option OuterContext} {group_rows : List ScanResult} {t : Truth}

theorem decide_ofBool (b : Bool) : decide (Truth.ofBool b = .true) = b := by cases b <;> rfl

theorem Value.eq_null_of_isNull {v : Value} (h : v.isNull = true) : v = .null := by
  cases v <;> first | rfl | cases h

theorem compare_values_null (v : Value) (op : CompareOp) : compare_values v op .null = false := by cases v <;> rfl

/-! ### Leaves -/

theorem evaluate_operands {op : CompareOp} {val : Value} {x : Except ExecErr Value} (h : operands_truth op val x = some t) :
    (x >>= fun rhs => if val.isNull || rhs.isNull then pure false else pure (compare_operands op val rhs)) =
      .ok (decide (t = .true)) := by
  cases x with
  | error e => cases h
  | ok rhs =>
    obtain rfl := Option.some.inj h
    show (if val.isNull || rhs.isNull then _ else _) = _
    split
    · rfl
    · rw [decide_ofBool]
      rfl

/-- UNKNOWN comes out false. -/
theorem evaluate_compare_truth {c : CompareExpr Q} (h : c.truth row scope outer = some t) :
    evaluate_compare runner cache row scope outer c = .ok (decide (t = .true)) := by
  unfold CompareExpr.truth at h
  unfold evaluate_compare
  cases hval : resolve_value c.column row scope outer with
  | error e => rw [hval] at h; cases h
  | ok val =>
    rw [hval] at h
    cases hop : c.op with
    | IS_NULL | IS_NOT_NULL =>
      rw [hop] at h
      obtain rfl := Option.some.inj h
      rw [decide_ofBool]
      rfl
    | IN_SUBQUERY | NOT_IN_SUBQUERY =>
      rw [hop] at h
      cases h
    | _ =>
      rw [hop] at h
      exact evaluate_operands h

theorem evaluate_leaf_truth (leaf : WhereLeaf Q) (t : Truth) (h : leaf.truth row scope outer = some t) :
    evaluate_leaf runner cache row scope outer leaf = .ok (decide (t = .true)) := by
  cases leaf with
  | COMPARE compare => exact evaluate_compare_truth h
  | EXISTS subquery => cases h

theorem evaluate_having_compare_truth (c : HavingCompareExpr) (t : Truth) (h : c.truth group_rows scope = some t) :
    evaluate_having_compare group_rows scope c = .ok (decide (t = .true)) := by
  unfold HavingCompareExpr.truth at h
  unfold evaluate_having_compare
  cases hlhs : compute_aggregate_value c.operand group_rows scope with
  | error e => rw [hlhs] at h; cases h
  | ok lhs =>
    rw [hlhs] at h
    obtain rfl := Option.some.inj h
    show (if lhs.isNull then _ else _) = _
    cases hnull : lhs.isNull with
    | true => rfl
    | false =>
      cases hvalue : c.value.isNull with
      | true =>
        have hv : c.value = .null := Value.eq_null_of_isNull hvalue
        simp only [hv, compare_values_null, Bool.false_or]
        rfl
      | false =>
        simp only [Bool.false_or, Bool.false_eq_true, if_false, decide_ofBool]
        rfl

/-! ### Trees -/

/-- Without NOT the executor is right. -/
theorem evaluate_where_of_notFree {expr : WhereExpr Q} (hexpr : expr.NotFree) (h : where_truth row scope outer expr = some t) :
    evaluate_where runner cache row scope outer (some expr) = .ok (decide (t = .true)) :=
  (Formula.eval_iff evaluate_leaf_truth h).2 fun hu => Formula.not_lifted_of_notFree hexpr hu.2

theorem evaluate_having_of_notFree {expr : HavingExpr} (hexpr : expr.NotFree) (h : having_truth group_rows scope expr = some t) :
    evaluate_having group_rows scope (some expr) = .ok (decide (t = .true)) :=
  (Formula.eval_iff evaluate_having_compare_truth h).2 fun hu => Formula.not_lifted_of_notFree hexpr hu.2

/-- **A row is let through, and a group is kept, exactly where the condition is TRUE, unless it is UNKNOWN and lifted.** -/
theorem conditions_iff_true (runner : SubqueryRunner Q) (cache : Option (SubqueryCache Q)) (row : Row) (group_rows : List ScanResult)
    (scope : Scope) (outer : Option OuterContext) :
    (∀ (expr : WhereExpr Q) (t : Truth), where_truth row scope outer expr = some t →
      (evaluate_where runner cache row scope outer (some expr) = .ok (decide (t = .true)) ↔
        ¬ (t = .unknown ∧ expr.Lifted (WhereLeaf.truth row scope outer)))) ∧
    ∀ (expr : HavingExpr) (t : Truth), having_truth group_rows scope expr = some t →
      (evaluate_having group_rows scope (some expr) = .ok (decide (t = .true)) ↔
        ¬ (t = .unknown ∧ expr.Lifted (HavingCompareExpr.truth group_rows scope))) :=
  ⟨fun _ _ h => Formula.eval_iff evaluate_leaf_truth h, fun _ _ h => Formula.eval_iff evaluate_having_compare_truth h⟩

/-! ### `NOT (a = 1)` on a NULL -/

/-- A key `k` and a nullable `a`, both INT. -/
def nullable_scope : Scope where
  schema :=
    { name := [116]
      columns :=
        [{ name := [107], type := .INT, max_length := 0, is_nullable := false, is_primary_key := true, auto_increment := false,
           has_default := false, default_value := .null, no_default := fun _ => rfl },
         { name := [97], type := .INT, max_length := 0, is_nullable := true, is_primary_key := false, auto_increment := false,
           has_default := false, default_value := .null, no_default := fun _ => rfl }]
      root_page := 1
      primary_key_indices := [0]
      checks := []
      foreign_keys := []
      create_sql := [] }
  right_schema := none
  table_alias := []
  right_alias := []

def equals_one : WhereExpr Empty := .leaf (.COMPARE ⟨⟨[], [97]⟩, .EQ, .int 1, none, none⟩)

/-- `COUNT(a) = NULL`. -/
def count_null : HavingExpr := .leaf ⟨⟨false, false, .null, ⟨[], [97]⟩, .COUNT_COLUMN⟩, .EQ, .null⟩

/-- No subquery is run. -/
def no_subqueries : SubqueryRunner Empty := ⟨nofun, nofun⟩

theorem conditions_iff_true_null :
    (evaluate_where no_subqueries none [.int 7, .null] nullable_scope none (some equals_one) = .ok false ↔
      ¬ (Truth.unknown = .unknown ∧ equals_one.Lifted (WhereLeaf.truth [.int 7, .null] nullable_scope none))) ∧
    (evaluate_having [] nullable_scope (some count_null) = .ok false ↔
      ¬ (Truth.unknown = .unknown ∧ count_null.Lifted (HavingCompareExpr.truth [] nullable_scope))) :=
  ⟨(conditions_iff_true no_subqueries none [.int 7, .null] [] nullable_scope none).1 equals_one .unknown rfl,
    (conditions_iff_true no_subqueries none [.int 7, .null] [] nullable_scope none).2 count_null .unknown rfl⟩

theorem not_equal_null : where_truth [.int 7, .null] nullable_scope none (.not equals_one) = some .unknown ∧
    evaluate_where no_subqueries none [.int 7, .null] nullable_scope none (some (.not equals_one)) = .ok true := ⟨rfl, rfl⟩

end GSDBEngine
