import GSDBEngine.Lib.Eff
import GSDBEngine.Proof.Ddl
import GSDBEngine.Proof.RoundTrip
import GSDBEngine.Spec.Check

/-!
# CHECK constraints

* `flatten_iff`: **only conjunctions of comparisons with literals are taken.**
* `violates_flattened`: a comparison, on a row. `flattened_violated`: all of them, by induction over the expression.
* `checks_iff`: **the verdict is right exactly if no value is compared with the literal NULL, or the expression is FALSE all the same.**
-/

namespace GSDBEngine

variable {Q : Type} {schema : TableSchema} {row : Row}

/-! ### The flat list -/

theorem compare_op_to_check_op_ok {op : CompareOp} (h : op ∈ comparisons) :
    ∃ check_op, compare_op_to_check_op op = .ok check_op ∧ check_op_to_compare_op check_op = op := by
  cases op with
  | EQ => exact ⟨.EQ, rfl, rfl⟩
  | NEQ => exact ⟨.NEQ, rfl, rfl⟩
  | LT => exact ⟨.LT, rfl, rfl⟩
  | GT => exact ⟨.GT, rfl, rfl⟩
  | LTE => exact ⟨.LTE, rfl, rfl⟩
  | GTE => exact ⟨.GTE, rfl, rfl⟩
  | LIKE | IS_NULL | IS_NOT_NULL | IN_SUBQUERY | NOT_IN_SUBQUERY => exact absurd h (by decide)

theorem compare_op_to_check_op_error {op : CompareOp} (h : op ∉ comparisons) : compare_op_to_check_op op = .error .operator := by
  cases op with
  | LIKE | IS_NULL | IS_NOT_NULL | IN_SUBQUERY | NOT_IN_SUBQUERY => rfl
  | EQ | NEQ | LT | GT | LTE | GTE => exact absurd (by decide) h

/-- A leaf that is taken is one constraint, of the first column of the name. -/
theorem flatten_leaf {cmp : CompareExpr Q} (h : ColumnAgainstLiteral schema (.COMPARE cmp)) :
    ∃ idx check_op, schema.column_index cmp.column.column_name = some idx ∧ check_op_to_compare_op check_op = cmp.op ∧
      flatten_check_expr schema (.leaf (.COMPARE cmp)) = .ok [⟨UInt32.ofNat idx, check_op, cmp.operand⟩] := by
  obtain ⟨hoperand, htable, hcolumn, hop⟩ := h
  obtain ⟨idx, hidx⟩ := Option.isSome_iff_exists.1 hcolumn
  obtain ⟨check_op, hcheck, hback⟩ := compare_op_to_check_op_ok hop
  refine ⟨idx, check_op, hidx, hback, ?_⟩
  unfold flatten_check_expr
  rw [hoperand, htable, hidx, hcheck]
  rfl

theorem flatten_refused : ∀ {expr : WhereExpr Q}, ¬ Checkable schema expr → ∃ e, flatten_check_expr schema expr = .error e
  | .or _ _, _ => ⟨.not_a_conjunction, rfl⟩
  | .not _, _ => ⟨.not_a_conjunction, rfl⟩
  | .leaf (.EXISTS _), _ => ⟨.has_subquery, rfl⟩
  | .and left right, h => by
    have ihl := @flatten_refused left
    have ihr := @flatten_refused right
    unfold flatten_check_expr
    by_cases hleft : Checkable schema left
    · cases hok : flatten_check_expr schema left with
      | error e => exact ⟨e, rfl⟩
      | ok checks =>
        obtain ⟨e, he⟩ := ihr fun hright => h ⟨hleft, hright⟩
        refine ⟨e, ?_⟩
        rw [he]
        rfl
    · obtain ⟨e, he⟩ := ihl hleft
      refine ⟨e, ?_⟩
      rw [he]
      rfl
  | .leaf (.COMPARE cmp), h => by
    unfold flatten_check_expr
    by_cases hoperand : cmp.operand_column.isSome = true
    · exact ⟨.against_column, if_pos hoperand⟩
    rw [if_neg hoperand]
    by_cases htable : cmp.column.table_name ≠ []
    · exact ⟨.qualified cmp.column.column_name, if_pos htable⟩
    rw [if_neg htable]
    cases hcolumn : schema.column_index cmp.column.column_name with
    | none => exact ⟨.unknown_column cmp.column.column_name, rfl⟩
    | some idx =>
      by_cases hop : cmp.op ∈ comparisons
      · have hnone : cmp.operand_column = none := by
          cases hc : cmp.operand_column with
          | none => rfl
          | some ref =>
            rw [hc] at hoperand
            exact absurd rfl hoperand
        have hsome : (schema.column_index cmp.column.column_name).isSome = true := by
          rw [hcolumn]
          rfl
        exact absurd ⟨hnone, not_not.1 htable, hsome, hop⟩ h
      · refine ⟨.operator, ?_⟩
        rw [compare_op_to_check_op_error hop]
        rfl

theorem checkable_of_flatten {expr : WhereExpr Q} {checks : List CheckConstraint} (h : flatten_check_expr schema expr = .ok checks) :
    Checkable schema expr := by
  by_contra hno
  obtain ⟨e, he⟩ := flatten_refused hno
  rw [he] at h
  cases h

/-! ### A row -/

theorem resolve_own {name : Bytes} {idx : ℕ} {val : Value} (hidx : schema.column_index name = some idx) (hval : row[idx]? = some val) :
    resolve_value ⟨[], name⟩ row schema.own_scope none = .ok val := by
  have htry : schema.own_scope.try_resolve ⟨[], name⟩ = .ok (some idx) := by
    show Except.ok (try_resolve_column ⟨[], name⟩ schema []) = _
    rw [← hidx]
    rfl
  have hget : Row.get row idx = .ok val := by
    unfold Row.get
    rw [hval]
    rfl
  unfold resolve_value
  rw [htry]
  exact hget

section comparison

variable {R : Type} {scope : Scope} {cmp : CompareExpr R} {val : Value}

/-- A comparison, of a value that was resolved. -/
theorem comparison_truth (hop : cmp.op ∈ comparisons) (hoperand : cmp.operand_column = none)
    (hval : resolve_value cmp.column row scope none = .ok val) : cmp.truth row scope none =
      some (if val.isNull || cmp.operand.isNull then .unknown else .ofBool (compare_operands cmp.op val cmp.operand)) := by
  have htruth : operands_truth cmp.op val (cmp.rhs row scope none) =
      some (if val.isNull || cmp.operand.isNull then .unknown else .ofBool (compare_operands cmp.op val cmp.operand)) := by
    unfold CompareExpr.rhs
    rw [hoperand]
    rfl
  unfold CompareExpr.truth
  rw [hval]
  cases hc : cmp.op with
  | LIKE | IS_NULL | IS_NOT_NULL | IN_SUBQUERY | NOT_IN_SUBQUERY =>
    rw [hc] at hop
    exact absurd hop (by decide)
  | EQ | NEQ | LT | GT | LTE | GTE =>
    rw [hc] at htruth
    exact htruth

theorem comparison_evaluated (runner : SubqueryRunner R) (hop : cmp.op ∈ comparisons) (hoperand : cmp.operand_column = none)
    (hval : resolve_value cmp.column row scope none = .ok val) : evaluate_compare runner none row scope none cmp =
      .ok (!(val.isNull || cmp.operand.isNull) && compare_operands cmp.op val cmp.operand) := by
  have hevaluate : (cmp.rhs row scope none >>= fun rhs =>
      if val.isNull || rhs.isNull then pure false else pure (compare_operands cmp.op val rhs)) =
        Except.ok (!(val.isNull || cmp.operand.isNull) && compare_operands cmp.op val cmp.operand) := by
    unfold CompareExpr.rhs
    rw [hoperand]
    show (if val.isNull || cmp.operand.isNull then pure false else pure (compare_operands cmp.op val cmp.operand)) = _
    cases val.isNull || cmp.operand.isNull <;> rfl
  unfold evaluate_compare
  rw [hval]
  cases hc : cmp.op with
  | LIKE | IS_NULL | IS_NOT_NULL | IN_SUBQUERY | NOT_IN_SUBQUERY =>
    rw [hc] at hop
    exact absurd hop (by decide)
  | EQ | NEQ | LT | GT | LTE | GTE =>
    rw [hc] at hevaluate
    exact hevaluate

end comparison

/-- **The verdict on one constraint**: a value is tested, also against the literal NULL. -/
theorem violates_flattened (hrow : row.length = schema.columns.length) (hcolumns : schema.columns.length < 2 ^ 32) {cmp : CompareExpr Q}
    (h : ColumnAgainstLiteral schema (.COMPARE cmp)) :
    ∃ c val, flatten_check_expr schema (.leaf (.COMPARE cmp)) = .ok [c] ∧ resolve_value cmp.column row schema.own_scope none = .ok val ∧
      cmp.truth row schema.own_scope none =
        some (if val.isNull || cmp.operand.isNull then .unknown else .ofBool (compare_operands cmp.op val cmp.operand)) ∧
      violates schema row c = .ok (!val.isNull && !(!cmp.operand.isNull && compare_operands cmp.op val cmp.operand)) := by
  obtain ⟨idx, check_op, hidx, hback, hok⟩ := flatten_leaf h
  obtain ⟨hoperand, htable, -, hop⟩ := h
  have hlt := column_index_lt hidx
  have hto : (UInt32.ofNat idx).toNat = idx := toNat_ofNat_of_lt hlt hcolumns
  obtain ⟨col, hcol, hname⟩ := Option.map_eq_some_iff.1 (column_index_name hidx)
  obtain ⟨val, hval⟩ : ∃ val, row[idx]? = some val := ⟨_, List.getElem?_eq_getElem (hlt.trans_eq hrow.symm)⟩
  have hresolve : ∀ ref : ColumnRef, ref.table_name = [] → ref.column_name = cmp.column.column_name →
      resolve_value ref row schema.own_scope none = .ok val := by
    rintro ⟨table_name, column_name⟩ htable hcolumn
    dsimp only at htable hcolumn
    subst htable hcolumn
    exact resolve_own hidx hval
  refine ⟨_, val, hok, hresolve _ htable rfl, comparison_truth hop hoperand (hresolve _ htable rfl), ?_⟩
  have hget : Row.get row idx = .ok val := by
    unfold Row.get
    rw [hval]
    rfl
  have hmet : evaluate_compare no_runner none row schema.own_scope none
      ⟨⟨[], col.name⟩, check_op_to_compare_op check_op, cmp.operand, none, none⟩ =
        .ok (!(val.isNull || cmp.operand.isNull) && compare_operands (check_op_to_compare_op check_op) val cmp.operand) :=
    comparison_evaluated no_runner (by rw [hback]; exact hop) rfl (hresolve _ rfl hname)
  unfold violates
  dsimp only
  rw [hto, hcol]
  dsimp only
  rw [hget]
  show (if val.isNull then pure false else evaluate_compare no_runner none row schema.own_scope none _ >>= fun met => pure (!met)) = _
  rw [hmet, hback]
  cases hnull : val.isNull <;> rfl

theorem null_iff {v : Value} : v.isNull = true ↔ v = .null := by
  cases v with
  | null => exact ⟨fun _ => rfl, fun _ => rfl⟩
  | int _ | float _ | boolean _ | varchar _ => exact ⟨fun h => (by cases h), fun h => (by cases h)⟩

/-- **All constraints of an expression**: a row fails one if the expression is FALSE, or where a value is compared with NULL. The induction is
over the conjunction, and a part that is FALSE makes all of it FALSE. -/
theorem flattened_violated (hrow : row.length = schema.columns.length) (hcolumns : schema.columns.length < 2 ^ 32) :
    ∀ {expr : WhereExpr Q} {checks : List CheckConstraint}, flatten_check_expr schema expr = .ok checks →
      ∃ t, where_truth row schema.own_scope none expr = some t ∧ (∀ c ∈ checks, ∃ b, violates schema row c = .ok b) ∧
        ((∃ c ∈ checks, violates schema row c = .ok true) ↔ t = .false ∨ ¬ every_leaf (NullOnNull schema row) expr)
  | .or _ _, _, h => by cases h
  | .not _, _, h => by cases h
  | .leaf (.EXISTS _), _, h => by cases h
  | .leaf (.COMPARE cmp), checks, h => by
    obtain ⟨c, val, hflatten, hval, htruth, hviolates⟩ := violates_flattened hrow hcolumns (checkable_of_flatten h)
    obtain rfl := Except.ok.inj (h.symm.trans hflatten)
    refine ⟨_, htruth, fun c' hc' => ?_, ?_⟩
    · obtain rfl := List.mem_singleton.1 hc'
      exact ⟨_, hviolates⟩
    · have hnull : every_leaf (NullOnNull schema row) (.leaf (.COMPARE cmp)) ↔ (cmp.operand.isNull = true → val.isNull = true) := by
        show (cmp.operand = .null → resolve_value cmp.column row schema.own_scope none = .ok .null) ↔ _
        rw [hval, Except.ok.injEq, null_iff, null_iff]
      have hsingle : (∃ c' ∈ [c], violates schema row c' = .ok true) ↔
          (!val.isNull && !(!cmp.operand.isNull && compare_operands cmp.op val cmp.operand)) = true := by
        simp only [List.mem_singleton, exists_eq_left, hviolates, Except.ok.injEq]
      rw [hnull, hsingle]
      cases val.isNull <;> cases cmp.operand.isNull <;> cases compare_operands cmp.op val cmp.operand <;> decide
  | .and left right, checks, h => by
    have ihl := @flattened_violated hrow hcolumns left
    have ihr := @flattened_violated hrow hcolumns right
    unfold flatten_check_expr at h
    obtain ⟨checks₁, hleft, h⟩ := Eff.except_bind_ok h
    obtain ⟨checks₂, hright, h⟩ := Eff.except_bind_ok h
    obtain rfl := Except.ok.inj h
    obtain ⟨t₁, ht₁, hall₁, hviolated₁⟩ := ihl hleft
    obtain ⟨t₂, ht₂, hall₂, hviolated₂⟩ := ihr hright
    refine ⟨t₁.and t₂, ?_, fun c hc => ?_, ?_⟩
    · show (where_truth row schema.own_scope none left >>= fun t => where_truth row schema.own_scope none right >>= fun t' =>
        pure (t.and t')) = some (t₁.and t₂)
      rw [ht₁, ht₂]
      rfl
    · rcases List.mem_append.1 hc with hc | hc
      · exact hall₁ c hc
      · exact hall₂ c hc
    · have happ : (∃ c ∈ checks₁ ++ checks₂, violates schema row c = .ok true) ↔
          (∃ c ∈ checks₁, violates schema row c = .ok true) ∨ ∃ c ∈ checks₂, violates schema row c = .ok true := by
        simp only [List.mem_append, or_and_right, exists_or]
      have hfalse : t₁.and t₂ = .false ↔ t₁ = .false ∨ t₂ = .false := by
        cases t₁ <;> cases t₂ <;> decide
      have hevery : every_leaf (NullOnNull schema row) (.and left right) ↔
          every_leaf (NullOnNull schema row) left ∧ every_leaf (NullOnNull schema row) right := Iff.rfl
      rw [happ, hviolated₁, hviolated₂, hfalse, hevery, not_and_or]
      exact or_or_or_comm

/-- The loop stops at a constraint that is violated. -/
theorem find_violated_iff : ∀ {checks : List CheckConstraint} (i : ℕ), (∀ c ∈ checks, ∃ b, violates schema row c = .ok b) →
    ((∃ j, find_violated_from schema row i checks = .ok (some j)) ↔ ∃ c ∈ checks, violates schema row c = .ok true)
  | [], i, _ => by
    refine ⟨fun ⟨j, hj⟩ => (by cases hj), fun ⟨c, hc, _⟩ => absurd hc List.not_mem_nil⟩
  | c :: checks, i, h => by
    have ih := find_violated_iff (i + 1) fun c' hc' => h c' (List.mem_cons_of_mem c hc')
    obtain ⟨b, hb⟩ := h c List.mem_cons_self
    have hstep : find_violated_from schema row i (c :: checks) = if b = true then .ok (some i) else find_violated_from schema row (i + 1) checks := by
      rw [find_violated_from, hb]
      rfl
    rw [hstep, List.exists_mem_cons_iff, hb, Except.ok.injEq]
    cases b with
    | true => exact ⟨fun _ => .inl rfl, fun _ => ⟨i, rfl⟩⟩
    | false =>
      rw [if_neg Bool.false_ne_true, ih]
      exact ⟨.inr, fun h => h.resolve_left Bool.false_ne_true⟩

/-! ### The catalog -/

theorem same_when_stored {c : Catalog} (hc : c.Named) (hfits : c.serialize.length ≤ PAGE_SIZE) (ht : c.tables.lookup schema.name = some schema) :
    SameWhenStored schema row c := by
  have hlen : c.serialize.length < 2 ^ 32 := lt_of_le_of_lt hfits (by decide)
  obtain ⟨cat, hcat, hsame⟩ := Catalog.deserialize_serialize hc hlen (List.replicate (PAGE_SIZE - c.serialize.length) 0)
  have htables : c.tables.entries ≠ [] := by
    intro hnil
    have hempty : c.tables = ∅ := AList.ext hnil
    rw [hempty, AList.lookup_empty] at ht
    cases ht
  have hlookup := (hsame.2 fun hnil => absurd hnil htables).1 schema.name
  exact ⟨cat, schema, hcat, hlookup.trans ht, rfl⟩

/-- **A CHECK is right exactly where no value meets the literal NULL, or the expression is FALSE all the same.** -/
theorem checks_iff {c : Catalog} (hc : c.Named) (hfits : c.serialize.length ≤ PAGE_SIZE) (ht : c.tables.lookup schema.name = some schema)
    (hrow : row.length = schema.columns.length) (expr : WhereExpr Q) : Checks schema row c expr ↔
      (flatten_check_expr schema expr = .ok schema.checks →
        where_truth row schema.own_scope none expr = some .false ∨ every_leaf (NullOnNull schema row) expr) := by
  have hcolumns : schema.columns.length < 2 ^ 32 := columns_lt ht hfits
  have hjudged : flatten_check_expr schema expr = .ok schema.checks → (ViolatedOnFalse schema row expr ↔
      where_truth row schema.own_scope none expr = some .false ∨ every_leaf (NullOnNull schema row) expr) := by
    intro hflatten
    obtain ⟨t, htruth, hall, hviolated⟩ := flattened_violated hrow hcolumns hflatten
    unfold ViolatedOnFalse find_violated_check
    rw [find_violated_iff 0 hall, hviolated, htruth, Option.some.injEq]
    by_cases hfalse : t = .false
    · exact ⟨fun _ => .inl hfalse, fun _ => ⟨fun _ => hfalse, fun _ => .inl hfalse⟩⟩
    · refine ⟨fun h => .inr ?_, fun h => ⟨fun hor => absurd (h.resolve_left hfalse) (hor.resolve_left hfalse), fun h => absurd h hfalse⟩⟩
      by_contra hno
      exact hfalse (h.1 (.inr hno))
  constructor
  · intro h hflatten
    exact (hjudged hflatten).1 (h.judged hflatten)
  · intro h
    exact ⟨flatten_refused, fun hflatten => (hjudged hflatten).2 (h hflatten), same_when_stored hc hfits ht⟩

/-! ### `CHECK (a > NULL)` -/

/-- An INT `a` that is greater than a literal. -/
def greater_schema (operand : Value) : TableSchema where
  name := [116]
  columns :=
    [{ name := [97], type := .INT, max_length := 0, is_nullable := true, is_primary_key := false, auto_increment := false,
       has_default := false, default_value := .null, no_default := fun _ => rfl }]
  root_page := 1
  primary_key_indices := []
  checks := [⟨0, .GT, operand⟩]
  foreign_keys := []
  create_sql := []

def greater_than (operand : Value) : WhereExpr Empty := .leaf (.COMPARE ⟨⟨[], [97]⟩, .GT, operand, none, none⟩)

def one_table (schema : TableSchema) : Catalog := ⟨AList.singleton schema.name schema, ∅⟩

theorem one_table_named (schema : TableSchema) : (one_table schema).Named := by
  refine ⟨fun n x hx => ?_, fun n x hx => ?_⟩
  · cases List.mem_singleton.1 (AList.mem_lookup_iff.1 hx)
    rfl
  · have hnone : (∅ : NameMap IndexSchema).lookup n = some x := hx
    rw [AList.lookup_empty] at hnone
    cases hnone

theorem checks_greater : Checks (greater_schema (.int 3)) [.int 5] (one_table (greater_schema (.int 3))) (greater_than (.int 3)) ↔
    (flatten_check_expr (greater_schema (.int 3)) (greater_than (.int 3)) = .ok (greater_schema (.int 3)).checks →
      where_truth [.int 5] (greater_schema (.int 3)).own_scope none (greater_than (.int 3)) = some .false ∨
        every_leaf (NullOnNull (greater_schema (.int 3)) [.int 5]) (greater_than (.int 3))) :=
  checks_iff (one_table_named _) (by decide) rfl rfl (greater_than (.int 3))

/-- `5 > NULL` is UNKNOWN, and the row is rejected. -/
theorem greater_than_null : ¬ ∀ expr : WhereExpr Empty, flatten_check_expr (greater_schema .null) expr = .ok (greater_schema .null).checks →
    ViolatedOnFalse (greater_schema .null) [.int 5] expr := by
  intro h
  have hviolated : find_violated_check (greater_schema .null) [.int 5] = .ok (some 0) := rfl
  have hfalse := (h (greater_than .null) rfl).1 ⟨0, hviolated⟩
  have hunknown : where_truth [.int 5] (greater_schema .null).own_scope none (greater_than .null) = some .unknown := rfl
  rw [hunknown] at hfalse
  cases hfalse

end GSDBEngine
