import GSDBEngine.Spec.Subqueries
import GSDBEngine.Proof.Matched

/-!
# Scans through an index and without one

The conditions that WHERE joins by AND hold of every row that it lets through. They are collected by column, and an index is searched for
them, as its columns store the values. So a row that WHERE lets through has its entry among those that are scanned, if it has an entry.

* `Compares`: a comparison that is true, of numbers that a float does not round.
* `collect_met`: what is collected is met by the row. `match_columns_selects`: what is met selects the entry.
* `index_scan_exact`: **a scan through an index returns the rows of the plain scan exactly if each of them has an entry**, and the range is
  over the last column.
-/

namespace GSDBEngine

open Eff

variable {Q : Type} {v w x : Value} {op : CompareOp} {col_type : ColumnType} {schema : TableSchema} {table_alias : Bytes}
  {outer : Option OuterContext} {row : Row}

/-! ### Whole numbers -/

/-- A significand that is shifted down is that of the number. -/
theorem ofNat_shifted {significand n k : ℕ} (hlow : 2 ^ 23 ≤ significand) (hhigh : significand < 2 ^ 24) (hk : significand = n * 2 ^ k) (hk23 : k ≤ 23) :
    Single.ofNat n = (149 - k) * 2 ^ 23 + significand := by
  have hn0 : n ≠ 0 := by
    rintro rfl
    omega
  have hsplit : (2 : ℕ) ^ 23 = 2 ^ (23 - k) * 2 ^ k := by rw [← pow_add, Nat.sub_add_cancel hk23]
  have hsplit' : (2 : ℕ) ^ 24 = 2 ^ (24 - k) * 2 ^ k := by rw [← pow_add, Nat.sub_add_cancel (by omega)]
  have hlower : 2 ^ (23 - k) ≤ n := by
    rw [hk, hsplit] at hlow
    exact Nat.le_of_mul_le_mul_right hlow (Nat.two_pow_pos k)
  have hupper : n < 2 ^ (24 - k) := by
    rw [hk, hsplit'] at hhigh
    exact Nat.lt_of_mul_lt_mul_right hhigh
  have hlog : n.log2 = 23 - k := (Nat.log2_eq_iff hn0).2 ⟨hlower, by rwa [show 23 - k + 1 = 24 - k by omega]⟩
  have hn : n < 2 ^ 24 := lt_of_lt_of_le hupper (Nat.pow_le_pow_right (by decide) (by omega))
  rw [Single.ofNat_of_lt hn0 hn, hlog, show 23 - (23 - k) = k by omega, ← hk]
  omega

/-- **A small whole number is its integer**, as a float. -/
theorem whole_number_order {x : Single} {k : ℤ} (h : whole_number x = some k) (hk : k.natAbs < 2 ^ 24) :
    x.isNaN = false ∧ x.order = (Single.ofInt k).order := by
  have hmag : x.magnitude < 2 ^ 31 := Nat.mod_lt _ (by decide)
  have hdiv := Nat.div_add_mod x.magnitude (2 ^ 23)
  have hfrac : x.magnitude % 2 ^ 23 < 2 ^ 23 := Nat.mod_lt _ (by decide)
  unfold whole_number at h
  dsimp only at h
  generalize hE : x.magnitude / 2 ^ 23 = E at h hdiv
  generalize hF : x.magnitude % 2 ^ 23 = F at h hdiv hfrac
  -- the number without its sign
  have hsigned : ∀ n : ℕ, (if x.isNegative = true then -(n : ℤ) else n) = k → (n < 2 ^ 24 → Single.ofNat n = x.magnitude) →
      x.order = (Single.ofInt k).order := by
    intro n hsign hof
    have habs : k.natAbs = n := by
      rw [← hsign]
      split <;> omega
    have hof := hof (by omega)
    rw [Single.ofInt_order hk, habs, hof]
    unfold Single.order
    cases hneg : x.isNegative with
    | true =>
      rw [hneg, if_pos rfl] at hsign
      rw [if_pos rfl]
      by_cases hn0 : n = 0
      · -- the negative zero
        subst hn0
        rw [← hof, if_neg (by omega)]
        rfl
      · rw [if_pos (by omega)]
    | false =>
      rw [hneg, if_neg (by decide)] at hsign
      rw [if_neg (by decide), if_neg (by omega)]
  by_cases hinf : E = 255
  · rw [if_pos hinf] at h
    cases h
  rw [if_neg hinf] at h
  have hnan : x.isNaN = false := decide_eq_false (by omega)
  refine ⟨hnan, ?_⟩
  by_cases hbig : 150 ≤ E
  · -- a factor of two at least: only the significand itself is small
    rw [if_pos hbig, if_neg (by omega : ¬ E = 0)] at h
    refine hsigned _ (Option.some.inj h) fun hn => ?_
    have hE150 : E = 150 := by
      by_contra hne
      have hpow : 2 ≤ 2 ^ (E - 150) := by
        calc 2 = 2 ^ 1 := rfl
          _ ≤ 2 ^ (E - 150) := Nat.pow_le_pow_right (by decide) (by omega)
      have hmul : (2 ^ 23 + F) * 2 ≤ (2 ^ 23 + F) * 2 ^ (E - 150) := Nat.mul_le_mul_left _ hpow
      omega
    subst hE150
    have hshift := @ofNat_shifted (2 ^ 23 + F) ((2 ^ 23 + F) * 2 ^ (150 - 150)) 0 (by omega) (by omega)
      (by rw [Nat.sub_self, pow_zero, Nat.mul_one, Nat.mul_one]) (by omega)
    omega
  · rw [if_neg hbig] at h
    by_cases hE0 : E = 0
    · -- a fraction this small is zero
      rw [if_pos hE0, hE0] at h
      split at h
      · rename_i hmod
        refine hsigned _ (Option.some.inj h) fun hn => ?_
        have hF0 : F = 0 := by
          by_contra hne
          have hle := Nat.le_of_dvd (Nat.pos_of_ne_zero hne) (Nat.dvd_of_mod_eq_zero hmod)
          have hpow : (2 : ℕ) ^ 23 ≤ 2 ^ (150 - max 1 0) := Nat.pow_le_pow_right (by decide) (by decide)
          omega
        rw [hF0, Nat.zero_div]
        show 0 = _
        omega
      · cases h
    · rw [if_neg hE0, show max 1 E = E by omega] at h
      split at h
      · rename_i hmod
        refine hsigned _ (Option.some.inj h) fun hn => ?_
        have hdvd := Nat.div_mul_cancel (Nat.dvd_of_mod_eq_zero hmod)
        have hk23 : 150 - E ≤ 23 := by
          by_contra hlt
          have hle := Nat.le_of_dvd (by omega) (Nat.dvd_of_mod_eq_zero hmod)
          have hpow : (2 : ℕ) ^ 24 ≤ 2 ^ (150 - E) := Nat.pow_le_pow_right (by decide) (by omega)
          omega
        rw [ofNat_shifted (by omega) (by omega) hdvd.symm hk23]
        omega
      · cases h

/-! ### Comparisons -/

/-- An integer and a float that it is compared with are not rounded. -/
def Exactly (v x : Value) : Prop :=
  ∀ n f, v = .int n → x = .float f → n.toInt.natAbs < 2 ^ 24 ∧ ∀ k, whole_number f = some k → k.natAbs < 2 ^ 24

/-- A comparison that is true. -/
structure Compares (v : Value) (op : CompareOp) (x : Value) : Prop where
  holds : compare_values v op x = true
  exactly : Exactly v x

/-- Comparisons of floats and of integers in one order. -/
theorem compare_same_congr {a b a' b' : Value} (hlt : a.lt b = a'.lt b') (hgt : b.lt a = b'.lt a') (heq : a.eq b = a'.eq b') (op : CompareOp) :
    compare_same a op b = compare_same a' op b' := by
  cases op <;> simp only [compare_same, hlt, hgt, heq]

/-- A whole number in an INT column. -/
theorem compare_whole {n : Int32} {f : Single} {k : ℤ} (hn : n.toInt.natAbs < 2 ^ 24) (hwhole : whole_number f = some k) (hk : k.natAbs < 2 ^ 24)
    (op : CompareOp) : compare_same (.float (Single.ofInt n.toInt)) op (.float f) = compare_same (.int n) op (.int (Int32.ofInt k)) := by
  obtain ⟨hnan, horder⟩ := whole_number_order hwhole hk
  have hnan' := Single.ofInt_isNaN hn
  have hint : (Int32.ofInt k).toInt = k := Int32.toInt_ofInt_of_le (by omega) (by omega)
  have hlt := Single.ofInt_order_lt hn hk
  have hgt := Single.ofInt_order_lt hk hn
  refine compare_same_congr ?_ ?_ ?_ op
  · show (Single.ofInt n.toInt).lt f = decide (n < Int32.ofInt k)
    rw [Bool.eq_iff_iff, Single.lt_iff hnan' hnan, horder, hlt, decide_eq_true_eq, Int32.lt_iff_toInt_lt, hint]
  · show f.lt (Single.ofInt n.toInt) = decide (Int32.ofInt k < n)
    rw [Bool.eq_iff_iff, Single.lt_iff hnan hnan', horder, hgt, decide_eq_true_eq, Int32.lt_iff_toInt_lt, hint]
  · show (Single.ofInt n.toInt).eq f = decide (n = Int32.ofInt k)
    rw [Bool.eq_iff_iff, Single.eq_iff hnan' hnan, horder, decide_eq_true_eq, ← Int32.toInt_inj, hint]
    omega

/-- **What the column stores of a literal compares as the literal does.** -/
theorem Compares.coerce (h : Compares v op x) (htype : value_matches_type v col_type = true) (hw : coerce_equality_value x col_type = some w) :
    v.index = w.index ∧ compare_same v op w = true := by
  have hholds := h.holds
  cases col_type with
  | INT =>
    cases v with
    | int n =>
      cases x with
      | float f =>
        unfold coerce_equality_value at hw
        dsimp only at hw
        cases hwhole : whole_number f with
        | none =>
          rw [hwhole] at hw
          cases hw
        | some k =>
          rw [hwhole] at hw
          obtain ⟨-, hw⟩ := Option.ite_none_right_eq_some.1 hw
          obtain rfl := Option.some.inj hw
          obtain ⟨hn, hk⟩ := h.exactly n f rfl rfl
          exact ⟨rfl, (compare_whole hn hwhole (hk k hwhole) op).symm.trans hholds⟩
      | int m =>
        obtain rfl := Option.some.inj hw
        exact ⟨rfl, hholds⟩
      | _ => cases hholds
    | _ => cases htype
  | FLOAT =>
    cases v with
    | float g =>
      -- an integer is compared as the float that is stored
      cases x with
      | float f =>
        obtain rfl := Option.some.inj hw
        exact ⟨rfl, hholds⟩
      | int m =>
        obtain rfl := Option.some.inj hw
        exact ⟨rfl, hholds⟩
      | _ => cases hholds
    | _ => cases htype
  | BOOLEAN =>
    cases v with
    | boolean b =>
      cases x with
      | boolean c =>
        obtain rfl := Option.some.inj hw
        exact ⟨rfl, hholds⟩
      | _ => cases hholds
    | _ => cases htype
  | VARCHAR =>
    cases v with
    | varchar str =>
      cases x with
      | varchar str' =>
        obtain rfl := Option.some.inj hw
        exact ⟨rfl, hholds⟩
      | _ => cases hholds
    | _ => cases htype

/-! ### What is collected -/

/-- The value of a column is what is asked for. -/
structure ColumnConstraint.MetBy (cc : ColumnConstraint) (v : Value) : Prop where
  eq : ∀ x, cc.eq = some x → Compares v .EQ x
  lo : ∀ x, cc.lo = some x → Compares v (if cc.lo_inclusive then .GTE else .GT) x
  hi : ∀ x, cc.hi = some x → Compares v (if cc.hi_inclusive then .LTE else .LT) x

theorem ColumnConstraint.metBy_empty (v : Value) : ColumnConstraint.empty.MetBy v :=
  ⟨fun _ h => (by cases h), fun _ h => (by cases h), fun _ h => by cases h⟩

theorem ColumnConstraint.MetBy.add {cc : ColumnConstraint} (h : cc.MetBy v) (hx : Compares v op x) : (cc.add op x).MetBy v := by
  cases op with
  | EQ => exact ⟨fun y hy => Option.some.inj hy ▸ hx, h.lo, h.hi⟩
  | GT => exact ⟨h.eq, fun y hy => Option.some.inj hy ▸ hx, h.hi⟩
  | GTE => exact ⟨h.eq, fun y hy => Option.some.inj hy ▸ hx, h.hi⟩
  | LT => exact ⟨h.eq, h.lo, fun y hy => Option.some.inj hy ▸ hx⟩
  | LTE => exact ⟨h.eq, h.lo, fun y hy => Option.some.inj hy ▸ hx⟩
  | _ => exact h

/-- The row is what is collected of its columns. -/
def Constraints.MetBy (constraints : Constraints) (schema : TableSchema) (row : Row) : Prop :=
  ∀ col_name cc, constraints col_name = some cc → ∀ idx, schema.column_index col_name = some idx → ∃ v, row[idx]? = some v ∧ cc.MetBy v

/-- A FLOAT that an INT column of the row is compared with is exact, and so is the column. -/
def CompareExpr.ExactOn (schema : TableSchema) (table_alias : Bytes) (outer : Option OuterContext) (row : Row) (c : CompareExpr Q) : Prop :=
  ∀ x, c.seed_value schema table_alias outer = .ok (some x) → ∀ idx, schema.column_index c.column.column_name = some idx →
    ∀ v, row[idx]? = some v → Exactly v x

section collect

variable {runner : SubqueryRunner Q} {cache : Option (SubqueryCache Q)}

/-- The value to search for is the right-hand side. -/
theorem rhs_of_seed {c : CompareExpr Q} (h : c.seed_value schema table_alias outer = .ok (some x)) :
    c.rhs row ⟨schema, none, table_alias, []⟩ outer = .ok x := by
  unfold CompareExpr.seed_value at h
  unfold CompareExpr.rhs
  cases href : c.operand_column with
  | none =>
    rw [href] at h
    dsimp only at h ⊢
    obtain ⟨-, hx⟩ := Option.ite_none_left_eq_some.1 (Except.ok.inj h)
    rw [Option.some.inj hx]
    rfl
  | some ref =>
    rw [href] at h
    dsimp only at h ⊢
    split at h
    · cases h
    · rename_i hlocal
      have hnone : try_resolve_column ref schema table_alias = none := by
        rw [Bool.not_eq_true, Option.isSome_eq_false_iff, Option.isNone_iff_eq_none] at hlocal
        exact hlocal
      cases outer with
      | none => cases h
      | some outer =>
        obtain ⟨found, hfound, h⟩ := except_bind_ok h
        cases found with
        | none => cases h
        | some idx =>
          obtain ⟨seed, hseed, h⟩ := except_bind_ok h
          obtain ⟨-, hx⟩ := Option.ite_none_left_eq_some.1 (Except.ok.inj h)
          obtain rfl := Option.some.inj hx
          -- not a column of the row, but one of the outer row
          have hscope : Scope.try_resolve ⟨schema, none, table_alias, []⟩ ref = .ok none := congrArg Except.ok hnone
          unfold resolve_value
          rw [hscope]
          dsimp only [bind, Except.bind]
          rw [hfound]
          exact hseed

/-- A comparison that narrows a column compares the two operands. -/
theorem compare_of_true {c : CompareExpr Q} {scope : Scope} (hop : c.op.narrows = true) (hv : resolve_value c.column row scope outer = .ok v)
    (hx : c.rhs row scope outer = .ok x) (heval : evaluate_compare runner cache row scope outer c = .ok true) :
    compare_values v c.op x = true := by
  unfold evaluate_compare at heval
  rw [hv] at heval
  obtain ⟨_, hval, heval⟩ := except_bind_ok heval
  obtain rfl := Except.ok.inj hval
  have hoperands : compare_operands c.op v x = compare_values v c.op x := by
    cases hc : c.op <;> rw [hc] at hop <;> first | rfl | cases hop
  have hrest : (do
      let rhs ← c.rhs row scope outer
      if v.isNull || rhs.isNull then pure false else pure (compare_operands c.op v rhs)) = (Except.ok true : Except ExecErr Bool) := by
    cases hc : c.op <;> rw [hc] at hop heval <;> first | exact heval | cases hop
  rw [hx] at hrest
  obtain ⟨_, hrhs, hrest⟩ := except_bind_ok hrest
  obtain rfl := Except.ok.inj hrhs
  rw [← hoperands]
  by_cases hnull : (v.isNull || x.isNull) = true
  · rw [if_pos hnull] at hrest
    cases hrest
  · rw [if_neg hnull] at hrest
    exact Except.ok.inj hrest

/-- A column of the row itself. -/
theorem resolve_table_column {ref : ColumnRef} {idx : ℕ} (hown : ¬ (ref.table_name ≠ [] && !table_name_matches ref.table_name schema table_alias) = true)
    (hidx : schema.column_index ref.column_name = some idx) :
    resolve_value ref row ⟨schema, none, table_alias, []⟩ outer = row.get idx := by
  have hresolve : Scope.try_resolve ⟨schema, none, table_alias, []⟩ ref = .ok (some idx) := by
    show Except.ok (try_resolve_column ref schema table_alias) = _
    unfold try_resolve_column
    rw [if_neg hown, hidx]
  unfold resolve_value
  rw [hresolve]
  rfl

/-- **A comparison that is true is met by its column.** -/
theorem collect_compare_met {c : CompareExpr Q} {out out' : Constraints} (h : collect_compare schema table_alias outer c out = .ok out')
    (hexact : c.ExactOn schema table_alias outer row) (heval : evaluate_compare runner cache row ⟨schema, none, table_alias, []⟩ outer c = .ok true)
    (hout : out.MetBy schema row) : out'.MetBy schema row := by
  unfold collect_compare at h
  by_cases hnarrows : (!c.op.narrows || c.subquery.isSome) = true
  · rw [if_pos hnarrows] at h
    rw [← Except.ok.inj h]
    exact hout
  rw [if_neg hnarrows] at h
  by_cases hown : (c.column.table_name ≠ [] && !table_name_matches c.column.table_name schema table_alias) = true
  · rw [if_pos hown] at h
    rw [← Except.ok.inj h]
    exact hout
  rw [if_neg hown] at h
  obtain ⟨seed, hseed, h⟩ := except_bind_ok h
  cases seed with
  | none =>
    rw [← Except.ok.inj h]
    exact hout
  | some x =>
    rw [← Except.ok.inj h]
    intro col_name cc hcc idx hidx
    by_cases heq : col_name = c.column.column_name
    · rw [heq] at hcc hidx
      rw [Function.update_self] at hcc
      obtain ⟨v, hv, -⟩ := except_bind_ok heval
      have hget : row.get idx = .ok v := (resolve_table_column hown hidx).symm.trans hv
      have hrow : row[idx]? = some v := by
        unfold Row.get at hget
        cases hr : row[idx]? with
        | none =>
          rw [hr] at hget
          cases hget
        | some v' =>
          rw [hr] at hget
          rw [Except.ok.inj hget]
      have hnarrows : c.op.narrows = true := by
        cases hop : c.op.narrows with
        | true => rfl
        | false =>
          rw [hop] at hnarrows
          exact absurd rfl hnarrows
      have hcompares : Compares v c.op x := ⟨compare_of_true hnarrows hv (rhs_of_seed hseed) heval, hexact x hseed idx hidx v hrow⟩
      refine ⟨v, hrow, ?_⟩
      rw [← Option.some.inj hcc]
      refine ColumnConstraint.MetBy.add ?_ hcompares
      -- what was collected of the column before
      cases hbefore : out c.column.column_name with
      | none => exact ColumnConstraint.metBy_empty v
      | some before =>
        obtain ⟨v', hrow', hmet⟩ := hout _ before hbefore idx hidx
        rw [hrow] at hrow'
        rw [Option.some.inj hrow']
        exact hmet
    · rw [Function.update_of_ne heq] at hcc
      exact hout _ cc hcc idx hidx

/-- The comparisons of the leaves that AND joins. -/
def WhereExpr.ExactOn (schema : TableSchema) (table_alias : Bytes) (outer : Option OuterContext) (row : Row) : WhereExpr Q → Prop
  | .leaf (.COMPARE c) => c.ExactOn schema table_alias outer row
  | .and left right => WhereExpr.ExactOn schema table_alias outer row left ∧ WhereExpr.ExactOn schema table_alias outer row right
  | _ => True

/-- **What is collected is met** by a row that WHERE lets through. -/
theorem collect_met : ∀ {expr : WhereExpr Q} {out out' : Constraints},
    collect_and_constraints schema table_alias outer expr out = .ok out' → WhereExpr.ExactOn schema table_alias outer row expr →
    expr.eval (evaluate_leaf runner cache row ⟨schema, none, table_alias, []⟩ outer) = .ok true → out.MetBy schema row → out'.MetBy schema row
  | .leaf (.COMPARE c), out, out', h, hexact, heval, hout => collect_compare_met h hexact heval hout
  | .leaf (.EXISTS _), out, out', h, _, _, hout => by
    rw [← Except.ok.inj h]
    exact hout
  | .and left right, out, out', h, hexact, heval, hout => by
    obtain ⟨middle, hleft, hright⟩ := except_bind_ok h
    obtain ⟨b, hb, heval⟩ := except_bind_ok heval
    cases b with
    | false => cases heval
    | true => exact collect_met hright hexact.2 heval (collect_met hleft hexact.1 hb hout)
  | .or _ _, out, out', h, _, _, hout => by
    rw [← Except.ok.inj h]
    exact hout
  | .not _, out, out', h, _, _, hout => by
    rw [← Except.ok.inj h]
    exact hout

end collect

/-! ### What is searched for -/

/-- A NaN is in no order with a value of its type. -/
theorem isNaN_of_compare (hv : v.isNaN = false) (hindex : v.index = w.index) (h : v.lt w = true ∨ w.lt v = true ∨ v.eq w = true) :
    w.isNaN = false := by
  cases w with
  | float f =>
    cases v with
    | float g =>
      cases hf : f.isNaN with
      | false => exact hf
      | true =>
        have hlt : g.lt f = false := by
          unfold Single.lt
          rw [hf, Bool.not_true, Bool.and_false, Bool.false_and]
        have hgt : f.lt g = false := by
          unfold Single.lt
          rw [hf, Bool.not_true, Bool.false_and, Bool.false_and]
        have heq : g.eq f = false := by
          unfold Single.eq
          rw [hf, Bool.not_true, Bool.and_false, Bool.false_and]
        rcases h with h | h | h
        · exact absurd (h.symm.trans hlt) (by decide)
        · exact absurd (h.symm.trans hgt) (by decide)
        · exact absurd (h.symm.trans heq) (by decide)
    | _ => cases hindex
  | _ => rfl

/-- A comparison that is true is not with NULL. -/
theorem Compares.isNull (h : Compares v op x) : v.isNull = false := by
  have hholds := h.holds
  cases v with
  | null => cases hholds
  | _ => rfl

section admits

variable {cc : ColumnConstraint}

/-- A bound excludes nothing that is in order. -/
theorem bound_in_order {a b : Value} {inclusive equal : Bool} (ha : a.isNaN = false) (hb : b.isNaN = false) (hequal : equal = true → a.rank = b.rank)
    (h : a.rank < b.rank ∨ inclusive = true ∧ a.rank = b.rank) : (b.lt a || !inclusive && equal) = false := by
  have hnot : ¬ b.lt a = true := by
    rw [Value.lt_iff b a hb ha, not_lt]
    rcases h with hlt | ⟨-, heq⟩
    · exact hlt.le
    · exact heq.le
  rw [Bool.not_eq_true] at hnot
  rw [hnot, Bool.false_or]
  cases inclusive with
  | true => rfl
  | false =>
    have hlt : a.rank < b.rank := h.resolve_right fun h => by cases h.1
    cases equal with
    | false => rfl
    | true => exact absurd (hequal rfl) hlt.ne

/-- A lower bound lets the value through. -/
theorem ColumnConstraint.MetBy.above (h : cc.MetBy v) (hv : v.isNaN = false)
    (htype : v.isNull = false → value_matches_type v col_type = true) {lo : Value} (hlo : (cc.coerce col_type).lo = some lo) :
    (v.lt lo || !(cc.coerce col_type).lo_inclusive && v.eq lo) = false := by
  obtain ⟨x, hx, hw⟩ := Option.bind_eq_some_iff.1 hlo
  have hcompares := h.lo x hx
  obtain ⟨hindex, hsame⟩ := hcompares.coerce (htype hcompares.isNull) hw
  have hinc : (cc.coerce col_type).lo_inclusive = cc.lo_inclusive := by
    show ((cc.coerce col_type).lo.isSome && cc.lo_inclusive) = _
    rw [hlo, Option.isSome_some, Bool.true_and]
  have hor : lo.lt v = true ∨ cc.lo_inclusive = true ∧ v.eq lo = true := by
    cases hincl : cc.lo_inclusive with
    | true =>
      rw [hincl] at hsame
      exact ((Bool.or_eq_true_iff ..).1 hsame).imp_right fun heq => ⟨rfl, heq⟩
    | false =>
      rw [hincl] at hsame
      exact .inl hsame
  have hnan := isNaN_of_compare hv hindex (.inr (hor.imp_right And.right))
  have heq : v.eq lo = true → lo.rank = v.rank := fun h => ((Value.eq_iff v lo hv hnan).1 h).symm
  rw [hinc]
  exact bound_in_order hnan hv heq (hor.imp (Value.lt_iff lo v hnan hv).1 fun h => ⟨h.1, heq h.2⟩)

/-- An upper bound lets the value through. -/
theorem ColumnConstraint.MetBy.below (h : cc.MetBy v) (hv : v.isNaN = false)
    (htype : v.isNull = false → value_matches_type v col_type = true) {hi : Value} (hhi : (cc.coerce col_type).hi = some hi) :
    (hi.lt v || !(cc.coerce col_type).hi_inclusive && v.eq hi) = false := by
  obtain ⟨x, hx, hw⟩ := Option.bind_eq_some_iff.1 hhi
  have hcompares := h.hi x hx
  obtain ⟨hindex, hsame⟩ := hcompares.coerce (htype hcompares.isNull) hw
  have hinc : (cc.coerce col_type).hi_inclusive = cc.hi_inclusive := by
    show ((cc.coerce col_type).hi.isSome && cc.hi_inclusive) = _
    rw [hhi, Option.isSome_some, Bool.true_and]
  have hor : v.lt hi = true ∨ cc.hi_inclusive = true ∧ v.eq hi = true := by
    cases hincl : cc.hi_inclusive with
    | true =>
      rw [hincl] at hsame
      exact ((Bool.or_eq_true_iff ..).1 hsame).imp_right fun heq => ⟨rfl, heq⟩
    | false =>
      rw [hincl] at hsame
      exact .inl hsame
  have hnan : hi.isNaN = false := by
    rcases hor with hlt | ⟨-, heq⟩
    · exact isNaN_of_compare hv hindex (.inl hlt)
    · exact isNaN_of_compare hv hindex (.inr (.inr heq))
  have heq : v.eq hi = true → v.rank = hi.rank := (Value.eq_iff v hi hv hnan).1
  rw [hinc]
  exact bound_in_order hv hnan heq (hor.imp (Value.lt_iff v hi hv hnan).1 fun h => ⟨h.1, heq h.2⟩)

/-- **The range of a column lets the value through.** -/
theorem ColumnConstraint.MetBy.admits (h : cc.MetBy v) (hv : v.isNaN = false)
    (htype : v.isNull = false → value_matches_type v col_type = true) : (cc.coerce col_type).admits v = true := by
  unfold ColumnConstraint.admits
  have hlo : ¬ (cc.coerce col_type).lo.any (fun lo => v.lt lo || !(cc.coerce col_type).lo_inclusive && v.eq lo) = true := by
    rw [Option.any_eq_true]
    rintro ⟨lo, hlo, hout⟩
    rw [h.above hv htype hlo] at hout
    cases hout
  have hhi : ¬ (cc.coerce col_type).hi.any (fun hi => hi.lt v || !(cc.coerce col_type).hi_inclusive && v.eq hi) = true := by
    rw [Option.any_eq_true]
    rintro ⟨hi, hhi, hout⟩
    rw [h.below hv htype hhi] at hout
    cases hout
  rw [Bool.not_eq_true] at hlo hhi
  rw [hlo, hhi]
  rfl

end admits

/-- The values of a stored row are of the types of its columns. -/
theorem Table.Fits.column_type {tbl : Table} {e : Key × Row} (h : tbl.Fits e) {idx : ℕ} {v : Value} (hv : e.2[idx]? = some v) (hnull : v.isNull = false) :
    value_matches_type v ((tbl.schema.columns[idx]?.map Column.type).getD .INT) = true := by
  obtain ⟨hlen, htakes⟩ := h.takes
  have hlt : idx < tbl.schema.columns.length := by
    rw [← hlen]
    exact (List.getElem?_eq_some_iff.1 hv).1
  have htake := htakes idx _ v (List.getElem?_eq_getElem hlt) hv
  rw [RowSerializer.Takes, hnull, if_neg Bool.false_ne_true] at htake
  obtain ⟨bytes, hbytes⟩ := htake
  rw [List.getElem?_eq_getElem hlt, Option.map_some, Option.getD_some]
  rcases RowSerializer.encode_value_cases hbytes with ⟨n, htype, rfl, -⟩ | ⟨f, htype, rfl, -⟩ | ⟨b, htype, rfl, -⟩ | ⟨str, htype, rfl, -⟩
  · rw [htype]
    rfl
  · rw [htype]
    rfl
  · rw [htype]
    rfl
  · rw [htype]
    rfl

/-- **What is met selects the entry**: its first values are those that are asked for, and the range lets the next one through. -/
theorem match_columns_selects {constraints : Constraints} (hmet : constraints.MetBy schema row)
    (htype : ∀ (idx : ℕ) (v : Value), row[idx]? = some v → v.isNull = false → value_matches_type v ((schema.columns[idx]?.map Column.type).getD .INT) = true)
    (hnan : ∀ v ∈ row, v.isNaN = false) : ∀ (column_names : List Bytes) (key : Key),
    (∀ (i : ℕ) (col_name : Bytes), column_names[i]? = some col_name → ∀ idx : ℕ, schema.column_index col_name = some idx → ∀ v : Value, row[idx]? = some v → key[i]? = some v) →
    key.hasPrefix (match_columns constraints schema column_names).1 = true ∧
      ((match_columns constraints schema column_names).2.is_range = true →
        ∃ v, key[(match_columns constraints schema column_names).1.length]? = some v ∧ (match_columns constraints schema column_names).2.admits v = true)
  | [], key, _ => ⟨rfl, fun h => by cases h⟩
  | col_name :: column_names, key, hkey => by
    have hnone : key.hasPrefix [] = true ∧ (ColumnConstraint.empty.is_range = true → ∃ v, key[0]? = some v ∧ ColumnConstraint.empty.admits v = true) :=
      ⟨rfl, fun h => by cases h⟩
    unfold match_columns
    cases hcc : constraints col_name with
    | none => exact hnone
    | some cc =>
      cases hidx : schema.column_index col_name with
      | none => exact hnone
      | some idx =>
        dsimp only
        obtain ⟨v, hv, hmetv⟩ := hmet col_name cc hcc idx hidx
        have hhead : key[0]? = some v := hkey 0 col_name rfl idx hidx v hv
        have hvnan := hnan v (List.mem_of_getElem? hv)
        cases heq : cc.eq with
        | none => exact ⟨rfl, fun _ => ⟨v, hhead, hmetv.admits hvnan (htype idx v hv)⟩⟩
        | some x =>
          dsimp only
          cases hcoerce : coerce_equality_value x ((schema.columns[idx]?.map Column.type).getD .INT) with
          | none => exact hnone
          | some w =>
            have hcompares := hmetv.eq x heq
            obtain ⟨-, hsame⟩ := hcompares.coerce (htype idx v hv hcompares.isNull) hcoerce
            cases key with
            | nil => cases hhead
            | cons v' key =>
              obtain rfl : v' = v := Option.some.inj hhead
              obtain ⟨hstart, hrange⟩ := match_columns_selects hmet htype hnan column_names key
                fun i name hname => hkey (i + 1) name hname
              refine ⟨?_, hrange⟩
              -- one more value that is equal
              obtain ⟨hle, heqs⟩ := (Bool.and_eq_true_iff ..).1 hstart
              refine (Bool.and_eq_true_iff ..).2 ⟨decide_eq_true (Nat.succ_le_succ (of_decide_eq_true hle)), ?_⟩
              exact (Bool.and_eq_true_iff ..).2 ⟨hsame, heqs⟩

/-! ### The scan -/

section scan

variable {tbl : Table} {S : Contents} {s : TableState} {where_ : Option (WhereExpr Q)} {runner : SubqueryRunner Q} {cache : SubqueryCache Q}
  {m : IndexMatch}

/-- A row has an entry: its indexed columns have values. What a scan cuts off of it is the primary key. -/
def IndexMatch.Reaches (m : IndexMatch) (row : Row) : Prop :=
  is_indexable (m.index.value row) = true ∧ (m.range.is_range = true → m.fixed.length + 1 = m.index.schema.column_names.length)

theorem IndexMatch.Reaches.split {row : Row} (h : m.Reaches row) : m.split = m.index.schema.column_names.length := by
  unfold IndexMatch.split
  by_cases hrange : m.range.is_range = true
  · rw [if_pos hrange]
    exact h.2 hrange
  · rw [if_neg hrange]

/-- The entry of a row that matches is selected. -/
theorem selects_of_match (htbl : ∃ l, Table.construct tbl.schema l = .ok tbl) (hfind : find_index_prefix tbl where_ table_alias outer = .ok (some m))
    {e : Key × Row} (hfits : tbl.Fits e) (hexact : ∀ expr, where_ = some expr → expr.ExactOn tbl.schema table_alias outer e.2)
    (hpred : build_predicate_in tbl where_ table_alias outer runner cache e.2 = .ok true) : m.selects (m.index.value e.2 ++ e.1) = true := by
  unfold find_index_prefix at hfind
  cases where_ with
  | none => cases hfind
  | some expr =>
    obtain ⟨constraints, hcollect, hfind⟩ := except_bind_ok hfind
    have hempty : Constraints.MetBy (fun _ => none) tbl.schema e.2 := fun _ _ h => by cases h
    have hmet := collect_met hcollect (hexact expr rfl) hpred hempty
    rcases best_match_mem (Except.ok.inj hfind) with h | ⟨idx, hmem, rfl⟩
    · cases h
    obtain ⟨hlength, hcolumns⟩ := binding_columns htbl hmem
    have hkey : ∀ (i : ℕ) (col_name : Bytes), idx.schema.column_names[i]? = some col_name → ∀ col_idx : ℕ,
        tbl.schema.column_index col_name = some col_idx → ∀ v : Value, e.2[col_idx]? = some v → (idx.value e.2 ++ e.1)[i]? = some v := by
      intro i col_name hname col_idx hcol v hv
      obtain ⟨col_idx', hcol', hbound⟩ := hcolumns i col_name hname
      obtain rfl : col_idx' = col_idx := Option.some.inj (hcol'.symm.trans hcol)
      have hlt : i < (idx.value e.2).length := by
        rw [value_length]
        exact (List.getElem?_eq_some_iff.1 hbound).1
      rw [List.getElem?_append_left hlt]
      show (idx.column_indices.map fun i => (e.2[i]?).getD .null)[i]? = some v
      rw [List.getElem?_map, hbound, Option.map_some, hv, Option.getD_some]
    obtain ⟨hstart, hrange⟩ := match_columns_selects hmet (fun _ _ hv hnull => hfits.column_type hv hnull) hfits.numbers
      idx.schema.column_names (idx.value e.2 ++ e.1) hkey
    refine (Bool.and_eq_true_iff ..).2 ⟨hstart, ?_⟩
    show (!(match_columns constraints tbl.schema idx.schema.column_names).2.is_range || _) = true
    cases hr : (match_columns constraints tbl.schema idx.schema.column_names).2.is_range with
    | false => rfl
    | true =>
      obtain ⟨v, hv, hadmits⟩ := hrange hr
      exact (Option.any_eq_true ..).2 ⟨v, hv, hadmits⟩

/-- **A scan through an index returns rows of the plain scan, each once, and all of them exactly if every one of them has an entry** and
a range is over the last column of the index. -/
theorem index_scan_exact (htbl : ∃ l, Table.construct tbl.schema l = .ok tbl) (hrep : tbl.Represents s.trees S) (hS : tbl.Sound S)
    (hfind : find_index_prefix tbl where_ table_alias outer = .ok (some m))
    (hexact : ∀ e ∈ S, ∀ expr, where_ = some expr → expr.ExactOn tbl.schema table_alias outer e.2) {plain : List ScanResult}
    (hplain : run_query (tbl.scan fun row => (build_predicate_in tbl where_ table_alias outer runner cache row).toOption) s = .ok plain) :
    ∃ results, scan_with_index tbl where_ (build_predicate_in tbl where_ table_alias outer runner cache) table_alias outer s = .ok results ∧
      results.Subperm plain ∧
      (results.Perm plain ↔ ∀ e ∈ S, build_predicate_in tbl where_ table_alias outer runner cache e.2 = .ok true → m.Reaches e.2) := by
  have hproper := find_index_prefix_proper hfind
  have hscanned := plain_scan_spec hrep hplain
  obtain ⟨results, hfetch⟩ := fetch_rows_total hrep hscanned.total ((m.scan_keys s).map fun key => key.drop m.split)
  have hscan : scan_with_index tbl where_ (build_predicate_in tbl where_ table_alias outer runner cache) table_alias outer s = .ok results := by
    unfold scan_with_index
    rw [hfind]
    show (m.index_lookup s >>= fun pks => fetch_rows tbl _ s pks) = _
    rw [index_lookup_eq hproper]
    exact hfetch
  have hfetched := fetch_rows_spec hrep hS hfetch
  obtain ⟨hsound, hnodup⟩ := scan_with_index_entries htbl hrep hS hscan
  have hnodup := List.Nodup.of_map _ hnodup
  have hnodup' := List.Nodup.of_map _ hscanned.nodup
  have hsub : results ⊆ plain := fun r hr => (hscanned.mem r).2 (hsound r hr)
  refine ⟨results, hscan, List.subperm_of_subset hnodup hsub, ?_⟩
  rw [List.perm_ext_iff_of_nodup hnodup hnodup']
  constructor
  · -- a row that is found has the entry that it was found by
    intro hsame e he hpred
    have hmem : (⟨e.1, e.2⟩ : ScanResult) ∈ results := (hsame _).2 ((hscanned.mem _).2 ⟨he, hpred⟩)
    obtain ⟨key, hkey, heq⟩ := List.mem_map.1 (hfetched.keys.subset (List.mem_map_of_mem hmem))
    obtain ⟨e', hscans, rfl⟩ := (mem_scan_keys hrep hproper).1 hkey
    obtain ⟨hsplit, hdrop⟩ := lookup_key_of_rank htbl hS hproper hscans.1 he (congrArg Key.rank heq.symm)
    obtain rfl := hS.one e' hscans.1 e he (congrArg Key.rank (hdrop.symm.trans heq))
    refine ⟨hscans.2.1, fun hrange => ?_⟩
    unfold IndexMatch.split at hsplit
    rwa [if_pos hrange] at hsplit
  · intro hreaches r
    refine ⟨fun hr => hsub hr, fun hr => ?_⟩
    obtain ⟨he, hpred⟩ := (hscanned.mem r).1 hr
    have hreach := hreaches r.entry he hpred
    have hselects := selects_of_match htbl hfind (hS.fits _ he) (hexact _ he) hpred
    have hkey := (mem_scan_keys hrep hproper).2 ⟨r.entry, ⟨he, hreach.1, hselects⟩, rfl⟩
    have hdrop : (m.index.value r.row ++ r.primary_key).drop m.split = r.primary_key := by
      rw [hreach.split]
      exact (cut_entry hS htbl hproper.mem he).2.1
    have hpk : r.primary_key ∈ (m.scan_keys s).map fun key => key.drop m.split := List.mem_map.2 ⟨_, hkey, hdrop⟩
    exact hfetched.complete _ hpk r.entry he rfl hpred

theorem index_scan_exact_equal :
    ∃ results, scan_with_index pair_table (where_a .EQ 5)
        (build_predicate_in pair_table (where_a .EQ 5) [] none pair_subqueries.1 pair_subqueries.2) [] none pair_state = .ok results ∧
      results.Subperm [⟨pair_row.1, pair_row.2⟩] ∧
      (results.Perm [⟨pair_row.1, pair_row.2⟩] ↔ ∀ e ∈ ({pair_row} : Contents),
        build_predicate_in pair_table (where_a .EQ 5) [] none pair_subqueries.1 pair_subqueries.2 e.2 = .ok true → equal_match.Reaches e.2) := by
  refine index_scan_exact ⟨[pair_index], rfl⟩ pair_represents pair_sound rfl ?_ rfl
  rintro e - expr hexpr
  obtain rfl := Option.some.inj hexpr
  intro x hx idx _ v _ n f _ hf
  rw [hf] at hx
  cases hx

end scan

end GSDBEngine
