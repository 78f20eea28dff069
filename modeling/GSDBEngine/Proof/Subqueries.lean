import GSDBEngine.Spec.Subqueries
import GSDBEngine.Lib.SideBySide
import GSDBEngine.Proof.Covering

/-!
# What is kept of subqueries

A subquery whose WHERE names columns of its own table only has the same rows whatever the outer row is, so they are looked up once. The
others are run for each row. Either way a condition has the value that it would have if nothing were kept.

* `scan_subquery_local`: a subquery that is not correlated does not look at the outer row.
* `evaluate_cached`: a condition, with what is kept and without.
* `run_refines`: **whatever a nest of subqueries returns, it returns if each one is run for each row anew.**
* `run_deep_enough`: how deep it may be nested does not matter, if it is deep enough. `where_value_refines`: **WHERE of a statement.**
-/

namespace GSDBEngine

open Eff

variable {Q : Type} {raise : SubqueryErr → ExecErr} {tables : Bytes → Option Table} {s : TableState} {run run' : RunSubquery} {row : Row}
  {schema : TableSchema} {table_alias : Bytes} {outer : Option OuterContext}

/-! ### The outer row -/

section outer

variable {runner : SubqueryRunner Q} {cache : Option (SubqueryCache Q)}

/-- A column of the row itself is not looked up in the outer row. -/
theorem resolve_value_own {ref : ColumnRef} (h : (try_resolve_column ref schema table_alias).isNone = false) (outer : Option OuterContext) :
    resolve_value ref row ⟨schema, none, table_alias, []⟩ outer = resolve_value ref row ⟨schema, none, table_alias, []⟩ none := by
  obtain ⟨idx, hidx⟩ := Option.isSome_iff_exists.1 (Option.isNone_eq_false_iff.1 h)
  have htry : Scope.try_resolve ⟨schema, none, table_alias, []⟩ ref = .ok (some idx) := congrArg Except.ok hidx
  unfold resolve_value
  rw [htry]
  rfl

theorem evaluate_leaf_local {a : WhereLeaf Q} (h : where_references_unknown_column schema table_alias (.leaf a) = false) :
    evaluate_leaf runner cache row ⟨schema, none, table_alias, []⟩ outer a =
      evaluate_leaf runner cache row ⟨schema, none, table_alias, []⟩ none a := by
  cases a with
  | EXISTS q => rfl
  | COMPARE c =>
    obtain ⟨hcolumn, hoperand⟩ := (Bool.or_eq_false_iff ..).1 h
    have hrhs : c.rhs row ⟨schema, none, table_alias, []⟩ outer = c.rhs row ⟨schema, none, table_alias, []⟩ none := by
      unfold CompareExpr.rhs
      cases href : c.operand_column with
      | none => rfl
      | some ref =>
        rw [href] at hoperand
        exact resolve_value_own hoperand outer
    show evaluate_compare runner cache row ⟨schema, none, table_alias, []⟩ outer c =
      evaluate_compare runner cache row ⟨schema, none, table_alias, []⟩ none c
    unfold evaluate_compare
    rw [resolve_value_own hcolumn outer, hrhs]

theorem every_local : ∀ {expr : WhereExpr Q}, where_references_unknown_column schema table_alias expr = false →
    expr.Every fun a => where_references_unknown_column schema table_alias (.leaf a) = false
  | .leaf _, h => h
  | .and _ _, h => ⟨every_local ((Bool.or_eq_false_iff ..).1 h).1, every_local ((Bool.or_eq_false_iff ..).1 h).2⟩
  | .or _ _, h => ⟨every_local ((Bool.or_eq_false_iff ..).1 h).1, every_local ((Bool.or_eq_false_iff ..).1 h).2⟩
  | .not left, h => @every_local left h

/-- What is searched for is not seeded by the outer row. -/
theorem collect_local : ∀ {expr : WhereExpr Q} {out : Constraints}, where_references_unknown_column schema table_alias expr = false →
    collect_and_constraints schema table_alias outer expr out = collect_and_constraints schema table_alias none expr out
  | .leaf (.COMPARE c), out, h => by
    obtain ⟨-, hoperand⟩ := (Bool.or_eq_false_iff ..).1 h
    have hseed : c.seed_value schema table_alias outer = c.seed_value schema table_alias none := by
      unfold CompareExpr.seed_value
      cases href : c.operand_column with
      | none => rfl
      | some ref =>
        rw [href] at hoperand
        dsimp only
        rw [if_pos (Option.isNone_eq_false_iff.1 hoperand), if_pos (Option.isNone_eq_false_iff.1 hoperand)]
    show collect_compare schema table_alias outer c out = collect_compare schema table_alias none c out
    unfold collect_compare
    rw [hseed]
  | .leaf (.EXISTS _), _, _ => rfl
  | .and left right, out, h => by
    obtain ⟨hleft, hright⟩ := (Bool.or_eq_false_iff ..).1 h
    have hrest : collect_and_constraints schema table_alias outer right = collect_and_constraints schema table_alias none right :=
      funext fun out => collect_local hright
    show (collect_and_constraints schema table_alias outer left out >>= collect_and_constraints schema table_alias outer right) =
      (collect_and_constraints schema table_alias none left out >>= collect_and_constraints schema table_alias none right)
    rw [collect_local hleft, hrest]
  | .or _ _, _, _ => rfl
  | .not _, _, _ => rfl

end outer

/-- **A subquery that is not correlated does not look at the outer row.** -/
theorem scan_subquery_local {cache_of : SelectStmt Subquery → Except ExecErr (SubqueryCache Subquery)} {subquery : Subquery}
    (h : is_correlated raise tables subquery = .ok false) (outer : Option OuterContext) :
    scan_subquery raise tables run cache_of s subquery outer = scan_subquery raise tables run cache_of s subquery none := by
  obtain ⟨tbl, htbl, hlocal⟩ := except_bind_ok h
  have hlocal := Except.ok.inj hlocal
  have hpred : ∀ cache, build_predicate_in tbl subquery.stmt.where_ subquery.stmt.table_alias outer (subquery_runner raise tables run) cache =
      build_predicate_in tbl subquery.stmt.where_ subquery.stmt.table_alias none (subquery_runner raise tables run) cache := by
    intro cache
    funext row
    unfold build_predicate_in evaluate_where
    cases hwhere : subquery.stmt.where_ with
    | none => rfl
    | some expr =>
      rw [hwhere] at hlocal
      exact Formula.eval_congr ((every_local hlocal).imp fun a ha => evaluate_leaf_local ha)
  have hfind : find_index_prefix tbl subquery.stmt.where_ subquery.stmt.table_alias outer =
      find_index_prefix tbl subquery.stmt.where_ subquery.stmt.table_alias none := by
    unfold find_index_prefix
    cases hwhere : subquery.stmt.where_ with
    | none => rfl
    | some expr =>
      rw [hwhere] at hlocal
      dsimp only
      rw [collect_local hlocal]
  have hscan : ∀ pred, scan_with_index tbl subquery.stmt.where_ pred subquery.stmt.table_alias outer s =
      scan_with_index tbl subquery.stmt.where_ pred subquery.stmt.table_alias none s := by
    intro pred
    unfold scan_with_index
    rw [hfind]
  unfold scan_subquery
  dsimp only
  rw [htbl]
  by_cases hjoins : (!subquery.stmt.joins.isEmpty) = true
  · rw [if_pos hjoins, if_pos hjoins]
  · rw [if_neg hjoins, if_neg hjoins]
    dsimp only [bind, Except.bind]
    cases cache_of subquery.stmt with
    | error e => rfl
    | ok cache =>
      dsimp only
      rw [hpred, hscan]

/-! ### What is kept -/

/-- What a node is kept for. -/
theorem precompute_every : ∀ {expr : WhereExpr Subquery}, precompute_nodes raise tables run expr = .ok () →
    expr.Every fun a => precompute_leaf raise tables run a = .ok ()
  | .leaf _, h => h
  | .and left right, h => by
    obtain ⟨_, hleft, hright⟩ := except_bind_ok h
    exact ⟨precompute_every hleft, precompute_every hright⟩
  | .or left right, h => by
    obtain ⟨_, hleft, hright⟩ := except_bind_ok h
    exact ⟨precompute_every hleft, precompute_every hright⟩
  | .not left, h => @precompute_every left h

/-- A subquery that does not look at the outer row. -/
def RunLocal (raise : SubqueryErr → ExecErr) (tables : Bytes → Option Table) (run : RunSubquery) : Prop :=
  ∀ subquery outer, is_correlated raise tables subquery = .ok false → run subquery outer = run subquery none

theorem discard_ok {α : Type} {x : Except ExecErr α} (h : discard x = .ok ()) : ∃ a, x = .ok a := by
  cases x with
  | error e => cases h
  | ok a => exact ⟨a, rfl⟩

/-- The results that are kept. -/
def kept (raise : SubqueryErr → ExecErr) (tables : Bytes → Option Table) (run : RunSubquery) : SubqueryCache Subquery :=
  ⟨fun subquery => (exists_result raise tables run subquery).toOption.getD .missing,
    fun c => (in_values raise tables run c).toOption.getD .missing⟩

section leaf

variable {scope : Scope}

/-- An EXISTS whose subquery was run, or is to be run for each row. -/
theorem exists_cached (hlocal : RunLocal raise tables run) {subquery : Subquery} (h : precompute_leaf raise tables run (.EXISTS subquery) = .ok ()) :
    evaluate_leaf (subquery_runner raise tables run) (some (kept raise tables run)) row scope outer (.EXISTS subquery) =
      evaluate_leaf (subquery_runner raise tables run) (some uncached) row scope outer (.EXISTS subquery) := by
  obtain ⟨result, hresult⟩ := discard_ok h
  have hkept : (kept raise tables run).exists_results subquery = result := by
    show (exists_result raise tables run subquery).toOption.getD .missing = _
    rw [hresult]
    rfl
  unfold evaluate_leaf
  dsimp only
  rw [hkept]
  obtain ⟨correlated, hcorrelated, hresult⟩ := except_bind_ok hresult
  cases correlated with
  | true => rw [← Except.ok.inj hresult]; rfl
  | false =>
    obtain ⟨rows, hrows, hresult⟩ := except_bind_ok hresult
    rw [← Except.ok.inj hresult]
    -- for this row it would be the same
    show Except.ok _ = (run subquery (some ⟨scope, row⟩) >>= fun rows => pure !rows.isEmpty)
    rw [hlocal subquery _ hcorrelated, hrows]
    rfl

/-- The candidates of an IN. -/
theorem in_cached (hlocal : RunLocal raise tables run) {c : CompareExpr Subquery} {result : Precomputed (List Value)}
    (h : in_values raise tables run c = .ok result) :
    in_candidates (subquery_runner raise tables run) row scope c (kept raise tables run) =
      in_candidates (subquery_runner raise tables run) row scope c uncached := by
  have hkept : (kept raise tables run).in_values c = result := by
    show (in_values raise tables run c).toOption.getD .missing = _
    rw [h]
    rfl
  unfold in_candidates
  rw [hkept]
  unfold in_values at h
  cases hsub : c.subquery with
  | none =>
    rw [hsub] at h
    rw [← Except.ok.inj h]
    rfl
  | some subquery =>
    rw [hsub] at h
    obtain ⟨correlated, hcorrelated, h⟩ := except_bind_ok h
    cases correlated with
    | true => rw [← Except.ok.inj h]; rfl
    | false =>
      obtain ⟨values, hvalues, h⟩ := except_bind_ok h
      rw [← Except.ok.inj h]
      show Except.ok values = run_subquery_values raise tables run subquery (some ⟨scope, row⟩)
      have hsame : run_subquery_values raise tables run subquery (some ⟨scope, row⟩) = run_subquery_values raise tables run subquery none := by
        unfold run_subquery_values
        rw [hlocal subquery _ hcorrelated]
      rw [hsame, hvalues]

/-- **A leaf has the value that it would have if nothing were kept.** -/
theorem leaf_cached (hlocal : RunLocal raise tables run) {a : WhereLeaf Subquery} (h : precompute_leaf raise tables run a = .ok ()) :
    evaluate_leaf (subquery_runner raise tables run) (some (kept raise tables run)) row scope outer a =
      evaluate_leaf (subquery_runner raise tables run) (some uncached) row scope outer a := by
  cases a with
  | EXISTS subquery => exact exists_cached hlocal h
  | COMPARE c =>
    show evaluate_compare (subquery_runner raise tables run) (some (kept raise tables run)) row scope outer c =
      evaluate_compare (subquery_runner raise tables run) (some uncached) row scope outer c
    unfold precompute_leaf at h
    dsimp only at h
    by_cases hop : c.op = .IN_SUBQUERY ∨ c.op = .NOT_IN_SUBQUERY
    · rw [if_pos hop] at h
      obtain ⟨result, hresult⟩ := discard_ok h
      have hsame := @in_cached raise tables run row scope hlocal c result hresult
      unfold evaluate_compare
      rcases hop with hop | hop <;> rw [hop] <;> dsimp only <;> rw [hsame]
    · -- the other operators ask for nothing that is kept
      unfold evaluate_compare
      cases hc : c.op with
      | IN_SUBQUERY => exact absurd (.inl hc) hop
      | NOT_IN_SUBQUERY => exact absurd (.inr hc) hop
      | _ => rfl

/-- **A condition has the value that it would have if nothing were kept.** -/
theorem evaluate_cached (hlocal : RunLocal raise tables run) {where_ : Option (WhereExpr Subquery)} {cache : SubqueryCache Subquery}
    (h : ∀ expr, where_ = some expr → precompute_subqueries raise tables run expr = .ok cache) :
    evaluate_where (subquery_runner raise tables run) (some cache) row scope outer where_ =
      evaluate_where (subquery_runner raise tables run) (some uncached) row scope outer where_ := by
  unfold evaluate_where
  cases where_ with
  | none => rfl
  | some expr =>
    obtain ⟨_, hnodes, hkept⟩ := except_bind_ok (h expr rfl)
    rw [← Except.ok.inj hkept]
    exact Formula.eval_congr ((precompute_every hnodes).imp fun a ha => leaf_cached hlocal ha)

end leaf

/-! ### A run for each row -/

section more

variable {scope : Scope} {tbl : Table} {where_ : Option (WhereExpr Q)} {pred pred' : Row → Except ExecErr Bool}

theorem values_lessDefined (h : ∀ subquery outer, LessDefined (run subquery outer) (run' subquery outer)) (subquery : Subquery)
    (outer : Option OuterContext) : LessDefined (run_subquery_values raise tables run subquery outer) (run_subquery_values raise tables run' subquery outer) := by
  unfold run_subquery_values
  cases hcols : subquery.stmt.columns with
  | nil => exact .refl _
  | cons sc columns =>
    cases columns with
    | cons _ _ => exact .refl _
    | nil =>
      dsimp only
      by_cases hplain : (sc.is_star || sc.is_literal || !sc.is_plain) = true
      · rw [if_pos hplain, if_pos hplain]
        exact .refl _
      · rw [if_neg hplain, if_neg hplain]
        exact (LessDefined.refl _).bind fun tbl => (LessDefined.refl _).bind fun col_idx => (h subquery outer).bind fun rows => .refl _

/-- A condition, with subqueries that return more often. -/
theorem where_lessDefined (h : ∀ subquery outer, LessDefined (run subquery outer) (run' subquery outer)) (where_ : Option (WhereExpr Subquery)) :
    LessDefined (evaluate_where (subquery_runner raise tables run) (some uncached) row scope outer where_)
      (evaluate_where (subquery_runner raise tables run') (some uncached) row scope outer where_) := by
  unfold evaluate_where
  cases where_ with
  | none => exact .refl _
  | some expr =>
    refine Formula.eval_lessDefined (Formula.every_of (fun a => ?_) expr)
    cases a with
    | EXISTS subquery => exact (h subquery _).bind fun rows => .refl _
    | COMPARE c =>
      have hin : LessDefined (in_candidates (subquery_runner raise tables run) row scope c uncached)
          (in_candidates (subquery_runner raise tables run') row scope c uncached) := by
        unfold in_candidates
        cases c.subquery with
        | none => exact .refl _
        | some subquery => exact values_lessDefined h subquery _
      have hcandidates : ∀ v : Value, LessDefined
          (if v.isNull then pure false else do
            let candidates ← in_candidates (subquery_runner raise tables run) row scope c uncached
            pure (evaluate_in c.op v candidates))
          (if v.isNull then pure false else do
            let candidates ← in_candidates (subquery_runner raise tables run') row scope c uncached
            pure (evaluate_in c.op v candidates)) := by
        intro v
        by_cases hnull : v.isNull = true
        · rw [if_pos hnull, if_pos hnull]
          exact .refl _
        · rw [if_neg hnull, if_neg hnull]
          exact hin.bind fun candidates => .refl _
      show LessDefined (evaluate_compare (subquery_runner raise tables run) (some uncached) row scope outer c)
        (evaluate_compare (subquery_runner raise tables run') (some uncached) row scope outer c)
      unfold evaluate_compare
      refine (LessDefined.refl _).bind fun v => ?_
      have hv := hcandidates v
      cases hop : c.op <;> rw [hop] at hv <;> first | exact hv | exact .refl _

/-- The rows that are fetched, with a test that returns more often. -/
theorem fetch_lessDefined (h : ∀ row, LessDefined (pred row) (pred' row)) : ∀ pks : List Key,
    LessDefined (fetch_rows tbl pred s pks) (fetch_rows tbl pred' s pks)
  | [] => .refl _
  | pk :: pks => by
    have ih := fetch_lessDefined h pks
    unfold fetch_rows
    refine (LessDefined.refl _).bind fun row => ?_
    cases row with
    | none => exact ih
    | some row => exact ((h row).mapError _).bind fun found => ih.bind fun results => .refl _

theorem scan_go_lessDefined {predicate predicate' : Predicate} (h : ∀ row b, predicate row = some b → predicate' row = some b) :
    ∀ l : List (Key × Bytes), LessDefined (Table.scan.go tbl predicate l) (Table.scan.go tbl predicate' l)
  | [] => .refl _
  | (key, bytes) :: l => by
    have ih := scan_go_lessDefined h l
    unfold Table.scan.go
    refine (LessDefined.refl _).bind fun row => ?_
    cases hp : predicate row with
    | none => exact .throw _
    | some found =>
      rw [h row found hp]
      exact ih.bind fun results => .refl _

/-- A plain scan goes over the entries of the tree. -/
theorem run_scan (predicate : Predicate) : run_query (tbl.scan predicate) s =
    (Table.scan.go tbl predicate (s.trees.tree tbl.rows).entries.entries).mapError fun e => .exec (.table e) := by
  have hscan : tbl.scan predicate s = (liftE (Table.scan.go tbl predicate (s.trees.tree tbl.rows).entries.entries) : TableM _) s := rfl
  unfold run_query
  rw [hscan]
  cases Table.scan.go tbl predicate (s.trees.tree tbl.rows).entries.entries with
  | error e => rfl
  | ok results => rfl

/-- **The rows that a scan finds.** -/
theorem scan_lessDefined (h : ∀ row, LessDefined (pred row) (pred' row)) :
    LessDefined (scan_with_index tbl where_ pred table_alias outer s) (scan_with_index tbl where_ pred' table_alias outer s) := by
  unfold scan_with_index
  refine (LessDefined.refl _).bind fun found => ?_
  cases found with
  | none =>
    have hgo := @scan_go_lessDefined tbl (fun row => (pred row).toOption) (fun row => (pred' row).toOption) (fun row b hb => (h row).toOption hb)
      (s.trees.tree tbl.rows).entries.entries
    show LessDefined (run_query (tbl.scan fun row => (pred row).toOption) s) (run_query (tbl.scan fun row => (pred' row).toOption) s)
    rw [run_scan, run_scan]
    exact hgo.mapError _
  | some m => exact (LessDefined.refl _).bind fun pks => fetch_lessDefined h pks

end more

/-! ### All levels -/

/-- The rows of a subquery that nothing is kept for. -/
theorem scan_subquery_refines (hlocal : RunLocal raise tables run) (h : ∀ subquery outer, LessDefined (run subquery outer) (run' subquery outer))
    (subquery : Subquery) (outer : Option OuterContext) :
    LessDefined (scan_subquery raise tables run (fun stmt => stmt.where_cache (precompute_subqueries raise tables run)) s subquery outer)
      (scan_subquery raise tables run' (fun _ => pure uncached) s subquery outer) := by
  unfold scan_subquery
  dsimp only
  by_cases hjoins : (!subquery.stmt.joins.isEmpty) = true
  · rw [if_pos hjoins, if_pos hjoins]
    exact .refl _
  rw [if_neg hjoins, if_neg hjoins]
  refine (LessDefined.refl _).bind fun tbl => ?_
  intro rows hrows
  obtain ⟨cache, hcache, hrows⟩ := except_bind_ok hrows
  -- what is kept changes no test
  have hpred : ∀ row, LessDefined
      (build_predicate_in tbl subquery.stmt.where_ subquery.stmt.table_alias outer (subquery_runner raise tables run) cache row)
      (build_predicate_in tbl subquery.stmt.where_ subquery.stmt.table_alias outer (subquery_runner raise tables run') uncached row) := by
    intro row
    have hkept : ∀ expr, subquery.stmt.where_ = some expr → precompute_subqueries raise tables run expr = .ok cache := by
      intro expr hwhere
      unfold SelectStmt.where_cache at hcache
      rwa [hwhere] at hcache
    have hcached := @evaluate_cached raise tables run row outer ⟨tbl.schema, none, subquery.stmt.table_alias, []⟩ hlocal _ cache hkept
    exact (LessDefined.of_eq hcached).trans (where_lessDefined h subquery.stmt.where_)
  exact ((scan_lessDefined hpred).mapError _).bind (fun rows => .refl _) rows hrows

theorem run_local : ∀ depth, RunLocal raise tables (run_subquery_scan raise tables s depth)
  | 0 => fun _ _ _ => rfl
  | depth + 1 => by
    intro subquery outer h
    unfold run_subquery_scan
    exact scan_subquery_local h outer

/-- **Whatever a nest of subqueries returns, it returns if each one is run for each row anew.** -/
theorem run_refines : ∀ depth subquery outer,
    LessDefined (run_subquery_scan raise tables s depth subquery outer) (run_for_each_row raise tables s depth subquery outer)
  | 0, _, _ => .refl _
  | depth + 1, subquery, outer => scan_subquery_refines (run_local depth) (run_refines depth) subquery outer

/-! ### How deep it is nested -/

section height

variable {n : ℕ}

/-- What is kept of a leaf, and its value. -/
theorem leaf_congr (h : ∀ subquery : Subquery, subquery.height ≤ n → run subquery = run' subquery) {a : WhereLeaf Subquery} (ha : leaf_height a ≤ n) :
    precompute_leaf raise tables run a = precompute_leaf raise tables run' a ∧ ∀ row scope outer,
      evaluate_leaf (subquery_runner raise tables run) (some (kept raise tables run)) row scope outer a =
        evaluate_leaf (subquery_runner raise tables run') (some (kept raise tables run')) row scope outer a := by
  cases a with
  | EXISTS subquery =>
    have hrun : run subquery = run' subquery := h subquery (by rwa [leaf_height] at ha)
    have hresult : exists_result raise tables run subquery = exists_result raise tables run' subquery := by
      unfold exists_result
      rw [hrun]
    refine ⟨congrArg discard hresult, fun row scope outer => ?_⟩
    unfold evaluate_leaf subquery_runner kept
    dsimp only
    rw [hresult, hrun]
  | COMPARE c =>
    have hrun : ∀ subquery, c.subquery = some subquery → run_subquery_values raise tables run subquery = run_subquery_values raise tables run' subquery := by
      intro subquery hsub
      have hle : subquery.height ≤ n := by
        rw [leaf_height] at ha
        obtain ⟨column, op, operand, operand_column, sub⟩ := c
        rw [compare_height] at ha
        rw [show sub = some subquery from hsub, subquery_height] at ha
        exact ha
      funext outer
      unfold run_subquery_values
      rw [h subquery hle]
    have hresult : in_values raise tables run c = in_values raise tables run' c := by
      unfold in_values
      cases hsub : c.subquery with
      | none => rfl
      | some subquery =>
        dsimp only
        rw [hrun subquery hsub]
    refine ⟨?_, fun row scope outer => ?_⟩
    · unfold precompute_leaf
      dsimp only
      rw [hresult]
    · have hcandidates : in_candidates (subquery_runner raise tables run) row scope c (kept raise tables run) =
          in_candidates (subquery_runner raise tables run') row scope c (kept raise tables run') := by
        have hkept : (kept raise tables run).in_values c = (kept raise tables run').in_values c := by
          show (in_values raise tables run c).toOption.getD .missing = (in_values raise tables run' c).toOption.getD .missing
          rw [hresult]
        unfold in_candidates
        rw [hkept]
        cases hsub : c.subquery with
        | none => cases (kept raise tables run').in_values c <;> rfl
        | some subquery =>
          cases (kept raise tables run').in_values c with
          | correlated => exact congrFun (hrun subquery hsub) _
          | computed values => rfl
          | missing => rfl
      show evaluate_compare (subquery_runner raise tables run) (some (kept raise tables run)) row scope outer c =
        evaluate_compare (subquery_runner raise tables run') (some (kept raise tables run')) row scope outer c
      unfold evaluate_compare
      dsimp only
      rw [hcandidates]

theorem every_height : ∀ {expr : WhereExpr Subquery}, expr_height expr ≤ n → expr.Every fun a => leaf_height a ≤ n
  | .leaf _, h => by rwa [expr_height] at h
  | .and left right, h => by
    rw [expr_height, max_le_iff] at h
    exact ⟨every_height h.1, every_height h.2⟩
  | .or left right, h => by
    rw [expr_height, max_le_iff] at h
    exact ⟨every_height h.1, every_height h.2⟩
  | .not left, h => by
    rw [expr_height] at h
    exact @every_height left h

theorem nodes_congr : ∀ {expr : WhereExpr Subquery}, expr.Every (fun a => precompute_leaf raise tables run a = precompute_leaf raise tables run' a) →
    precompute_nodes raise tables run expr = precompute_nodes raise tables run' expr
  | .leaf _, h => h
  | .and left right, h => by
    unfold precompute_nodes
    rw [nodes_congr h.1, nodes_congr h.2]
  | .or left right, h => by
    unfold precompute_nodes
    rw [nodes_congr h.1, nodes_congr h.2]
  | .not left, h => by
    unfold precompute_nodes
    rw [@nodes_congr left h]

/-- The test of a row, whatever is done with it. -/
theorem predicate_congr {α : Type} (h : ∀ subquery : Subquery, subquery.height ≤ n → run subquery = run' subquery) {stmt : SelectStmt Subquery}
    (hn : where_height stmt.where_ ≤ n) (tbl : Table) (outer : Option OuterContext) (k : (Row → Except ExecErr Bool) → Except ExecErr α) :
    (stmt.where_cache (precompute_subqueries raise tables run) >>= fun cache =>
        k (build_predicate_in tbl stmt.where_ stmt.table_alias outer (subquery_runner raise tables run) cache)) =
      (stmt.where_cache (precompute_subqueries raise tables run') >>= fun cache =>
        k (build_predicate_in tbl stmt.where_ stmt.table_alias outer (subquery_runner raise tables run') cache)) := by
  unfold SelectStmt.where_cache
  cases hwhere : stmt.where_ with
  | none => rfl
  | some expr =>
    rw [hwhere, where_height] at hn
    have hleaves := every_height hn
    have hnodes := nodes_congr (hleaves.imp fun a ha => (@leaf_congr raise tables run run' n h a ha).1)
    have hpred : build_predicate_in tbl (some expr) stmt.table_alias outer (subquery_runner raise tables run) (kept raise tables run) =
        build_predicate_in tbl (some expr) stmt.table_alias outer (subquery_runner raise tables run') (kept raise tables run') := by
      funext row
      exact Formula.eval_congr (hleaves.imp fun a ha => (leaf_congr h ha).2 _ _ _)
    dsimp only
    unfold precompute_subqueries
    rw [hnodes]
    cases precompute_nodes raise tables run' expr with
    | error e => rfl
    | ok _ => exact congrArg k hpred

theorem scan_subquery_congr (h : ∀ subquery : Subquery, subquery.height ≤ n → run subquery = run' subquery) {subquery : Subquery}
    (hn : where_height subquery.stmt.where_ ≤ n) :
    scan_subquery raise tables run (fun stmt => stmt.where_cache (precompute_subqueries raise tables run)) s subquery =
      scan_subquery raise tables run' (fun stmt => stmt.where_cache (precompute_subqueries raise tables run')) s subquery := by
  funext outer
  unfold scan_subquery
  dsimp only
  by_cases hjoins : (!subquery.stmt.joins.isEmpty) = true
  · rw [if_pos hjoins, if_pos hjoins]
  rw [if_neg hjoins, if_neg hjoins]
  cases htbl : subquery_table raise tables subquery with
  | error e => rw [except_error_bind, except_error_bind]
  | ok tbl =>
    rw [except_ok_bind, except_ok_bind]
    exact predicate_congr h hn tbl outer fun pred => do
      let rows ← (scan_with_index tbl subquery.stmt.where_ pred subquery.stmt.table_alias outer s).mapError (raise_scan raise)
      pure (subquery.stmt.limit_rows rows)

/-- **How deep a subquery may be nested does not matter**, if it is deep enough. -/
theorem run_deep_enough : ∀ (depth depth' : ℕ) (subquery : Subquery), subquery.height ≤ depth → subquery.height ≤ depth' →
    run_subquery_scan raise tables s depth subquery = run_subquery_scan raise tables s depth' subquery
  | 0, _, .mk stmt, h, _ => by
    rw [Subquery.height] at h
    omega
  | depth + 1, 0, .mk stmt, _, h' => by
    rw [Subquery.height] at h'
    omega
  | depth + 1, depth' + 1, .mk stmt, h, h' => by
    rw [Subquery.height] at h h'
    unfold run_subquery_scan
    have hwhere : where_height stmt.where_ ≤ min depth depth' := by
      have hselect : select_height stmt = where_height stmt.where_ := by
        obtain ⟨_, _, _, _, where_, _, _, _, _⟩ := stmt
        rw [select_height]
      omega
    refine scan_subquery_congr (fun subquery hle => ?_) hwhere
    exact run_deep_enough depth depth' subquery (by omega) (by omega)

/-- A condition whose subqueries are nested no deeper than that. -/
theorem where_deep_enough {s : ExecState} {where_ : Option (WhereExpr Subquery)} {depth depth' : ℕ} (h : where_height where_ ≤ depth)
    (h' : where_height where_ ≤ depth') (row : Row) (scope : Scope) : where_value raise depth s where_ row scope = where_value raise depth' s where_ row scope := by
  cases where_ with
  | none => rfl
  | some expr =>
    rw [where_height] at h h'
    have hrun : ∀ subquery : Subquery, subquery.height ≤ min depth depth' →
        run_subquery_scan raise s.tables s.reading depth subquery = run_subquery_scan raise s.tables s.reading depth' subquery :=
      fun subquery hle => run_deep_enough depth depth' subquery (by omega) (by omega)
    have hleaves : expr.Every fun a => leaf_height a ≤ min depth depth' := every_height (by omega)
    have hnodes := nodes_congr (hleaves.imp fun a ha => (@leaf_congr raise s.tables _ _ _ hrun a ha).1)
    unfold where_value
    show (precompute_subqueries raise s.tables (run_subquery_scan raise s.tables s.reading depth) expr >>= _) =
      (precompute_subqueries raise s.tables (run_subquery_scan raise s.tables s.reading depth') expr >>= _)
    unfold precompute_subqueries
    rw [hnodes]
    cases precompute_nodes raise s.tables (run_subquery_scan raise s.tables s.reading depth') expr with
    | error e => rfl
    | ok _ => exact Formula.eval_congr (hleaves.imp fun a ha => (leaf_congr hrun ha).2 _ _ _)

end height

/-! ### Statements -/

/-- **WHERE is what it is with nothing kept**, for a row of a table or of a JOIN: the subqueries that are run once, before the first row, are
those that do not look at it. How deep they may be nested does not matter. -/
theorem where_value_refines {s : ExecState} {where_ : Option (WhereExpr Subquery)} {depth : ℕ} {scope : Scope} {b : Bool}
    (hdepth : where_height where_ ≤ depth) (h : where_value raise depth s where_ row scope = .ok b) :
    where_value_each_row raise depth s where_ row scope = .ok b ∧
      ∀ depth', where_height where_ ≤ depth' → where_value raise depth' s where_ row scope = .ok b := by
  constructor
  · obtain ⟨cache, hcache, hvalue⟩ := except_bind_ok h
    have hkept : ∀ expr, where_ = some expr →
        precompute_subqueries raise s.tables (run_subquery_scan raise s.tables s.reading depth) expr = .ok cache := by
      rintro expr rfl
      exact hcache
    refine where_lessDefined (run_refines depth) where_ b ?_
    rw [← evaluate_cached (run_local depth) hkept]
    exact hvalue
  · intro depth' hdepth'
    rw [← where_deep_enough hdepth hdepth' row scope]
    exact h

/-- The table of `pair_table`, and its row. -/
def pair_exec : ExecState where
  catalog := { CatalogManager.new with tables := AList.insert pair_schema.name pair_schema ∅ }
  trees := pair_trees

/-- A column of the table, to be printed. -/
def plain_column (name : UInt8) : SelectColumn := ⟨false, false, .null, ⟨[], [name]⟩, .NONE⟩

/-- `EXISTS (SELECT a FROM t WHERE b = 7) AND k IN (SELECT k FROM t WHERE a = o.a)`: the second one looks at the row of `t o`. -/
def where_nested : WhereExpr Subquery :=
  .and (.leaf (.EXISTS (.mk ⟨[plain_column 97], [116], [], [], some (.leaf (.COMPARE ⟨⟨[], [98]⟩, .EQ, .int 7, none, none⟩)), [], none, [], none⟩)))
    (.leaf (.COMPARE ⟨⟨[], [107]⟩, .IN_SUBQUERY, .null, none,
      some (.mk ⟨[plain_column 107], [116], [], [], some (.leaf (.COMPARE ⟨⟨[], [97]⟩, .EQ, .null, some ⟨[111], [97]⟩, none⟩)), [], none, [], none⟩)⟩))

theorem where_value_refines_nested :
    where_value_each_row (fun _ => .no_cache) 1 pair_exec (some where_nested) pair_row.2 ⟨pair_schema, none, [111], []⟩ = .ok true ∧
      ∀ depth', where_height (some where_nested) ≤ depth' →
        where_value (fun _ => .no_cache) depth' pair_exec (some where_nested) pair_row.2 ⟨pair_schema, none, [111], []⟩ = .ok true :=
  where_value_refines (by decide) (by decide +kernel)

end GSDBEngine
