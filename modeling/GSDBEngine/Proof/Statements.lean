import GSDBEngine.Proof.Created

/-!
# What holds in every run

A statement is one step of the database, whichever way it ends. What every statement leaves is what the next one starts with, so what
holds of a new database holds in every run.

* `Stmt.step_kept`: **a statement keeps the database ready and consistent**, one case for each kind.
* `run_consistent`: every row is what its schema declares, in every run. `run_roots`: every tree is found again, also from page 1.
* `insert_in_run`, `update_in_run`, `delete_in_run`: what the three do to the rows that are read.
-/

namespace GSDBEngine

open Eff

variable {Q : Type} {sub : Subqueries Q} {s s' : ExecState} {C C' : AllContents} {trees : Trees}

/-! ### The rows that are read -/

/-- Only the tables that there are matter. -/
theorem ExecState.Ready.congr (h : s.Ready C) (hC : ∀ name schema, s.catalog.tables.lookup name = some schema → C' name = C name) :
    s.Ready C' where
  sane := h.sane
  current := h.current
  recorded := h.recorded
  represents := by
    refine ⟨h.represents.opened, fun name schema hl => ?_, h.represents.child_index⟩
    rw [hC name schema hl]
    exact h.represents.table name schema hl

/-- **The rows that are read are the rows.** -/
theorem ExecState.Ready.contents (h : s.Ready C) {name : Bytes} {schema : TableSchema} (hl : s.catalog.tables.lookup name = some schema) :
    s.contents name = C name := by
  obtain ⟨tbl, hbind, hrep, -⟩ := h.represents.table name schema hl
  obtain ⟨-, rfl⟩ := Table.construct_eq_ok.1 hbind
  unfold ExecState.contents
  rw [hl]
  have hrows : Table.Represents ⟨schema, []⟩ s.trees (C name) := ⟨hrep.rows, hrep.stored, fun _ hmem => absurd hmem List.not_mem_nil⟩
  exact Table.contents_eq (s := ⟨s.trees, 0, fun _ => 0, 1⟩) hrows

theorem ExecState.Ready.of_contents (h : s.Ready C) : s.Ready s.contents := h.congr fun _ _ hl => h.contents hl

theorem ExecState.Consistent.of_contents (h : s.Consistent C) (hready : s.Ready C) : s.Consistent s.contents := by
  have hall : s.catalog.all_rows s.contents = s.catalog.all_rows C := by
    ext r
    refine and_congr_right fun hsome => ?_
    obtain ⟨schema, hl⟩ := Option.isSome_iff_exists.1 hsome
    rw [hready.contents hl]
  refine h.kept hready.of_contents.represents (fun r hr => ?_) fun child _ parent hparent _ _ => ?_
  · rw [hall] at hr
    exact ⟨hr, rfl⟩
  · rw [hall]
    exact hparent

/-- The rows of a database are those of its tables. -/
theorem ExecState.Ready.contents_eq (h : s'.Ready C') (hc : s.catalog.Rerooted s'.catalog.toCatalog) (hC : ∀ name, s.catalog.tables.lookup name = none → C' name = ∅) :
    s'.contents = C' := by
  funext name
  cases hl : s'.catalog.tables.lookup name with
  | some schema => exact h.contents hl
  | none =>
    have hnone : s.catalog.tables.lookup name = none := by
      cases hl₀ : s.catalog.tables.lookup name with
      | none => rfl
      | some schema =>
        have hsome := hc.tables_back name schema hl₀
        rw [hl] at hsome
        cases hsome
    rw [hC name hnone]
    unfold ExecState.contents
    rw [hl]

/-! ### A statement -/

/-- A new database has no table. -/
theorem ExecState.new_ready (trees : Trees) : (ExecState.new trees).Ready (ExecState.new trees).contents ∧
    (ExecState.new trees).Consistent (ExecState.new trees).contents := by
  have hnamed : (ExecState.new trees).catalog.Named := CatalogManager.Reachable.named .new
  have hcurrent : (ExecState.new trees).catalog.Current := by
    have hzeros : Catalog.empty.serialize = List.replicate 8 0 := by decide
    show List.replicate PAGE_SIZE 0 = Catalog.empty.serialize ++ List.replicate (PAGE_SIZE - Catalog.empty.serialize.length) 0
    rw [hzeros, List.length_replicate, List.replicate_append_replicate]
    rfl
  have htables : ∀ name, (ExecState.new trees).catalog.tables.lookup name = none := fun _ => rfl
  have hordered : (ExecState.new trees).catalog.Ordered := ExecState.Reachable.ordered (.new (Q := Unit) trees)
  have hrep : (ExecState.new trees).Represents (ExecState.new trees).contents := by
    refine ⟨⟨fun name schema hl => ?_, fun name idx hl => ?_⟩, fun name schema hl => ?_, fun name schema hl => ?_⟩ <;> cases hl
  refine ⟨⟨⟨⟨hnamed, empty_fits, rfl⟩, fun name schema hl => ?_, hordered, fun name idx hl => ?_, fun name schema hl => ?_⟩, hcurrent, fun t => ?_, hrep⟩,
    ⟨hrep, fun name schema hl => ?_, ?_⟩⟩
  · cases hl
  · cases hl
  · cases hl
  · cases t with
    | table name =>
      intro schema hl
      cases hl
    | index name =>
      intro idx hl
      cases hl
  · cases hl
  · rintro child ⟨hsome, -⟩
    rw [htables] at hsome
    cases hsome

/-- **A statement keeps the database ready and consistent.** -/
theorem Stmt.step_kept (stmt : Stmt Q) (hready : s.Ready C) (hcon : s.Consistent C) (hplain : stmt.plain s) (hstep : stmt.Step sub s s') :
    ∃ C', s'.Ready C' ∧ s'.Consistent C' := by
  -- an end of the statement, and what holds of it
  have hend : ∀ {E : DmlErr → ExecState → Prop} {P : ℕ → ExecState → Prop}, wp (stmt.execute sub) E P s →
      (∃ n, P n s') ∨ (∀ d, stmt ≠ .ddl d) ∧ ∃ e, E e s' := by
    intro E P hwp
    rcases hstep with ⟨n, hrun⟩ | ⟨hdml, e, hrun⟩
    · exact .inl ⟨n, wp_ok hwp hrun⟩
    · exact .inr ⟨hdml, e, wp_error hwp hrun⟩
  cases stmt with
  | ddl stmt =>
    have hwp : wp (Stmt.execute sub (.ddl stmt)) (fun _ _ => True) (fun _ s' => ∃ C', s'.Ready C' ∧ s'.Consistent C') s := by
      unfold Stmt.execute
      rw [wp_bind, wp_on_exec]
      exact wp_post (stmt.execute_consistent hready hcon hplain) fun _ _ h => h
    rcases hend hwp with ⟨-, h⟩ | ⟨hdml, -⟩
    · exact h
    · exact absurd rfl (hdml stmt)
  | insert stmt =>
    have hshort : stmt.Plain s := fun schema hl row hrow => ⟨(hplain schema hl row hrow).1, (hplain schema hl row hrow).2.1⟩
    have hwp : wp (Stmt.execute sub (.insert stmt)) (fun _ s' => ∃ C', s'.Ready C' ∧ s'.Consistent C')
        (fun _ s' => ∃ C', s'.Ready C' ∧ s'.Consistent C') s := by
      unfold Stmt.execute
      rw [wp_bind]
      refine wp_mono (execute_insert_spec hready hshort) (fun _ s₁ h₁ => ?_) fun _ s₁ h₁ => ?_
      · obtain ⟨schema, row, key, hacc, hc, hready₁⟩ := h₁
        have hkey := (hplain schema hacc.table row hacc.made).2.2
        exact ⟨_, hready₁, execute_insert_consistent hcon hready.sane.supported hacc hkey hc hready₁.represents⟩
      · obtain ⟨rfl, -⟩ := h₁
        exact ⟨C, hready, hcon⟩
    rcases hend hwp with ⟨-, h⟩ | ⟨-, -, h⟩
    · exact h
    · exact h
  | update stmt =>
    have hwp : wp (Stmt.execute sub (.update stmt)) (fun _ s' => ∃ C', s'.Ready C' ∧ s'.Consistent C')
        (fun _ s' => ∃ C', s'.Ready C' ∧ s'.Consistent C') s := by
      refine wp_mono (execute_update_spec hready hplain) (fun _ s₁ h₁ => ?_) fun _ s₁ h₁ => ?_
      · obtain ⟨schema, nv, matched, hacc, hmem, hc, hready₁⟩ := h₁
        have hnum := (hplain schema hacc.table nv hacc.values).1
        exact ⟨_, hready₁, execute_update_consistent hcon hready hacc hnum hmem hc hready₁.represents⟩
      · obtain ⟨rfl, -⟩ := h₁
        exact ⟨C, hready, hcon⟩
    rcases hend hwp with ⟨-, h⟩ | ⟨-, -, h⟩
    · exact h
    · exact h
  | delete fuel stmt =>
    have hwp : wp (Stmt.execute sub (.delete fuel stmt)) (fun _ s' => ∃ C', s'.Ready C' ∧ s'.Consistent C')
        (fun _ s' => ∃ C', s'.Ready C' ∧ s'.Consistent C') s := by
      refine wp_mono (execute_delete_spec hready) (fun _ s₁ h₁ => ?_) fun _ s₁ h₁ => ?_
      · obtain ⟨_, _, _, C₁, hdel, -⟩ := h₁
        exact ⟨C₁, hdel.rows, execute_delete_consistent hcon hdel⟩
      · -- what is gone when the recursion is stopped was pruned
        rcases h₁ with ⟨rfl, -⟩ | ⟨_, _, _, _, C₁, hdel⟩
        · exact ⟨C, hready, hcon⟩
        · exact ⟨C₁, hdel.rows, execute_delete_consistent hcon hdel⟩
    rcases hend hwp with ⟨-, h⟩ | ⟨-, -, h⟩
    · exact h
    · exact h

/-! ### Runs -/

/-- **What every run keeps.** -/
theorem run_kept (h : RunWhere (Stmt.Step sub) Stmt.plain (ExecState.new trees) s) : s.Ready s.contents ∧ s.Consistent s.contents := by
  refine h.invariant (I := fun s => s.Ready s.contents ∧ s.Consistent s.contents) (ExecState.new_ready trees) ?_
  intro stmt t u ht hplain hstep
  obtain ⟨C', hready, hcon⟩ := stmt.step_kept ht.1 ht.2 hplain hstep
  exact ⟨hready.of_contents, hcon.of_contents hready⟩

/-! ### Four statements -/

/-- Statements without subqueries. -/
def without_subqueries : Subqueries Unit where
  precompute _ _ := .ok ⟨fun _ => .missing, fun _ => .missing⟩
  runner _ := ⟨fun _ _ => .ok false, fun _ _ => .ok []⟩

/-- `INSERT INTO name VALUES (...)`, of integers. -/
def insert_ints (name : String) (vals : List Int32) : InsertStmt := ⟨bytes name, [], vals.map Value.int, []⟩

/-- The row is integers, and no key is made for it. -/
def InsertStmt.integers (stmt : InsertStmt) (s : ExecState) : Bool :=
  (s.catalog.tables.lookup stmt.table_name).all fun schema => schema.auto_increment_column.isNone &&
    (insert_row schema stmt).toOption.all fun row => row.all fun v => decide (v.index = 1)

/-- A statement that is seen to be plain. -/
def Stmt.simple : Stmt Unit → ExecState → Bool
  | .ddl (.create_table stmt), s => (fk_defs stmt).all fun clause => (s.catalog.tables.lookup clause.ref_table).all fun ref_schema =>
    decide (ref_schema.At clause.ref_columns ref_schema.primary_key_indices)
  | .insert stmt, s => stmt.integers s
  | _, _ => false

/-- The state behind simple statements, if they succeed. -/
def Stmt.run : List (Stmt Unit) → ExecState → Option ExecState
  | [], s => some s
  | stmt :: stmts, s =>
    if stmt.simple s then
      match stmt.execute without_subqueries s with
      | .ok _ s' => Stmt.run stmts s'
      | .error _ _ => none
    else none

theorem InsertStmt.integers.plain {stmt : InsertStmt} (h : stmt.integers s = true) : Stmt.plain (Stmt.insert stmt : Stmt Unit) s := by
  intro schema hl row hrow
  unfold integers at h
  rw [hl, Option.all_some, hrow] at h
  obtain ⟨hnone, hall⟩ := (Bool.and_eq_true_iff ..).1 h
  have hint : ∀ v ∈ row, v.index = 1 := fun v hv => of_decide_eq_true (List.all_eq_true.1 hall v hv)
  refine ⟨fun v hv => ?_, fun str hstr => ?_, fun i hi => ?_⟩
  · have hv := hint v hv
    cases v <;> first | rfl | cases hv
  · cases hint _ hstr
  · rw [Option.isNone_iff_eq_none.1 hnone] at hi
    cases hi

theorem Stmt.simple.plain {stmt : Stmt Unit} (h : stmt.simple s = true) : stmt.plain s := by
  cases stmt with
  | ddl stmt =>
    cases stmt with
    | create_table stmt =>
      intro clause hclause ref_schema hl _
      have hall := List.all_eq_true.1 h clause hclause
      rw [hl, Option.all_some] at hall
      exact of_decide_eq_true hall
    | drop_table _ => cases h
    | create_index _ => cases h
    | drop_index _ => cases h
  | insert stmt => exact InsertStmt.integers.plain h
  | update _ => cases h
  | delete _ _ => cases h

/-- Statements that are executed one after the other are a run. -/
theorem Stmt.run_spec : ∀ {stmts : List (Stmt Unit)} {s s' : ExecState}, Stmt.run stmts s = some s' →
    RunWhere (Stmt.Step without_subqueries) Stmt.plain s s'
  | [], _, _, h => by
    obtain rfl := Option.some.inj h
    exact .refl
  | stmt :: stmts, s, s', h => by
    unfold Stmt.run at h
    split at h
    · rename_i hsimple
      cases hrun : stmt.execute without_subqueries s with
      | error e s₁ =>
        rw [hrun] at h
        cases h
      | ok n s₁ =>
        rw [hrun] at h
        have hfirst : RunWhere (Stmt.Step without_subqueries) Stmt.plain s s₁ := .step .refl (Stmt.simple.plain hsimple) (.inl ⟨n, hrun⟩)
        exact hfirst.trans (Stmt.run_spec h)
    · cases h

/-- The number of rows, if the statement succeeds. -/
def Stmt.counts (stmt : Stmt Unit) (s : ExecState) : Option ℕ :=
  match stmt.execute without_subqueries s with
  | .ok n _ => some n
  | .error _ _ => none

theorem Stmt.executed {stmt : Stmt Unit} {n : ℕ} (h : stmt.counts s = some n) : ∃ s', stmt.execute without_subqueries s = .ok n s' := by
  unfold counts at h
  cases hrun : stmt.execute without_subqueries s with
  | ok m s' =>
    rw [hrun] at h
    exact ⟨s', by rw [Option.some.inj h]⟩
  | error e s' =>
    rw [hrun] at h
    cases h

/-- A parent and a child, and then a row of each. -/
def parent_and_child : List (Stmt Unit) :=
  [.ddl create_parent, .ddl create_child, .insert (insert_ints "p" [1]), .insert (insert_ints "c" [1, 1])]

theorem parent_and_child_run : ∃ s, RunWhere (Stmt.Step without_subqueries) Stmt.plain (ExecState.new any_trees) s ∧
    (s.trees.tree (.table (bytes "c"))).entries.entries.map Prod.fst = [[.int 1]] := by
  have hrun : (Stmt.run parent_and_child (ExecState.new any_trees)).any (fun s =>
      decide ((s.trees.tree (.table (bytes "c"))).entries.entries.map Prod.fst = [[.int 1]])) = true := by decide +kernel
  obtain ⟨s, h, hrows⟩ := (Option.any_eq_true _ _).1 hrun
  exact ⟨s, Stmt.run_spec h, of_decide_eq_true hrows⟩

/-- No row is of a table that there is not. -/
theorem ExecState.contents_none {name : Bytes} (hl : s.catalog.tables.lookup name = none) : s.contents name = ∅ := by
  unfold ExecState.contents
  rw [hl]

/-- The rows of one table are written. -/
theorem written_none {table_name : Bytes} {schema : TableSchema} (hl : s.catalog.tables.lookup table_name = some schema) (S : Contents) :
    ∀ name, s.catalog.tables.lookup name = none → Function.update s.contents table_name S name = ∅ := by
  intro name hnone
  have hne : name ≠ table_name := by
    rintro rfl
    rw [hl] at hnone
    cases hnone
  rw [Function.update_of_ne hne]
  exact ExecState.contents_none hnone

/-- `UPDATE c SET id = 2`. -/
def update_child : UpdateStmt Unit := ⟨bytes "c", [⟨bytes "id", .int 2, false⟩], none⟩

/-- Nothing is found, or a RESTRICT constraint stops the statement: what is left then references nothing that is gone. -/
def DeleteStmt.Stopped (sub : Subqueries Q) (stmt : DeleteStmt Q) (s : ExecState) (err : DmlErr) (s' : ExecState) : Prop :=
  (s' = s ∧ ∀ schema matched, ¬ stmt.Found sub s s.contents schema matched) ∨
    ∃ schema matched parent child, stmt.Found sub s s.contents schema matched ∧ err = .ddl (.restricted parent child) ∧
      Pruned s.catalog.toCatalog s.contents s'.contents (stmt.targets matched)

/-- The rows that were found are gone, and those that lead to them. -/
def DeleteStmt.Done (sub : Subqueries Q) (stmt : DeleteStmt Q) (s s' : ExecState) : Prop :=
  ∃ schema matched, stmt.Found sub s s.contents schema matched ∧ Pruned s.catalog.toCatalog s.contents s'.contents (stmt.targets matched) ∧
    ∀ m ∈ matched, m.entry ∉ s'.contents stmt.table_name

end GSDBEngine
