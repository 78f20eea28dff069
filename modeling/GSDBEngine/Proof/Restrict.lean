import GSDBEngine.Proof.Cascade

/-!
# What a RESTRICT constraint leaves

A call that a RESTRICT constraint stops has deleted what the constraints before it had it delete.

* `ExecState.Represents.unique`: the trees determine the rows.
* `restricted_iff`: **nothing is deleted exactly where the way to the first row that can go ends at the constraint.**
-/

namespace GSDBEngine

open Eff

variable {s s' : ExecState} {C C' : AllContents}

/-! ### The rows of a state -/

theorem Table.Represents.subset {tbl : Table} {trees : Trees} {S S' : Contents} (h : tbl.Represents trees S)
    (h' : tbl.Represents trees S') : S ⊆ S' := by
  intro e he
  obtain ⟨value, hmem, hvalue⟩ := h.stored e he
  obtain ⟨row, hrow, hvalue'⟩ := h'.rows _ _ hmem
  rw [hvalue] at hvalue'
  cases hvalue'
  exact hrow

/-- The trees determine the rows. -/
theorem ExecState.Represents.unique (h : s.Represents C) (h' : s.Represents C') {t : Bytes} {schema : TableSchema}
    (hl : s.catalog.tables.lookup t = some schema) : C t = C' t := by
  obtain ⟨tbl, htbl, hrep, -⟩ := h.table t schema hl
  obtain ⟨tbl', htbl', hrep', -⟩ := h'.table t schema hl
  rw [htbl] at htbl'
  cases htbl'
  exact (hrep.subset hrep').antisymm (hrep'.subset hrep)

/-- **On every reachable catalog**: a call that a RESTRICT constraint stops leaves some of the rows, and all of them exactly where
the constraint comes before the first row that can go. -/
theorem restricted_iff {Q : Type} (hs : ExecState.Reachable Q s) (hrep : s.Represents C) {fuel : ℕ} {table_name parent child : Bytes}
    {key : Key} (hrun : delete_row_cascading fuel table_name key s = .error (.restricted parent child) s') :
    (∃ C', s'.Represents C' ∧ ∀ t, C' t ⊆ C t) ∧ (s'.Represents C ↔ s.RestrictFirst C table_name key) := by
  have herr := wp_error (delete_row_cascading_spec fuel table_name key s C hs.ordered hrep) hrun
  obtain ⟨hre, C', hrep', hsub, hfirst, hnot⟩ := herr parent child rfl
  refine ⟨⟨C', hrep', hsub⟩, fun hall => ?_, fun h => hfirst h ▸ hrep'⟩
  by_contra hno
  obtain ⟨t, schema, hl, e, he, hgone⟩ := hnot hno
  obtain ⟨root, hl'⟩ := hre.table hl
  rw [hall.unique hrep' hl'] at he
  exact hgone he

/-! ### Two tables that reference one -/

/-- `CREATE TABLE d (id INT PRIMARY KEY, pid INT REFERENCES p (id))`. -/
def create_restricting : DdlStmt Unit := small_create "d" [int_column "id" true "" "", int_column "pid" false "p" "id"]

/-- The tables and indexes after `p`, `d` and `c` were created. -/
def three_tables (cat : Catalog) : Bool :=
  decide (cat.tables.entries = [⟨bytes "c", referencing_schema (bytes "c") .CASCADE (bytes "__fk_c_pid")⟩,
    ⟨bytes "d", referencing_schema (bytes "d") .RESTRICT (bytes "__fk_d_pid")⟩, ⟨bytes "p", parent_schema⟩]) &&
  decide (cat.indexes.entries = [⟨bytes "__fk_c_pid", referencing_index (bytes "c") (bytes "__fk_c_pid")⟩,
    ⟨bytes "__fk_d_pid", referencing_index (bytes "d") (bytes "__fk_d_pid")⟩])

def three_contents : AllContents := fun name =>
  if name = bytes "p" then {([.int 1], [.int 1])} else {([.int 1], [.int 1, .int 1])}

theorem three_tables_represent (h : three_tables s.catalog.toCatalog = true) (htrees : s.trees = two_rows) : s.Represents three_contents := by
  obtain ⟨ht, hi⟩ := (Bool.and_eq_true_iff ..).1 h
  have ht := of_decide_eq_true ht
  have hi := of_decide_eq_true hi
  have hlookup : ∀ {idx : IndexSchema} {name}, (⟨name, idx⟩ : Sigma fun _ : Bytes => IndexSchema) ∈ s.catalog.indexes.entries →
      s.catalog.indexes.lookup name = some idx := fun hmem => AList.mem_lookup_iff.2 hmem
  have hindexes : ∀ name, s.catalog.get_indexes_for_table name = [referencing_index (bytes "c") (bytes "__fk_c_pid"),
      referencing_index (bytes "d") (bytes "__fk_d_pid")].filter fun idx => decide (idx.table_name = name) := by
    intro name
    unfold Catalog.get_indexes_for_table
    rw [hi]
    rfl
  refine one_row_each_represent htrees (fun name idx hl => ?_) fun name schema hl => ?_
  · have hmem := AList.mem_lookup_iff.1 hl
    rw [hi] at hmem
    rcases List.mem_cons.1 hmem with h | h
    · cases h
      rfl
    · cases List.mem_singleton.1 h
      rfl
  · have hmem := AList.mem_lookup_iff.1 hl
    rw [ht] at hmem
    rw [hindexes]
    rcases List.mem_cons.1 hmem with h | h
    · cases h
      exact .inr ⟨by decide, ⟨.CASCADE, bytes "__fk_c_pid", rfl, rfl, hlookup (by rw [hi]; exact List.mem_cons_self)⟩, rfl⟩
    · rcases List.mem_cons.1 h with h | h
      · cases h
        exact .inr ⟨by decide, ⟨.RESTRICT, bytes "__fk_d_pid", rfl, rfl,
          hlookup (by rw [hi]; exact List.mem_cons_of_mem _ List.mem_cons_self)⟩, rfl⟩
      · cases List.mem_singleton.1 h
        exact .inl ⟨rfl, rfl, rfl, rfl⟩

/-- Stopped by `d`, with no row left in the first table of the catalog. -/
def stops_late (s : ExecState) : Bool :=
  match delete_row_cascading 3 (bytes "p") [.int 1] s with
  | .ok _ _ => false
  | .error e s' => decide (e = .restricted (bytes "p") (bytes "d")) &&
    (decide ((s'.catalog.tables.lookup (bytes "c")).map TableSchema.name = some (bytes "c")) &&
      (s'.trees.tree (.table (bytes "c"))).entries.entries.isEmpty)

/-- The parent row is deleted, where `c` cascades and `d`, behind it, restricts. -/
theorem stops_late_run : ∃ s s', ExecState.Reachable Unit s ∧ s.Represents three_contents ∧
    delete_row_cascading 3 (bytes "p") [.int 1] s = .error (.restricted (bytes "p") (bytes "d")) s' ∧
    (s'.catalog.tables.lookup (bytes "c")).map TableSchema.name = some (bytes "c") ∧
    (s'.trees.tree (.table (bytes "c"))).entries.entries = [] := by
  have hrun : ((create_parent.next (ExecState.new any_trees)).any fun s₁ => (create_restricting.next s₁).any fun s₂ =>
      (create_cascading.next s₂).any fun s₃ => three_tables s₃.catalog.toCatalog && stops_late { s₃ with trees := two_rows }) = true := by
    decide +kernel
  obtain ⟨s₁, h₁, hrun⟩ := (Option.any_eq_true _ _).1 hrun
  obtain ⟨s₂, h₂, hrun⟩ := (Option.any_eq_true _ _).1 hrun
  obtain ⟨s₃, h₃, hrun⟩ := (Option.any_eq_true _ _).1 hrun
  obtain ⟨htables, hrun⟩ := (Bool.and_eq_true_iff ..).1 hrun
  have hreach₁ : ExecState.Reachable Unit s₁ := (ExecState.Reachable.new any_trees).ddl h₁
  have hreach₂ : ExecState.Reachable Unit s₂ := hreach₁.ddl h₂
  have hreach₃ : ExecState.Reachable Unit s₃ := hreach₂.ddl h₃
  have hrep : ExecState.Represents { s₃ with trees := two_rows } three_contents := three_tables_represent htables rfl
  unfold stops_late at hrun
  cases hdelete : delete_row_cascading 3 (bytes "p") [.int 1] { s₃ with trees := two_rows } with
  | ok found s' => rw [hdelete] at hrun; cases hrun
  | error e s' =>
    rw [hdelete] at hrun
    obtain ⟨he, hrun⟩ := (Bool.and_eq_true_iff ..).1 hrun
    obtain ⟨hlookup, hempty⟩ := (Bool.and_eq_true_iff ..).1 hrun
    obtain rfl := of_decide_eq_true he
    exact ⟨_, s', hreach₃.rows two_rows, hrep, hdelete, of_decide_eq_true hlookup, List.isEmpty_iff.1 hempty⟩

theorem restricted_iff_late : ∃ s s', ExecState.Reachable Unit s ∧ s.Represents three_contents ∧
    delete_row_cascading 3 (bytes "p") [.int 1] s = .error (.restricted (bytes "p") (bytes "d")) s' ∧
    (∃ C', s'.Represents C' ∧ ∀ t, C' t ⊆ three_contents t) ∧
    (s'.Represents three_contents ↔ s.RestrictFirst three_contents (bytes "p") [.int 1]) := by
  obtain ⟨s, s', hreach, hrep, hrun, -⟩ := stops_late_run
  exact ⟨s, s', hreach, hrep, hrun, restricted_iff hreach hrep hrun⟩

/-- **The row of `c` is gone** when `d` stops the deletion. -/
theorem restricted_after_cascade : ∃ s s', ExecState.Reachable Unit s ∧ s.Represents three_contents ∧
    delete_row_cascading 3 (bytes "p") [.int 1] s = .error (.restricted (bytes "p") (bytes "d")) s' ∧ ¬ s'.Represents three_contents := by
  obtain ⟨s, s', hreach, hrep, hrun, hlookup, hempty⟩ := stops_late_run
  refine ⟨s, s', hreach, hrep, hrun, fun hall => ?_⟩
  obtain ⟨schema, hl, hname⟩ := Option.map_eq_some_iff.1 hlookup
  obtain ⟨tbl, htbl, hrows, -⟩ := hall.table _ schema hl
  have hschema := (Table.construct_eq_ok.1 htbl).2
  obtain ⟨value, hmem, -⟩ := hrows.stored ([.int 1], [.int 1, .int 1]) rfl
  have htree : tbl.rows = .table (bytes "c") := by
    rw [hschema, ← hname]
    rfl
  rw [htree, hempty] at hmem
  exact absurd hmem List.not_mem_nil

end GSDBEngine
