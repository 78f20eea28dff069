import GSDBEngine.Proof.ForeignKeys
import GSDBEngine.Proof.Check

/-!
# INSERT

The row is made of the values and the DEFAULTs, tested against CHECK and FOREIGN KEY, and given to the table.

* `TableSchema.Admits`: a row that is stored has the types of its columns. `check_row_iff`: CHECK lets through what meets the constraints.
* `execute_insert_spec`: **an INSERT adds its row, or changes nothing.**
* `execute_insert_consistent`: the row is what the schema declares.
-/

namespace GSDBEngine

open Eff

variable {s s' : ExecState} {C : AllContents} {name : Bytes} {schema : TableSchema} {row : Row}

/-! ### Types -/

/-- A value that is encoded is one of the column. -/
theorem Column.admits_of_takes {col : Column} {v : Value} (h : RowSerializer.Takes col v) : col.Admits v := by
  unfold RowSerializer.Takes at h
  unfold Column.Admits
  cases hnull : v.isNull with
  | true => rwa [hnull] at h
  | false =>
    rw [hnull] at h
    obtain ⟨bytes, hbytes⟩ := h
    rw [if_neg (by decide)]
    obtain ⟨v, ht, rfl, -⟩ | ⟨v, ht, rfl, -⟩ | ⟨v, ht, rfl, -⟩ | ⟨str, ht, rfl, -, hlen⟩ := RowSerializer.encode_value_cases hbytes
    · exact ⟨by rw [ht]; rfl, fun str hstr => (by cases hstr)⟩
    · exact ⟨by rw [ht]; rfl, fun str hstr => (by cases hstr)⟩
    · exact ⟨by rw [ht]; rfl, fun str hstr => (by cases hstr)⟩
    · refine ⟨by rw [ht]; rfl, fun str' hstr => ?_⟩
      obtain rfl := Value.varchar.inj hstr
      exact hlen

/-- **A row that can be stored has the types of its columns**, and NULL only where it is allowed. -/
theorem Table.Fits.typed {tbl : Table} {e : Key × Row} (h : tbl.Fits e) : List.Forall₂ Column.Admits tbl.schema.columns e.2 := by
  obtain ⟨hlen, htakes⟩ := h.takes
  refine List.forall₂_iff_get.2 ⟨hlen.symm, fun i hi hi' => Column.admits_of_takes (htakes i _ _ ?_ ?_)⟩
  · exact List.getElem?_eq_getElem hi
  · exact List.getElem?_eq_getElem hi'

/-! ### CHECK -/

/-- The column of a constraint is found by its name. -/
def TableSchema.OwnCheck (schema : TableSchema) (c : CheckConstraint) : Prop :=
  ∃ col, schema.columns[c.column_index.toNat]? = some col ∧ schema.column_index col.name = some c.column_index.toNat

theorem mem_comparisons (op : CheckOp) : check_op_to_compare_op op ∈ comparisons := by cases op <;> decide

/-- **A constraint is violated exactly if it is not met.** -/
theorem violates_iff {c : CheckConstraint} (hown : schema.OwnCheck c) (hlen : row.length = schema.columns.length) :
    ∃ b, violates schema row c = .ok b ∧ (b = true ↔ ¬ c.Met row) := by
  obtain ⟨col, hcol, hindex⟩ := hown
  have hlt : c.column_index.toNat < row.length := by
    rw [hlen]
    exact (List.getElem?_eq_some_iff.1 hcol).1
  have hval : row[c.column_index.toNat]? = some (row[c.column_index.toNat]) := List.getElem?_eq_getElem hlt
  have hget : Row.get row c.column_index.toNat = .ok (row[c.column_index.toNat]) := by
    unfold Row.get
    rw [hval]
    rfl
  have hmet : c.Met row ↔ (row[c.column_index.toNat]).isNull = true ∨
      compare_values (row[c.column_index.toNat]) (check_op_to_compare_op c.op) c.operand = true := by
    constructor
    · rintro ⟨v, hv, hor⟩
      obtain rfl := Option.some.inj (hval.symm.trans hv)
      exact hor
    · exact fun hor => ⟨_, hval, hor⟩
  generalize row[c.column_index.toNat] = val at hval hget hmet
  have hevaluated : evaluate_compare no_runner none row schema.own_scope none
      ⟨⟨[], col.name⟩, check_op_to_compare_op c.op, c.operand, none, none⟩ =
        .ok (!(val.isNull || c.operand.isNull) && compare_operands (check_op_to_compare_op c.op) val c.operand) :=
    comparison_evaluated no_runner (mem_comparisons c.op) rfl (resolve_own hindex hval)
  have hoperands : compare_operands (check_op_to_compare_op c.op) val c.operand = compare_values val (check_op_to_compare_op c.op) c.operand := by
    cases c.op <;> rfl
  -- nothing compares with NULL
  have hnull : c.operand.isNull = true → compare_values val (check_op_to_compare_op c.op) c.operand = false := by
    intro hnull
    rw [null_iff.1 hnull]
    cases val <;> rfl
  have hviolates : violates schema row c = .ok (!val.isNull && !compare_values val (check_op_to_compare_op c.op) c.operand) := by
    unfold violates
    rw [hcol]
    dsimp only
    rw [hget]
    show (if val.isNull then pure false else evaluate_compare no_runner none row schema.own_scope none _ >>= fun met => pure (!met)) = _
    rw [hevaluated, hoperands]
    cases hv : val.isNull with
    | true => rfl
    | false =>
      cases ho : c.operand.isNull with
      | false => rfl
      | true =>
        rw [hnull ho]
        rfl
  refine ⟨_, hviolates, ?_⟩
  rw [hmet]
  cases val.isNull <;> cases compare_values val (check_op_to_compare_op c.op) c.operand <;> decide

/-- The first constraint that is not met is found. -/
theorem find_unmet_iff (hlen : row.length = schema.columns.length) : ∀ {checks : List CheckConstraint} {i : ℕ},
    (∀ c ∈ checks, schema.OwnCheck c) →
    (find_violated_from schema row i checks = .ok none ∧ ∀ c ∈ checks, c.Met row) ∨
      ∃ j, ∃ c ∈ checks, find_violated_from schema row i checks = .ok (some (i + j)) ∧ checks[j]? = some c ∧ ¬ c.Met row
  | [], _, _ => .inl ⟨rfl, fun _ hmem => absurd hmem List.not_mem_nil⟩
  | c :: checks, i, hown => by
    have ih := @find_unmet_iff hlen checks (i + 1) fun c hmem => hown c (List.mem_cons_of_mem _ hmem)
    obtain ⟨b, hb, hiff⟩ := violates_iff (hown c List.mem_cons_self) hlen
    unfold find_violated_from
    rw [hb]
    cases b with
    | true => exact .inr ⟨0, c, List.mem_cons_self, rfl, rfl, hiff.1 rfl⟩
    | false =>
      have hmet : c.Met row := by
        by_contra hno
        cases hiff.2 hno
      rcases ih with ⟨hnone, hall⟩ | ⟨j, c', hmem, hsome, hget, hno⟩
      · refine .inl ⟨hnone, fun c' hmem => ?_⟩
        rcases List.mem_cons.1 hmem with rfl | hmem
        · exact hmet
        · exact hall c' hmem
      · refine .inr ⟨j + 1, c', List.mem_cons_of_mem _ hmem, ?_, hget, hno⟩
        rw [show i + (j + 1) = i + 1 + j by omega]
        exact hsome

/-- **CHECK lets a row through exactly if it meets the constraints.** -/
theorem check_row_iff (hown : ∀ c ∈ schema.checks, schema.OwnCheck c) (hlen : row.length = schema.columns.length) :
    check_row schema row = .ok () ↔ ∀ c ∈ schema.checks, c.Met row := by
  unfold check_row find_violated_check
  rcases find_unmet_iff (i := 0) hlen hown with ⟨hnone, hall⟩ | ⟨j, c, hmem, hsome, hget, hno⟩
  · rw [hnone]
    exact ⟨fun _ => hall, fun _ => rfl⟩
  · rw [hsome, Nat.zero_add]
    refine ⟨fun hok => ?_, fun hall => absurd (hall c hmem) hno⟩
    simp only [Except.mapError, bind, Except.bind, hget] at hok
    cases hok

/-! ### Values -/

theorem named_values_length {value_is_default : List Bool} : ∀ {vals : List (Bytes × Value)} {i : ℕ} {provided provided' : List (Option Value)},
    named_values schema value_is_default i vals provided = .ok provided' → provided'.length = provided.length
  | [], _, _, _, h => by
    obtain rfl := Except.ok.inj h
    rfl
  | (col_name, v) :: vals, i, provided, _, h => by
    have ih := @named_values_length value_is_default vals (i + 1)
    unfold named_values at h
    cases hidx : schema.column_index col_name with
    | none =>
      rw [hidx] at h
      cases h
    | some idx =>
      rw [hidx] at h
      have hlen := ih h
      rw [hlen]
      split
      · rfl
      · exact List.length_set ..

/-- The row of an INSERT has a value for every column. -/
theorem insert_row_length {stmt : InsertStmt} (h : insert_row schema stmt = .ok row) : row.length = schema.columns.length := by
  have hresolve : ∀ provided : List (Option Value), provided.length = schema.columns.length →
      (resolve_defaults schema provided).length = schema.columns.length := by
    intro provided hp
    unfold resolve_defaults
    rw [List.length_zipWith, hp, Nat.min_self]
  unfold insert_row at h
  split at h
  · split at h
    · cases h
    · rename_i hcount
      obtain rfl := Except.ok.inj h
      refine hresolve _ ?_
      unfold positional_values
      rw [List.length_mapIdx]
      exact not_not.1 hcount
  · split at h
    · cases h
    · obtain ⟨provided, hp, h⟩ := except_bind_ok h
      obtain rfl := Except.ok.inj h
      refine hresolve _ ?_
      rw [named_values_length hp, List.length_replicate]

/-! ### INSERT -/

/-- What an INSERT leaves of a table: a new row, under its key. -/
structure InsertStmt.Accepted (stmt : InsertStmt) (s : ExecState) (C : AllContents) (schema : TableSchema) (row : Row) (key : Key) : Prop where
  table : s.catalog.tables.lookup stmt.table_name = some schema
  made : insert_row schema stmt = .ok row
  checks : ∀ c ∈ schema.checks, c.Met row
  references : schema.ReferencesMet C row
  new : (s.opened_table schema).New (C stmt.table_name)
    (key, (s.opened_table schema).assigned ((s.opened_table schema).next_key s.trees) row)

/-- The rows behind an INSERT. -/
def InsertStmt.effect (stmt : InsertStmt) (s : ExecState) (C : AllContents) (schema : TableSchema) (row : Row) (key : Key) : AllContents :=
  Function.update C stmt.table_name
    (insert (key, (s.opened_table schema).assigned ((s.opened_table schema).next_key s.trees) row) (C stmt.table_name))

/-- The row is numbers and short strings. -/
def InsertStmt.Plain (stmt : InsertStmt) (s : ExecState) : Prop :=
  ∀ schema, s.catalog.tables.lookup stmt.table_name = some schema → ∀ row, insert_row schema stmt = .ok row →
    (∀ v ∈ row, v.isNaN = false) ∧ Row.Short row

/-- **An INSERT adds its row, or changes nothing.** -/
theorem execute_insert_spec (h : s.Ready C) {stmt : InsertStmt} (hplain : stmt.Plain s) :
    wp (execute_insert stmt) (fun _ s' => s' = s ∧ ∀ schema row key, ¬ stmt.Accepted s C schema row key)
      (fun _ s' => ∃ schema row key, stmt.Accepted s C schema row key ∧ s.catalog.Rerooted s'.catalog.toCatalog ∧
        s'.Ready (stmt.effect s C schema row key)) s := by
  have hn := h.sane.wellformed.named
  unfold execute_insert
  rw [wp_bind, wp_on_exec]
  refine wp_mono (get_table_spec s stmt.table_name) (fun schema s₀ h₀ => ?_) fun err s₀ h₀ => ⟨h₀.1, fun schema row key hacc => ?_⟩
  swap
  · have htable := hacc.table
    rw [h₀.2] at htable
    cases htable
  obtain ⟨rfl, hl⟩ := h₀
  -- from here on an accepted statement has this table, and this row
  have htable : ∀ {schema' row' key'}, stmt.Accepted s₀ C schema' row' key' → schema' = schema := fun hacc =>
    Option.some.inj (hacc.table.symm.trans hl)
  rw [wp_bind]
  refine wp_liftE (fun row hrow => ?_) fun err herr => ⟨rfl, fun schema' row' key' hacc => ?_⟩
  swap
  · have hrow := hacc.made
    rw [htable hacc, herr] at hrow
    cases hrow
  have hsame : ∀ {schema' row' key'}, stmt.Accepted s₀ C schema' row' key' → row' = row := by
    intro schema' row' key' hacc
    have hrow' := hacc.made
    rw [htable hacc, hrow] at hrow'
    exact (Except.ok.inj hrow').symm
  have hlen := insert_row_length hrow
  obtain ⟨hnum, hshort⟩ := hplain schema hl row hrow
  have hcheck : check_row schema row = .ok () ↔ ∀ c ∈ schema.checks, c.Met row := check_row_iff (h.sane.checks _ schema hl) hlen
  rw [wp_bind]
  refine wp_liftE (fun _ hchecked => ?_) fun err herr => ⟨rfl, fun schema' row' key' hacc => ?_⟩
  swap
  · have hchecks := hacc.checks
    rw [htable hacc, hsame hacc] at hchecks
    rw [hcheck.2 hchecks] at herr
    cases herr
  rw [wp_bind]
  refine wp_mono (check_foreign_keys_on_write_spec h hl hlen hnum) (fun _ s₁ h₁ => ?_) fun err s₁ h₁ => ?_
  swap
  · obtain ⟨rfl, hno⟩ := h₁
    refine ⟨rfl, fun schema' row' key' hacc => hno ?_⟩
    have href := hacc.references
    rwa [htable hacc, hsame hacc] at href
  obtain ⟨rfl, href⟩ := h₁
  -- the table is written
  rw [wp_bind, wp_get, wp_bind, wp_on_exec]
  obtain ⟨-, hrep, hsound⟩ := h.represents.binds hn hl
  refine on_table_ready h hl (fun _ hidx => hidx) fun st htrees hsync hnext => ?_
  have hrep' : (s₁.opened_table schema).Represents st.trees (C stmt.table_name) := htrees ▸ hrep
  refine wp_mono (wp_and (Table.insert_stores (opened_table_bound hn) (Table.storing_of_represents hrep' hsound) hnum)
    (Table.keeps_insert (Table.synced_stable _) row st hsync)) (fun key obj hobj => ?_) fun err obj hobj => ?_
  · obtain ⟨⟨hnew, hstoring, hframe, -⟩, hsync'⟩ := hobj
    rw [hnext] at hnew hstoring
    have hshort' : Contents.Short (insert (key, (s₁.opened_table schema).assigned ((s₁.opened_table schema).next_key s₁.trees) row)
        (C stmt.table_name)) := by
      intro e he
      rcases he with rfl | he
      · exact Table.assigned_short hshort _
      · exact Table.contents_short hrep' e he
    dsimp only
    rw [wp_on_exec]
    refine wp_mono (persist_ready h hl (fun t ht => (hframe t ht).trans (by rw [htrees])) (hstoring.represents hshort') hstoring.sound hsync')
      (fun _ s₂ h₂ => ?_) fun _ _ hf => hf.elim
    exact ⟨schema, row, key, ⟨hl, hrow, hcheck.1 hchecked, href, hnew⟩, h₂.2.1, h₂.1⟩
  · obtain ⟨⟨rfl, hno, -⟩, -⟩ := hobj
    refine ⟨by rw [htrees], fun schema' row' key' hacc => hno key' ?_⟩
    have hnew := hacc.new
    rw [htable hacc, hsame hacc] at hnew
    rw [hnext]
    exact hnew

/-! ### What the row is -/

/-- Only a key that is left to AUTO_INCREMENT is given. -/
theorem Table.assigned_get {tbl : Table} {next : UInt32} {i : ℕ}
    (h : ∀ k, tbl.schema.auto_increment_column = some k → row[k]? = some .null → i ≠ k) : (tbl.assigned next row)[i]? = row[i]? := by
  unfold Table.assigned
  cases hk : tbl.schema.auto_increment_column with
  | none => rfl
  | some k =>
    dsimp only
    by_cases hany : (row[k]?).any Value.isNull = true
    · rw [if_pos hany]
      obtain ⟨v, hv, hnull⟩ : ∃ v, row[k]? = some v ∧ v.isNull = true := by
        cases hv : row[k]? with
        | none =>
          rw [hv] at hany
          cases hany
        | some v =>
          rw [hv] at hany
          exact ⟨v, rfl, hany⟩
      rw [null_iff.1 hnull] at hv
      have hne := h k hk hv
      exact List.getElem?_set_ne hne.symm
    · rw [if_neg hany]

/-- CHECK and FOREIGN KEY have seen the row that is stored. -/
theorem TableSchema.KeyUnchecked.assigned (tbl : Table) (next : UInt32) (h : tbl.schema.KeyUnchecked row) :
    (∀ c ∈ tbl.schema.checks, c.Met row → c.Met (tbl.assigned next row)) ∧
      ∀ fk ∈ tbl.schema.foreign_keys, (tbl.assigned next row).values fk.column_indices = row.values fk.column_indices := by
  refine ⟨fun c hc hmet => ?_, fun fk hfk => ?_⟩
  · obtain ⟨v, hv, hor⟩ := hmet
    refine ⟨v, ?_, hor⟩
    rw [Table.assigned_get fun k hk hnull => (h k hk hnull).1 c hc, hv]
  · refine List.map_congr_left fun col hcol => ?_
    rw [Table.assigned_get fun k hk hnull => (h k hk hnull).2 fk hfk col hcol]

/-- **The row is what its schema declares.** -/
theorem execute_insert_consistent (h : s.Consistent C) (hs : s.catalog.Supported) {stmt : InsertStmt} {key : Key}
    (hacc : stmt.Accepted s C schema row key) (hkey : schema.KeyUnchecked row) (hc : s.catalog.Rerooted s'.catalog.toCatalog)
    (hrep : s'.Represents (stmt.effect s C schema row key)) : s'.Consistent (stmt.effect s C schema row key) := by
  have hassigned := TableSchema.KeyUnchecked.assigned (s.opened_table schema) ((s.opened_table schema).next_key s.trees) hkey
  refine h.written hacc.table hc hrep (fun e he => ?_) ?_
  · rcases he with rfl | he
    · exact ⟨hacc.new.fits.typed, fun c hmem => hassigned.1 c hmem (hacc.checks c hmem)⟩
    · exact h.admits _ _ hacc.table e he
  · have hset : insert (key, (s.opened_table schema).assigned ((s.opened_table schema).next_key s.trees) row) (C stmt.table_name) =
        (C stmt.table_name \ ∅) ∪ {(key, (s.opened_table schema).assigned ((s.opened_table schema).next_key s.trees) row)} := by
      rw [Set.sdiff_empty, Set.union_singleton]
    rw [hset]
    refine foreign_keys_written hs hacc.table h.foreign_keys (fun e he fk hfk hix => ?_) fun _ _ _ _ _ _ hold => hold.elim
    obtain rfl := Set.mem_singleton_iff.1 he
    have hvalues := hassigned.2 fk hfk
    rw [hvalues] at hix
    obtain ⟨parent, hparent, href⟩ := hacc.references fk hfk hix
    refine ⟨parent, ?_, ?_⟩
    · by_cases hname : fk.ref_table = stmt.table_name
      · rw [hname] at hparent ⊢
        rw [Function.update_self, Set.sdiff_empty]
        exact .inl hparent
      · rw [Function.update_of_ne hname]
        exact hparent
    · unfold ForeignKeyConstraint.References
      rw [hvalues]
      exact href

end GSDBEngine
