import GSDBEngine.Proof.InsertRow
import GSDBEngine.Proof.Cascade
import GSDBEngine.Proof.Matched

/-!
# UPDATE

Every row that WHERE finds gets its new values, after all of them were tested: CHECK and FOREIGN KEY of what the rows become, and the
rows that reference what they were. The batch is written then, all of it or nothing.

* `find_matched_spec`: the rows that are found.
* `execute_update_spec`: **an UPDATE replaces exactly the rows that it found, or changes nothing.**
* `execute_update_consistent`: what references a row that was replaced still does.
-/

namespace GSDBEngine

open Eff

variable {Q : Type} {s s' : ExecState} {C : AllContents} {name : Bytes} {schema : TableSchema} {row : Row} {nv : NewValues}

/-! ### Rows that are found -/

/-- The database is only read. -/
theorem find_matched_state {sub : Subqueries Q} {tbl : Table} {where_ : Option (WhereExpr Q)} {obj : TableState} {E : DmlErr → ExecState → Prop}
    {P : List ScanResult → ExecState → Prop} (hP : ∀ matched, find_matched sub tbl where_ obj s = .ok matched s → P matched s)
    (hE : ∀ e, find_matched sub tbl where_ obj s = .error e s → E e s) : wp (find_matched sub tbl where_ obj) E P s := by
  have hstate : wp (find_matched sub tbl where_ obj) (fun _ s' => s' = s) (fun _ s' => s' = s) s := by
    unfold find_matched
    rw [wp_bind, wp_get, wp_bind]
    exact wp_liftE (fun _ _ => wp_liftE (fun _ _ => rfl) fun _ _ => rfl) fun _ _ => rfl
  refine wp_mono (wp_and (wp_self _ s) hstate) (fun matched s' h => ?_) fun e s' h => ?_
  · obtain ⟨hrun, rfl⟩ := h
    exact hP matched hrun
  · obtain ⟨hrun, rfl⟩ := h
    exact hE e hrun

/-- **The rows that are found are rows of the table, each once.** -/
theorem find_matched_spec {sub : Subqueries Q} {tbl : Table} {where_ : Option (WhereExpr Q)} {obj : TableState} {S : Contents}
    {matched : List ScanResult} (htbl : ∃ l, Table.construct tbl.schema l = .ok tbl) (hrep : tbl.Represents obj.trees S) (hS : tbl.Sound S)
    (h : find_matched sub tbl where_ obj s = .ok matched s) :
    (∀ m ∈ matched, m.entry ∈ S) ∧ (matched.map ScanResult.entry).Nodup := by
  have hscan : wp (find_matched sub tbl where_ obj) (fun _ _ => True)
      (fun matched _ => ∃ pred, scan_with_index tbl where_ pred [] none obj = .ok matched) s := by
    unfold find_matched
    rw [wp_bind, wp_get, wp_bind]
    refine wp_liftE (fun cache _ => wp_liftE (fun matched hok => ?_) fun _ _ => trivial) fun _ _ => trivial
    refine ⟨build_predicate tbl where_ [] (sub.runner s) cache, ?_⟩
    cases hs : scan_with_index tbl where_ (build_predicate tbl where_ [] (sub.runner s) cache) [] none obj with
    | error e =>
      rw [hs] at hok
      cases hok
    | ok found =>
      rw [hs] at hok
      rw [Except.ok.inj hok]
  obtain ⟨pred, hok⟩ := wp_ok hscan h
  obtain ⟨hsound, hnodup⟩ := scan_with_index_entries htbl hrep hS hok
  exact ⟨fun m hm => (hsound m hm).1, hnodup⟩

/-! ### Tests -/

/-- The row with the new values has as many. -/
theorem apply_values_length : ∀ {nv : NewValues} {row row' : Row}, apply_values row nv = .ok row' → row'.length = row.length
  | [], _, _, h => by
    obtain rfl := Except.ok.inj h
    rfl
  | (i, v) :: nv, row, row', h => by
    unfold apply_values at h
    split at h
    · rw [apply_values_length h, List.length_set]
    · cases h

/-- A column of the row behind is the old one, or a new value for it. -/
theorem apply_values_get : ∀ {nv : NewValues} {row row' : Row}, apply_values row nv = .ok row' → ∀ i,
    row'[i]? = row[i]? ∨ ∃ v, (i, v) ∈ nv ∧ row'[i]? = some v
  | [], _, _, h, i => by
    obtain rfl := Except.ok.inj h
    exact .inl rfl
  | (j, v) :: nv, row, row', h, i => by
    unfold apply_values at h
    split at h
    · rename_i hj
      rcases apply_values_get h i with hget | ⟨w, hw, hget⟩
      · by_cases hij : j = i
        · subst hij
          rw [List.getElem?_set_self hj] at hget
          exact .inr ⟨v, List.mem_cons_self, hget⟩
        · rw [List.getElem?_set_ne hij] at hget
          exact .inl hget
      · exact .inr ⟨w, List.mem_cons_of_mem _ hw, hget⟩
    · cases h

/-- What a matched row is to become is tested: it meets what is asked. -/
def Becoming (nv : NewValues) (P : Row → Prop) (m : ScanResult) : Prop := ∃ row, apply_values m.row nv = .ok row ∧ P row

theorem check_matched_spec (hown : ∀ c ∈ schema.checks, schema.OwnCheck c) {matched : List ScanResult}
    (hlen : ∀ m ∈ matched, m.row.length = schema.columns.length) :
    wp (check_matched schema nv matched) (fun _ s' => s' = s ∧ ∃ m ∈ matched, ¬ Becoming nv (fun row => ∀ c ∈ schema.checks, c.Met row) m)
      (fun _ s' => s' = s ∧ ∀ m ∈ matched, Becoming nv (fun row => ∀ c ∈ schema.checks, c.Met row) m) s := by
  refine wp_forM_test fun m hm => ?_
  rw [wp_bind]
  unfold candidate
  cases happly : apply_values m.row nv with
  | error e =>
    refine ⟨rfl, fun ⟨row, hrow, _⟩ => ?_⟩
    rw [happly] at hrow
    cases hrow
  | ok row =>
    have hcheck := check_row_iff hown ((apply_values_length happly).trans (hlen m hm))
    show wp (liftE (check_row schema row)) _ _ s
    refine wp_liftE (fun _ hok => ⟨rfl, row, happly, hcheck.1 hok⟩) fun e herr => ⟨rfl, fun ⟨row', hrow', hmet⟩ => ?_⟩
    obtain rfl := Except.ok.inj (happly.symm.trans hrow')
    rw [hcheck.2 hmet] at herr
    cases herr

/-- The columns that are set are columns of the row. -/
theorem touches_ok {inbound_fks : List (Bytes × ForeignKeyConstraint)} : ∀ {nv : NewValues}, (∀ p ∈ nv, p.1 < row.length) →
    ∃ touched, touches_referenced_column inbound_fks row nv = .ok touched ∧
      (touched = false → ∀ p ∈ nv, ∀ old, row[p.1]? = some old → old.eq p.2 = true ∨
        ∀ ref ∈ inbound_fks, UInt32.ofNat p.1 ∉ ref.2.ref_column_indices)
  | [], _ => ⟨false, rfl, fun _ _ hmem => absurd hmem List.not_mem_nil⟩
  | (i, v) :: nv, h => by
    obtain ⟨more, hmore, hrest⟩ := @touches_ok inbound_fks nv fun p hp => h p (List.mem_cons_of_mem _ hp)
    obtain ⟨old, hi⟩ : ∃ old, row[i]? = some old := ⟨_, List.getElem?_eq_getElem (h (i, v) List.mem_cons_self)⟩
    have hget : Row.get row i = .ok old := by
      unfold Row.get
      rw [hi]
      rfl
    unfold touches_referenced_column
    rw [hget, hmore]
    refine ⟨_, rfl, fun hfalse p hp old' hold' => ?_⟩
    obtain ⟨htouched, hmore'⟩ := Bool.or_eq_false_iff.1 hfalse
    rcases List.mem_cons.1 hp with rfl | hp
    · obtain rfl := Option.some.inj (hi.symm.trans hold')
      rcases Bool.and_eq_false_iff.1 htouched with heq | hany
      · exact .inl (by simpa using heq)
      · refine .inr fun ref href hmem => ?_
        have hcontains := List.any_eq_false.1 hany ref href
        exact hcontains (List.contains_iff_mem.2 hmem)
    · exact hrest hmore' p hp old' hold'

/-- Nothing references a row. -/
def Unreferenced (C : AllContents) (refs : List (Bytes × ForeignKeyConstraint)) (row : Row) : Prop :=
  ∀ ref ∈ refs, ∀ child ∈ C ref.1, ¬ ref.2.References child.2 row

/-- **The rows that reference a row are asked for**: there are none, or the statement ends. -/
theorem referencing_test (h : s.Ready C) (hl : s.catalog.tables.lookup name = some schema) {e : Key × Row} (he : e ∈ C name) :
    wp (on_exec (find_referencing_children e.2 (s.catalog.get_foreign_keys_referencing name)) >>= fun children =>
        match children with
        | [] => pure ()
        | child :: _ => throw (DmlErr.referenced child.child_table))
      (fun _ s' => s' = s ∧ ¬ Unreferenced C (s.catalog.get_foreign_keys_referencing name) e.2)
      (fun _ s' => s' = s ∧ Unreferenced C (s.catalog.get_foreign_keys_referencing name) e.2) s := by
  have hn := h.sane.wellformed.named
  obtain ⟨-, -, hsound⟩ := h.represents.binds hn hl
  have hrefs : ∀ ref ∈ s.catalog.get_foreign_keys_referencing name,
      ∃ schema, s.catalog.tables.lookup ref.1 = some schema ∧ ref.2 ∈ schema.foreign_keys := by
    rintro ⟨child_table, fk⟩ hmem
    exact ((Catalog.mem_get_foreign_keys_referencing hn).1 hmem).1
  rw [wp_bind, wp_on_exec]
  refine wp_mono (wp_and (find_referencing_children_ready h hl he) (wp_and
    (find_referencing_children_spec h.represents h.sane.ordered (hsound.fits e he).numbers _ hrefs)
    (find_referencing_children_from _ s))) (fun children s₁ h₁ => ?_) fun _ _ hf => hf.1.elim
  obtain ⟨rfl, ⟨-, hof, hall⟩, -, hnonempty⟩ := h₁
  cases children with
  | nil =>
    refine ⟨rfl, fun ref href child hchild hr => ?_⟩
    obtain ⟨_, hmem, -⟩ := hall ref href child hchild hr
    exact absurd hmem List.not_mem_nil
  | cons child children =>
    refine ⟨rfl, fun hno => ?_⟩
    obtain ⟨href, hkeys⟩ := hof child List.mem_cons_self
    obtain ⟨pk, hpk⟩ := List.exists_mem_of_ne_nil _ (hnonempty child List.mem_cons_self).2
    obtain ⟨e', he', hr, -⟩ := hkeys pk hpk
    exact hno _ href e' he' hr

/-- What is asked of the references of a matched row: its new ones lead to rows, and the ones to it are kept. -/
structure Rereferenced (s : ExecState) (C : AllContents) (schema : TableSchema) (nv : NewValues) (m : ScanResult) : Prop where
  becoming : Becoming nv (schema.ReferencesMet C) m
  kept : touches_referenced_column (s.catalog.get_foreign_keys_referencing schema.name) m.row nv = .ok true →
    Unreferenced C (s.catalog.get_foreign_keys_referencing schema.name) m.row

theorem check_matched_references_spec (h : s.Ready C) (hl : s.catalog.tables.lookup name = some schema) {matched : List ScanResult}
    (hmatched : ∀ m ∈ matched, m.entry ∈ C name) (hnum : ∀ p ∈ nv, p.2.isNaN = false) (hlt : ∀ p ∈ nv, p.1 < schema.columns.length) :
    wp (check_matched_references schema nv (s.catalog.get_foreign_keys_referencing schema.name) matched)
      (fun _ s' => s' = s ∧ ∃ m ∈ matched, ¬ Rereferenced s C schema nv m) (fun _ s' => s' = s ∧ ∀ m ∈ matched, Rereferenced s C schema nv m) s := by
  have hn := h.sane.wellformed.named
  have hname : schema.name = name := hn.tables _ _ hl
  obtain ⟨-, -, hsound⟩ := h.represents.binds hn hl
  refine wp_forM_test fun m hm => ?_
  have hfits := hsound.fits _ (hmatched m hm)
  have hlen : m.row.length = schema.columns.length := hfits.takes.1
  rw [wp_bind]
  unfold candidate
  cases happly : apply_values m.row nv with
  | error e =>
    refine ⟨rfl, fun hp => ?_⟩
    obtain ⟨row, hrow, -⟩ := hp.becoming
    rw [happly] at hrow
    cases hrow
  | ok row =>
    have hrow : ∀ v ∈ row, v.isNaN = false := Table.apply_values_numbers happly hfits.numbers hnum
    have hbecoming : Becoming nv (schema.ReferencesMet C) m ↔ schema.ReferencesMet C row := by
      refine ⟨fun ⟨row', hrow', hmet⟩ => ?_, fun hmet => ⟨row, happly, hmet⟩⟩
      rwa [Except.ok.inj (happly.symm.trans hrow')]
    obtain ⟨touched, htouched, -⟩ := @touches_ok m.row (s.catalog.get_foreign_keys_referencing schema.name) nv fun p hp => by
      rw [hlen]
      exact hlt p hp
    refine wp_liftE (fun row' hrow' => ?_) fun e he => (by cases he)
    obtain rfl := Except.ok.inj hrow'
    -- what is done behind the test of the new references
    have htail : schema.ReferencesMet C row → wp (if s.catalog.get_foreign_keys_referencing schema.name ≠ [] then
        liftE ((touches_referenced_column (s.catalog.get_foreign_keys_referencing schema.name) m.row nv).mapError DmlErr.exec) >>= fun touched =>
          if touched = true then on_exec (find_referencing_children m.row (s.catalog.get_foreign_keys_referencing schema.name)) >>= fun children =>
            match children with
            | [] => pure ()
            | child :: _ => throw (DmlErr.referenced child.child_table)
          else pure ()
        else pure ()) (fun _ s' => s' = s ∧ ¬ Rereferenced s C schema nv m) (fun _ s' => s' = s ∧ Rereferenced s C schema nv m) s := by
      intro hmet
      by_cases hinbound : s.catalog.get_foreign_keys_referencing schema.name = []
      · rw [if_neg (not_not.2 hinbound)]
        refine ⟨rfl, hbecoming.2 hmet, fun _ ref href => ?_⟩
        rw [hinbound] at href
        exact absurd href List.not_mem_nil
      · rw [if_pos hinbound, htouched]
        show wp (if touched = true then _ else pure ()) _ _ s
        cases touched with
        | false =>
          refine ⟨rfl, hbecoming.2 hmet, fun htrue => ?_⟩
          rw [htouched] at htrue
          cases Except.ok.inj htrue
        | true =>
          have htest := referencing_test h hl (hmatched m hm)
          rw [← hname] at htest
          exact wp_mono htest (fun _ s₂ h₂ => ⟨h₂.1, hbecoming.2 hmet, fun _ => h₂.2⟩) fun _ s₂ h₂ => ⟨h₂.1, fun hp => h₂.2 (hp.kept htouched)⟩
    dsimp only
    by_cases hfks : schema.foreign_keys = []
    · rw [if_neg (not_not.2 hfks)]
      refine htail fun fk hfk => ?_
      rw [hfks] at hfk
      exact absurd hfk List.not_mem_nil
    · rw [if_pos hfks, wp_bind]
      refine wp_mono (check_foreign_keys_on_write_spec h hl ((apply_values_length happly).trans hlen) hrow) (fun _ s₁ h₁ => ?_)
        fun _ s₁ h₁ => ⟨h₁.1, fun hp => h₁.2 (hbecoming.1 hp.becoming)⟩
      obtain ⟨rfl, hmet⟩ := h₁
      exact htail hmet

/-! ### UPDATE -/

theorem set_values_lt : ∀ {assignments : List SetClause} {nv : NewValues}, set_values schema assignments = .ok nv → ∀ p ∈ nv, p.1 < schema.columns.length
  | [], _, h => by
    obtain rfl := Except.ok.inj h
    exact fun _ hp => absurd hp List.not_mem_nil
  | asgn :: assignments, _, h => by
    unfold set_values at h
    cases hidx : schema.column_index asgn.column_name with
    | none =>
      rw [hidx] at h
      cases h
    | some idx =>
      rw [hidx] at h
      obtain ⟨rest, hrest, h⟩ := except_bind_ok h
      obtain rfl := Except.ok.inj h
      intro p hp
      rcases List.mem_cons.1 hp with rfl | hp
      · exact column_index_lt hidx
      · exact set_values_lt hrest p hp

/-- A later call of an object that is open. -/
theorem wp_resume {α : Type} {obj : TableState} {m : TableM α} {E : DdlErr → ExecState → Prop} {P : α × TableState → ExecState → Prop}
    (h : wp m (fun e o => E (.table e) { s with trees := o.trees }) (fun a o => P (a, o) { s with trees := o.trees }) { obj with trees := s.trees }) :
    wp (resume obj m) E P s := by
  unfold wp at h ⊢
  unfold resume
  cases hm : m { obj with trees := s.trees } with
  | ok a o =>
    rw [hm] at h
    exact h
  | error e o =>
    rw [hm] at h
    exact h

/-- The rows that the statement finds. -/
def UpdateStmt.find (sub : Subqueries Q) (stmt : UpdateStmt Q) (schema : TableSchema) : DmlM (List ScanResult) := do
  let s ← get
  let (_, tbl, obj) ← on_exec (on_table schema (s.indexes_of schema) fun _ => pure ())
  find_matched sub tbl stmt.where_ obj

theorem UpdateStmt.find_eq (sub : Subqueries Q) (stmt : UpdateStmt Q) {u : Unit} {tbl : Table} {obj : TableState}
    (h : on_exec (on_table schema (s.indexes_of schema) fun _ => pure ()) s = .ok (u, tbl, obj) s) :
    stmt.find sub schema s = find_matched sub tbl stmt.where_ obj s := by
  unfold UpdateStmt.find
  exact bind_of_ok h

/-- When an UPDATE is accepted, with the rows that it finds. -/
structure UpdateStmt.Accepted (sub : Subqueries Q) (stmt : UpdateStmt Q) (s : ExecState) (C : AllContents) (schema : TableSchema)
    (nv : NewValues) (matched : List ScanResult) : Prop where
  table : s.catalog.tables.lookup stmt.table_name = some schema
  values : set_values schema stmt.assignments = .ok nv
  found : stmt.find sub schema s = .ok matched s
  checks : ∀ m ∈ matched, Becoming nv (fun row => ∀ c ∈ schema.checks, c.Met row) m
  references : ∀ m ∈ matched, Rereferenced s C schema nv m
  stored : (TableCall.update_matched matched nv).Accepted (s.opened_table schema) ((s.opened_table schema).next_key s.trees) (C stmt.table_name)

/-- The rows behind an UPDATE. -/
def UpdateStmt.effect (stmt : UpdateStmt Q) (s : ExecState) (C : AllContents) (schema : TableSchema) (nv : NewValues)
    (matched : List ScanResult) : AllContents :=
  Function.update C stmt.table_name
    ((TableCall.update_matched matched nv).effect (s.opened_table schema) ((s.opened_table schema).next_key s.trees) (C stmt.table_name))

/-- The new values are numbers and short strings. -/
def UpdateStmt.Plain (stmt : UpdateStmt Q) (s : ExecState) : Prop :=
  ∀ schema, s.catalog.tables.lookup stmt.table_name = some schema → ∀ nv, set_values schema stmt.assignments = .ok nv →
    (∀ p ∈ nv, p.2.isNaN = false) ∧ Row.Short (nv.map Prod.snd)

/-- A table is opened for reading. -/
theorem on_table_opened (h : s.Ready C) (hl : s.catalog.tables.lookup name = some schema) {E : DdlErr → ExecState → Prop} :
    wp (on_table schema (s.indexes_of schema) fun _ => pure ()) E
      (fun w s' => s' = s ∧ w.2.1 = s.opened_table schema ∧ w.2.2.trees = s.trees ∧ (s.opened_table schema).Synced w.2.2) s := by
  refine on_table_ready h hl (fun _ hidx => hidx) fun st htrees hsync _ => ?_
  have hsync' : (s.opened_table schema).Synced st := hsync
  exact ⟨by rw [htrees], rfl, htrees, hsync'⟩

/-- The batch is written, and the roots go to the catalog. -/
theorem update_write (h : s.Ready C) (hl : s.catalog.tables.lookup name = some schema) {obj : TableState} (htrees : obj.trees = s.trees)
    (hsync : (s.opened_table schema).Synced obj) {matched : List ScanResult} (hmem : ∀ m ∈ matched, m.entry ∈ C name)
    (hnum : ∀ p ∈ nv, p.2.isNaN = false) (hshort : Row.Short (nv.map Prod.snd)) (next : UInt32) :
    wp (on_exec (resume obj ((s.opened_table schema).update_matched matched nv)) >>= fun w =>
        on_exec (persist_roots schema (s.opened_table schema) w.2) >>= fun _ => pure w.1)
      (fun _ s' => s' = s ∧ ¬ (TableCall.update_matched matched nv).Accepted (s.opened_table schema) next (C name))
      (fun _ s' => (TableCall.update_matched matched nv).Accepted (s.opened_table schema) next (C name) ∧
        s.catalog.Rerooted s'.catalog.toCatalog ∧
        s'.Ready (Function.update C name ((TableCall.update_matched matched nv).effect (s.opened_table schema) next (C name)))) s := by
  have hn := h.sane.wellformed.named
  obtain ⟨-, hrep, hsound⟩ := h.represents.binds hn hl
  rw [wp_bind, wp_on_exec]
  refine wp_resume ?_
  have hobj : ({ obj with trees := s.trees } : TableState) = obj := by rw [← htrees]
  rw [hobj]
  have hrep' : (s.opened_table schema).Represents obj.trees (C name) := htrees ▸ hrep
  have hcall : wp ((s.opened_table schema).update_matched matched nv >>= fun _ => pure ())
      (fun _ obj' => obj' = obj ∧ ¬ (TableCall.update_matched matched nv).Accepted (s.opened_table schema) next (C name) ∧ _)
      (fun _ obj' => (TableCall.update_matched matched nv).Accepted (s.opened_table schema) next (C name) ∧
        (s.opened_table schema).Storing obj' ((TableCall.update_matched matched nv).effect (s.opened_table schema) next (C name)) ∧ _) obj :=
    Table.update_matched_call (opened_table_bound hn) (Table.storing_of_represents hrep' hsound) hnum hmem
  rw [wp_bind] at hcall
  refine wp_mono (wp_and hcall (Table.keeps_update_matched (Table.synced_stable _) matched nv obj hsync)) (fun count obj' h' => ?_) fun err obj' h' => ?_
  · obtain ⟨⟨hacc, hstoring, hframe⟩, hsync'⟩ := h'
    have hread := (Table.effect_read_back hrep' hstoring).2 (Table.written_short (Table.contents_short hrep') hmem hshort)
    dsimp only
    rw [wp_bind, wp_on_exec]
    refine wp_mono (persist_ready h hl (fun t ht => (hframe t ht).trans (by rw [htrees])) hread hstoring.sound hsync') (fun _ s₂ h₂ => ?_)
      fun _ _ hf => hf.elim
    exact ⟨hacc, h₂.2.1, h₂.1⟩
  · obtain ⟨⟨rfl, hno, -⟩, -⟩ := h'
    exact ⟨by rw [htrees], hno⟩

/-- The statement is refused, and nothing is changed. -/
def UpdateStmt.Refused (sub : Subqueries Q) (stmt : UpdateStmt Q) (s : ExecState) (C : AllContents) (s' : ExecState) : Prop :=
  s' = s ∧ ∀ schema nv matched, ¬ stmt.Accepted sub s C schema nv matched

/-- The statement is accepted, and the rows are replaced. -/
def UpdateStmt.Done (sub : Subqueries Q) (stmt : UpdateStmt Q) (s : ExecState) (C : AllContents) (s' : ExecState) : Prop :=
  ∃ schema nv matched, stmt.Accepted sub s C schema nv matched ∧ (∀ m ∈ matched, m.entry ∈ C stmt.table_name) ∧
    s.catalog.Rerooted s'.catalog.toCatalog ∧ s'.Ready (stmt.effect s C schema nv matched)

/-- **An UPDATE replaces exactly the rows that it found, or changes nothing.** -/
theorem execute_update_spec (h : s.Ready C) {sub : Subqueries Q} {stmt : UpdateStmt Q} (hplain : stmt.Plain s) :
    wp (execute_update sub stmt) (fun _ s' => stmt.Refused sub s C s') (fun _ s' => stmt.Done sub s C s') s := by
  have hn := h.sane.wellformed.named
  unfold execute_update
  rw [wp_bind, wp_on_exec]
  refine wp_mono (get_table_spec s stmt.table_name) (fun schema s₀ h₀ => ?_) fun err s₀ h₀ => ⟨h₀.1, fun schema nv matched hacc => ?_⟩
  swap
  · have htable := hacc.table
    rw [h₀.2] at htable
    cases htable
  obtain ⟨hs₀, hl⟩ := h₀
  subst hs₀
  have htable : ∀ {schema' nv' matched'}, stmt.Accepted sub s₀ C schema' nv' matched' → schema' = schema := fun hacc =>
    Option.some.inj (hacc.table.symm.trans hl)
  rw [wp_bind]
  refine wp_liftE (fun nv hnv => ?_) fun err herr => ⟨rfl, fun schema' nv' matched' hacc => ?_⟩
  swap
  · have hvalues := hacc.values
    rw [htable hacc, herr] at hvalues
    cases hvalues
  have hsame : ∀ {schema' nv' matched'}, stmt.Accepted sub s₀ C schema' nv' matched' → nv' = nv := by
    intro schema' nv' matched' hacc
    have hvalues := hacc.values
    rw [htable hacc, hnv] at hvalues
    exact (Except.ok.inj hvalues).symm
  obtain ⟨hnum, hshort⟩ := hplain schema hl nv hnv
  have hlt := set_values_lt hnv
  obtain ⟨hbinds, hrep, hsound⟩ := h.represents.binds hn hl
  have hconstruct : ∃ l, Table.construct schema l = .ok (s₀.opened_table schema) := ⟨_, Table.construct_eq_ok.2 ⟨hbinds, rfl⟩⟩
  -- the rows that are found
  rw [wp_bind, wp_get, wp_bind]
  have hopened : wp (on_exec (on_table schema (s₀.indexes_of schema) fun _ => pure ())) (fun _ _ => False)
      (fun w s' => s' = s₀ ∧ w.2.1 = s₀.opened_table schema ∧ w.2.2.trees = s₀.trees ∧ (s₀.opened_table schema).Synced w.2.2) s₀ :=
    (wp_on_exec _).2 (on_table_opened h hl)
  refine wp_mono (wp_and (wp_self _ s₀) hopened) (fun w s₁ h₁ => ?_) fun _ _ hf => hf.2.elim
  obtain ⟨hrun, hs₁, htbl, htrees, hsync⟩ := h₁
  subst hs₁
  obtain ⟨u, tbl, obj⟩ := w
  obtain rfl : tbl = s₁.opened_table schema := htbl
  have htrees : obj.trees = s₁.trees := htrees
  have hfind := UpdateStmt.find_eq sub stmt hrun
  dsimp only
  rw [wp_bind]
  refine find_matched_state (fun matched hmatched => ?_) fun err herr => ⟨rfl, fun schema' nv' matched' hacc => ?_⟩
  swap
  · have hfound := hacc.found
    rw [htable hacc, hfind, herr] at hfound
    cases hfound
  have hone : ∀ {schema' nv' matched'}, stmt.Accepted sub s₁ C schema' nv' matched' → matched' = matched := by
    intro schema' nv' matched' hacc
    have hfound := hacc.found
    rw [htable hacc, hfind, hmatched] at hfound
    injection hfound with hm
    exact hm.symm
  have hrep' : (s₁.opened_table schema).Represents obj.trees (C stmt.table_name) := htrees ▸ hrep
  obtain ⟨hmem, hnodup⟩ := find_matched_spec hconstruct hrep' hsound hmatched
  -- a row that can be replaced has a row that it becomes
  have hbecomes : (TableCall.update_matched matched nv).Accepted (s₁.opened_table schema) ((s₁.opened_table schema).next_key s₁.trees)
      (C stmt.table_name) → ∀ m ∈ matched, ∃ row, apply_values m.row nv = .ok row := by
    intro hacc m hm
    obtain ⟨new, hnew, -⟩ := hacc.2.each m.entry ⟨m, hm, rfl⟩
    exact ⟨new.2, hnew.applied⟩
  have hwrite : (∀ m ∈ matched, ∀ row, apply_values m.row nv = .ok row → ∀ c ∈ schema.checks, c.Met row) →
      (∀ m ∈ matched, (∀ row, apply_values m.row nv = .ok row → schema.ReferencesMet C row) ∧
        (touches_referenced_column (s₁.catalog.get_foreign_keys_referencing schema.name) m.row nv = .ok true →
          Unreferenced C (s₁.catalog.get_foreign_keys_referencing schema.name) m.row)) →
      wp (on_exec (resume obj ((s₁.opened_table schema).update_matched matched nv)) >>= fun w =>
          on_exec (persist_roots schema (s₁.opened_table schema) w.2) >>= fun _ => pure w.1)
        (fun _ s' => stmt.Refused sub s₁ C s') (fun _ s' => stmt.Done sub s₁ C s') s₁ := by
    intro hchecks hreferences
    refine wp_mono (update_write h hl htrees hsync hmem hnum hshort ((s₁.opened_table schema).next_key s₁.trees)) (fun _ s₂ h₂ => ?_)
      fun _ s₂ h₂ => ?_
    · obtain ⟨hacc, hre, hready⟩ := h₂
      refine ⟨schema, nv, matched, ⟨hl, hnv, hfind.trans hmatched, fun m hm => ?_, fun m hm => ⟨?_, (hreferences m hm).2⟩, hacc⟩, hmem, hre, hready⟩
      · obtain ⟨row, hrow⟩ := hbecomes hacc m hm
        exact ⟨row, hrow, hchecks m hm row hrow⟩
      · obtain ⟨row, hrow⟩ := hbecomes hacc m hm
        exact ⟨row, hrow, (hreferences m hm).1 row hrow⟩
    · refine ⟨h₂.1, fun schema' nv' matched' hacc => h₂.2 ?_⟩
      have hstored := hacc.stored
      rwa [htable hacc, hsame hacc, hone hacc] at hstored
  -- what the rows become is tested against FOREIGN KEY
  have hreferences : (∀ m ∈ matched, ∀ row, apply_values m.row nv = .ok row → ∀ c ∈ schema.checks, c.Met row) →
      wp (if schema.foreign_keys ≠ [] ∨ s₁.catalog.get_foreign_keys_referencing schema.name ≠ [] then
          check_matched_references schema nv (s₁.catalog.get_foreign_keys_referencing schema.name) matched >>= fun _ =>
            on_exec (resume obj ((s₁.opened_table schema).update_matched matched nv)) >>= fun w =>
              on_exec (persist_roots schema (s₁.opened_table schema) w.2) >>= fun _ => pure w.1
        else on_exec (resume obj ((s₁.opened_table schema).update_matched matched nv)) >>= fun w =>
              on_exec (persist_roots schema (s₁.opened_table schema) w.2) >>= fun _ => pure w.1)
        (fun _ s' => stmt.Refused sub s₁ C s') (fun _ s' => stmt.Done sub s₁ C s') s₁ := by
    intro hchecks
    by_cases hnone : schema.foreign_keys ≠ [] ∨ s₁.catalog.get_foreign_keys_referencing schema.name ≠ []
    · rw [if_pos hnone, wp_bind]
      refine wp_mono (check_matched_references_spec h hl hmem hnum hlt) (fun _ s₂ h₂ => ?_) fun _ s₂ h₂ => ?_
      · obtain ⟨rfl, hall⟩ := h₂
        refine hwrite hchecks fun m hm => ⟨fun row hrow => ?_, (hall m hm).kept⟩
        obtain ⟨row', hrow', hmet⟩ := (hall m hm).becoming
        rwa [Except.ok.inj (hrow.symm.trans hrow')]
      · obtain ⟨hs₂, m, hm, hno⟩ := h₂
        refine ⟨hs₂, fun schema' nv' matched' hacc => hno ?_⟩
        have href := hacc.references
        rw [htable hacc, hsame hacc, hone hacc] at href
        exact href m hm
    · rw [if_neg hnone]
      obtain ⟨hfks, hinbound⟩ := not_or.1 hnone
      refine hwrite hchecks fun m hm => ⟨fun row hrow fk hfk => ?_, fun _ ref href => ?_⟩
      · rw [not_not.1 hfks] at hfk
        exact absurd hfk List.not_mem_nil
      · rw [not_not.1 hinbound] at href
        exact absurd href List.not_mem_nil
  -- and against CHECK, before
  by_cases hchecks : schema.checks = []
  · rw [if_neg (not_not.2 hchecks), wp_bind, wp_get]
    refine hreferences fun m hm row hrow c hc => ?_
    rw [hchecks] at hc
    exact absurd hc List.not_mem_nil
  · rw [if_pos hchecks, wp_bind]
    refine wp_mono (check_matched_spec (h.sane.checks _ schema hl) fun m hm => (hsound.fits _ (hmem m hm)).takes.1) (fun _ s₂ h₂ => ?_)
      fun _ s₂ h₂ => ?_
    · obtain ⟨rfl, hall⟩ := h₂
      rw [wp_bind, wp_get]
      refine hreferences fun m hm row hrow => ?_
      obtain ⟨row', hrow', hmet⟩ := hall m hm
      rwa [Except.ok.inj (hrow.symm.trans hrow')]
    · obtain ⟨hs₂, m, hm, hno⟩ := h₂
      refine ⟨hs₂, fun schema' nv' matched' hacc => hno ?_⟩
      have hmet := hacc.checks
      rw [htable hacc, hsame hacc, hone hacc] at hmet
      exact hmet m hm

/-! ### What the rows are -/

/-- **A referenced value stays**, by the order of keys: it is not set, or to one that compares equal. -/
theorem untouched_values {refs : List (Bytes × ForeignKeyConstraint)} {ref : Bytes × ForeignKeyConstraint} {row' : Row}
    (happly : apply_values row nv = .ok row') (hrow : ∀ v ∈ row, v.isNaN = false) (hnum : ∀ p ∈ nv, p.2.isNaN = false)
    (htouched : touches_referenced_column refs row nv ≠ .ok true) (href : ref ∈ refs) (hcols : ∀ i ∈ ref.2.ref_column_indices, i.toNat < row.length) :
    (row'.values ref.2.ref_column_indices).rank = (row.values ref.2.ref_column_indices).rank := by
  obtain ⟨touched, hok, hfalse⟩ := @touches_ok row refs nv (Table.apply_values_lt happly)
  have hsame : ∀ i ∈ ref.2.ref_column_indices, ((row'[i.toNat]?).getD .null).rank = ((row[i.toNat]?).getD .null).rank := by
    intro i hi
    rcases apply_values_get happly i.toNat with hget | ⟨v, hv, hget⟩
    · rw [hget]
    · obtain ⟨old, hold⟩ : ∃ old, row[i.toNat]? = some old := ⟨_, List.getElem?_eq_getElem (hcols i hi)⟩
      have heq : old.eq v = true := by
        cases touched with
        | true => exact absurd hok htouched
        | false =>
          rcases hfalse rfl (i.toNat, v) hv _ hold with heq | hnot
          · exact heq
          · have hno := hnot ref href
            rw [UInt32.ofNat_toNat] at hno
            exact absurd hi hno
      rw [hget, hold]
      exact ((Value.eq_iff _ _ (hrow _ (List.mem_of_getElem? hold)) (hnum _ hv)).1 heq).symm
  unfold Row.values Key.rank
  rw [List.map_map, List.map_map]
  exact List.map_congr_left hsame

/-- **Every row is what its schema declares**, and what references a row that was replaced still does. -/
theorem execute_update_consistent (h : s.Consistent C) (hready : s.Ready C) {sub : Subqueries Q} {stmt : UpdateStmt Q} {matched : List ScanResult}
    (hacc : stmt.Accepted sub s C schema nv matched) (hnum : ∀ p ∈ nv, p.2.isNaN = false) (hmem : ∀ m ∈ matched, m.entry ∈ C stmt.table_name)
    (hc : s.catalog.Rerooted s'.catalog.toCatalog) (hrep : s'.Represents (stmt.effect s C schema nv matched)) :
    s'.Consistent (stmt.effect s C schema nv matched) := by
  have hn := hready.sane.wellformed.named
  have hname : schema.name = stmt.table_name := hn.tables _ _ hacc.table
  obtain ⟨-, -, hsound⟩ := hready.represents.binds hn hacc.table
  obtain ⟨-, heach, -⟩ := hacc.stored
  refine h.written hacc.table hc hrep (fun e he => ?_) (foreign_keys_written hready.sane.supported hacc.table h.foreign_keys (fun e he => ?_) ?_)
  · rcases he with ⟨he, -⟩ | he
    · exact h.admits _ _ hacc.table e he
    · -- what a row has become
      obtain ⟨old, hold, hbecomes⟩ := he
      obtain ⟨new, hnew, hn'⟩ := heach old hold
      obtain rfl := hbecomes.eq hnew
      refine ⟨hn'.fits.typed, ?_⟩
      obtain ⟨m, hm, rfl⟩ := hold
      obtain ⟨row, hrow, hmet⟩ := hacc.checks m hm
      rw [show e.2 = row from Except.ok.inj (hbecomes.applied.symm.trans hrow)]
      exact hmet
  · -- no table references itself
    obtain ⟨old, ⟨m, hm, rfl⟩, hbecomes⟩ := he
    obtain ⟨row, hrow, hmet⟩ := (hacc.references m hm).becoming
    rw [show e.2 = row from Except.ok.inj (hbecomes.applied.symm.trans hrow)]
    intro fk hfk hix
    have hother : fk.ref_table ≠ stmt.table_name := fun heq =>
      hready.sane.ordered.acyclic stmt.table_name (.single ⟨schema, hacc.table, fk, hfk, heq⟩)
    rw [Function.update_of_ne hother]
    exact hmet fk hfk hix
  · intro child fk hasks hchild hto old hold href
    obtain ⟨new, hnew, -⟩ := heach old hold
    refine ⟨new, ⟨old, hold, hnew⟩, href.1, ?_⟩
    obtain ⟨m, hm, rfl⟩ := hold
    have hinbound : (child.1, fk) ∈ s.catalog.get_foreign_keys_referencing stmt.table_name :=
      (Catalog.mem_get_foreign_keys_referencing hn).2 ⟨hasks.1, hto⟩
    have hkept := (hacc.references m hm).kept
    rw [hname] at hkept
    have htouched : touches_referenced_column (s.catalog.get_foreign_keys_referencing stmt.table_name) m.row nv ≠ .ok true := fun htrue =>
      hkept htrue _ hinbound child.2 hchild href
    rw [untouched_values hnew.applied (hsound.fits _ (hmem m hm)).numbers hnum htouched hinbound fun i hi =>
      ref_columns_lt hready hacc.table hinbound i hi _ (hmem m hm)]
    exact href.2

end GSDBEngine
