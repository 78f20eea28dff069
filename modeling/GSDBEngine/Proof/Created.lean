import GSDBEngine.Proof.DeleteRows

/-!
# Tables and indexes come and go

CREATE TABLE leaves a table without rows, CREATE INDEX the image of the rows that there are. What is dropped is not looked at again, and its
trees are no one's.

* `ExecState.Held`: what holds of the database while a statement is on its way.
* `index_added`, `table_added`, `dropped`: what comes and what goes. `backfilled`: **an index is filled row by row.**
* `execute_create_table_held`, `execute_create_index_held`, `execute_drop_table_held`, `execute_drop_index_held`.
* `DdlStmt.execute_consistent`: **what a statement of DDL leaves is ready and consistent.**
-/

namespace GSDBEngine

open Eff

variable {Q : Type} {s s' : ExecState} {C : AllContents} {name : Bytes} {schema : TableSchema} {index : IndexSchema}

/-- With fewer indexes. -/
theorem Table.Sound.fewer {l l' : List IndexBinding} {S : Contents} (h : Table.Sound ⟨schema, l⟩ S) (hsub : ∀ idx ∈ l', idx ∈ l) :
    Table.Sound ⟨schema, l'⟩ S where
  fits e he := by
    obtain ⟨hkey, hserial, hvalues, hnumbers⟩ := h.fits e he
    exact ⟨hkey, hserial, fun idx hidx => hvalues idx (hsub idx hidx), hnumbers⟩
  one := h.one
  unique idx hidx := h.unique idx (hsub idx hidx)

/-! ### On the way -/

/-- **The trees hold the rows, and the catalog has their roots**, also where a foreign key has not got its index yet. -/
structure ExecState.Held (s : ExecState) (C : AllContents) : Prop where
  wellformed : s.catalog.Wellformed
  owned : ∀ name idx, s.catalog.indexes.lookup name = some idx → (s.catalog.tables.lookup idx.table_name).isSome = true
  checks : ∀ name schema, s.catalog.tables.lookup name = some schema → ∀ c ∈ schema.checks, schema.OwnCheck c
  current : s.catalog.Current
  recorded : ∀ t, s.Recorded t
  table : ∀ name schema, s.catalog.tables.lookup name = some schema →
    ∃ tbl, Table.construct schema (s.catalog.get_indexes_for_table name) = .ok tbl ∧ tbl.Represents s.trees (C name) ∧ tbl.Sound (C name)

theorem ExecState.Ready.held (h : s.Ready C) : s.Held C :=
  ⟨h.sane.wellformed, h.sane.owned, h.sane.checks, h.current, h.recorded, h.represents.table⟩

namespace ExecState.Held

/-- A root that is recorded is one of a tree. -/
theorem opened (h : s.Held C) : s.catalog.Opened where
  tables name schema hl := by
    rw [h.recorded (.table name) schema hl]
    exact (s.trees.tree (.table name)).root.2
  indexes name idx hl := by
    rw [h.recorded (.index name) idx hl]
    exact (s.trees.tree (.index name)).root.2

/-- **Ready again**, with the indexes of the foreign keys. -/
theorem ready (h : s.Held C) (hs : s.catalog.Supported) (ho : s.catalog.Ordered) : s.Ready C where
  sane := ⟨h.wellformed, hs, ho, h.owned, h.checks⟩
  current := h.current
  recorded := h.recorded
  represents := by
    refine ⟨h.opened, h.table, fun name schema hl fk hfk => ?_⟩
    obtain ⟨-, idx, hidx, htable, hat⟩ := hs name schema hl fk hfk
    have hname : schema.name = name := h.wellformed.named.tables _ _ hl
    exact ⟨idx, hidx, htable.trans hname, hat⟩

/-- The table with its indexes. -/
theorem binds (h : s.Held C) (hl : s.catalog.tables.lookup name = some schema) :
    (∀ idx ∈ s.catalog.get_indexes_for_table name, Table.Binds schema idx) ∧
      Table.Represents ⟨schema, (s.catalog.get_indexes_for_table name).map (IndexSchema.binding schema)⟩ s.trees (C name) ∧
      Table.Sound ⟨schema, (s.catalog.get_indexes_for_table name).map (IndexSchema.binding schema)⟩ (C name) := by
  obtain ⟨tbl, hbind, hrep, hsound⟩ := h.table name schema hl
  obtain ⟨hall, rfl⟩ := Table.construct_eq_ok.1 hbind
  exact ⟨hall, hrep, hsound⟩

/-- **An index that has the image of the rows is an index of the table.** -/
theorem index_added (h : s.Held C) (hw : s'.catalog.Wellformed) (hcur : s'.catalog.Current) (htables : s'.catalog.tables = s.catalog.tables)
    (hfree : s.catalog.indexes.lookup index.name = none) (hnew : s'.catalog.indexes.lookup index.name = some index)
    (hold : ∀ n, n ≠ index.name → s'.catalog.indexes.lookup n = s.catalog.indexes.lookup n)
    (hroot : index.root_page = (s'.trees.tree (.index index.name)).root.1)
    (hframe : ∀ t, t ≠ .index index.name → s'.trees.tree t = s.trees.tree t)
    (hl : s.catalog.tables.lookup index.table_name = some schema) (hbinds : Table.Binds schema index)
    (himage : (index.binding schema).Image (C index.table_name) (s'.trees.tree (.index index.name)).entries)
    (hvalues : ∀ e ∈ C index.table_name, (index.binding schema).extract_indexed_value e.2 = .ok ((index.binding schema).value e.2))
    (hunique : ∀ e ∈ C index.table_name, ∀ e' ∈ C index.table_name, (index.binding schema).Conflict e.2 e'.2 → e = e') : s'.Held C := by
  have hn := h.wellformed.named
  -- an index is the new one, or was there
  have hcases : ∀ {n idx}, s'.catalog.indexes.lookup n = some idx →
      (n = index.name ∧ idx = index) ∨ (n ≠ index.name ∧ s.catalog.indexes.lookup n = some idx) := by
    intro n idx hi
    by_cases hname : n = index.name
    · subst hname
      exact .inl ⟨rfl, Option.some.inj (hi.symm.trans hnew)⟩
    · exact .inr ⟨hname, (hold n hname).symm.trans hi⟩
  refine ⟨hw, fun n idx hi => ?_, fun n t ht => ?_, hcur, fun t => ?_, fun n t ht => ?_⟩
  · rw [htables]
    rcases hcases hi with ⟨rfl, rfl⟩ | ⟨-, hi⟩
    · rw [hl]
      rfl
    · exact h.owned n idx hi
  · rw [htables] at ht
    exact h.checks n t ht
  · cases t with
    | table n =>
      intro t ht
      rw [htables] at ht
      rw [hframe _ fun heq => by cases heq]
      exact h.recorded (.table n) t ht
    | index n =>
      intro idx hi
      rcases hcases hi with ⟨rfl, rfl⟩ | ⟨hname, hi⟩
      · exact hroot
      · rw [hframe _ fun heq => hname (TreeName.index.inj heq)]
        exact h.recorded (.index n) idx hi
  · rw [htables] at ht
    have htname : t.name = n := hn.tables _ _ ht
    obtain ⟨hall, hrep, hsound⟩ := h.binds ht
    -- an index of the table is the new one, or was one
    have hmem : ∀ {idx}, idx ∈ s'.catalog.get_indexes_for_table n →
        (idx = index ∧ t = schema ∧ n = index.table_name) ∨ idx ∈ s.catalog.get_indexes_for_table n ∧ idx.name ≠ index.name := by
      intro idx hidx
      obtain ⟨hi, htable⟩ := (Catalog.mem_get_indexes_for_table hw.named).1 hidx
      rcases hcases hi with ⟨-, rfl⟩ | ⟨hname, hi⟩
      · refine .inl ⟨rfl, ?_, htable.symm⟩
        rw [htable] at hl
        exact Option.some.inj (ht.symm.trans hl)
      · exact .inr ⟨(Catalog.mem_get_indexes_for_table hn).2 ⟨hi, htable⟩, hname⟩
    refine ⟨_, Table.construct_eq_ok.2 ⟨fun idx hidx => ?_, rfl⟩, ⟨fun k bytes hk => ?_, fun e he => ?_, fun idx hidx => ?_⟩,
      ⟨fun e he => ?_, hsound.one, fun idx hidx => ?_⟩⟩
    · rcases hmem hidx with ⟨rfl, rfl, -⟩ | ⟨hidx, -⟩
      · exact hbinds
      · exact hall idx hidx
    · change (k, bytes) ∈ (s'.trees.tree (.table t.name)).entries.entries at hk
      rw [hframe _ fun heq => by cases heq] at hk
      exact hrep.rows k bytes hk
    · show ∃ bytes, (e.1, bytes) ∈ (s'.trees.tree (.table t.name)).entries.entries ∧ _
      rw [hframe _ fun heq => by cases heq]
      exact hrep.stored e he
    · obtain ⟨index', hindex', rfl⟩ := List.mem_map.1 hidx
      rcases hmem hindex' with ⟨rfl, rfl, rfl⟩ | ⟨hindex', hname⟩
      · exact himage
      · show (index'.binding t).Image (C n) (s'.trees.tree (.index index'.name)).entries
        rw [hframe _ fun heq => hname (TreeName.index.inj heq)]
        exact hrep.indexes _ (List.mem_map_of_mem hindex')
    · obtain ⟨hkey, hserial, hvals, hnumbers⟩ := hsound.fits e he
      refine ⟨hkey, hserial, fun idx hidx => ?_, hnumbers⟩
      obtain ⟨index', hindex', rfl⟩ := List.mem_map.1 hidx
      rcases hmem hindex' with ⟨rfl, rfl, rfl⟩ | ⟨hindex', -⟩
      · exact hvalues e he
      · exact hvals _ (List.mem_map_of_mem hindex')
    · obtain ⟨index', hindex', rfl⟩ := List.mem_map.1 hidx
      rcases hmem hindex' with ⟨rfl, rfl, rfl⟩ | ⟨hindex', -⟩
      · exact hunique
      · exact hsound.unique _ (List.mem_map_of_mem hindex')

/-- **A table without rows comes.** -/
theorem table_added (h : s.Held C) (hw : s'.catalog.Wellformed) (hcur : s'.catalog.Current) (hindexes : s'.catalog.indexes = s.catalog.indexes)
    (hfree : s.catalog.tables.lookup schema.name = none) (hnew : s'.catalog.tables.lookup schema.name = some schema)
    (hold : ∀ n, n ≠ schema.name → s'.catalog.tables.lookup n = s.catalog.tables.lookup n) (hchecks : ∀ c ∈ schema.checks, schema.OwnCheck c)
    (hroot : schema.root_page = (s'.trees.tree (.table schema.name)).root.1)
    (hframe : ∀ t, t ≠ .table schema.name → s'.trees.tree t = s.trees.tree t)
    (hempty : (s'.trees.tree (.table schema.name)).entries.entries = []) : s'.Held (Function.update C schema.name ∅) := by
  have hn := h.wellformed.named
  have hcases : ∀ {n t}, s'.catalog.tables.lookup n = some t →
      (n = schema.name ∧ t = schema) ∨ (n ≠ schema.name ∧ s.catalog.tables.lookup n = some t) := by
    intro n t ht
    by_cases hname : n = schema.name
    · subst hname
      exact .inl ⟨rfl, Option.some.inj (ht.symm.trans hnew)⟩
    · exact .inr ⟨hname, (hold n hname).symm.trans ht⟩
  -- an index is of a table that was there
  have hother : ∀ {n idx}, s.catalog.indexes.lookup n = some idx → idx.table_name ≠ schema.name := by
    intro n idx hi heq
    have howned := h.owned n idx hi
    rw [heq, hfree] at howned
    cases howned
  refine ⟨hw, fun n idx hi => ?_, fun n t ht => ?_, hcur, fun t => ?_, fun n t ht => ?_⟩
  · rw [hindexes] at hi
    rw [hold _ (hother hi)]
    exact h.owned n idx hi
  · rcases hcases ht with ⟨-, rfl⟩ | ⟨-, ht⟩
    · exact hchecks
    · exact h.checks n t ht
  · cases t with
    | table n =>
      intro t ht
      rcases hcases ht with ⟨rfl, rfl⟩ | ⟨hname, ht⟩
      · exact hroot
      · rw [hframe _ fun heq => hname (TreeName.table.inj heq)]
        exact h.recorded (.table n) t ht
    | index n =>
      intro idx hi
      rw [hindexes] at hi
      rw [hframe _ fun heq => by cases heq]
      exact h.recorded (.index n) idx hi
  · have hlist : ∀ {idx}, idx ∈ s'.catalog.get_indexes_for_table n → idx ∈ s.catalog.get_indexes_for_table n ∧ n ≠ schema.name := by
      intro idx hidx
      obtain ⟨hi, htable⟩ := (Catalog.mem_get_indexes_for_table hw.named).1 hidx
      rw [hindexes] at hi
      exact ⟨(Catalog.mem_get_indexes_for_table hn).2 ⟨hi, htable⟩, htable ▸ hother hi⟩
    rcases hcases ht with ⟨rfl, rfl⟩ | ⟨hname, ht⟩
    · rw [Function.update_self]
      refine ⟨_, Table.construct_eq_ok.2 ⟨fun idx hidx => absurd rfl (hlist hidx).2, rfl⟩, ⟨fun k bytes hk => ?_, fun e he => he.elim, fun idx hidx => ?_⟩,
        ⟨fun e he => he.elim, fun e he => he.elim, fun idx _ e he => he.elim⟩⟩
      · change (k, bytes) ∈ (s'.trees.tree (.table t.name)).entries.entries at hk
        rw [hempty] at hk
        exact absurd hk List.not_mem_nil
      · obtain ⟨index', hindex', rfl⟩ := List.mem_map.1 hidx
        exact absurd rfl (hlist hindex').2
    · have htname : t.name = n := hn.tables _ _ ht
      obtain ⟨hall, hrep, hsound⟩ := h.binds ht
      rw [Function.update_of_ne hname]
      have hsub : ∀ idx ∈ (s'.catalog.get_indexes_for_table n).map (IndexSchema.binding t),
          idx ∈ (s.catalog.get_indexes_for_table n).map (IndexSchema.binding t) := by
        intro idx hidx
        obtain ⟨index', hindex', rfl⟩ := List.mem_map.1 hidx
        exact List.mem_map_of_mem (hlist hindex').1
      refine ⟨_, Table.construct_eq_ok.2 ⟨fun idx hidx => hall idx (hlist hidx).1, rfl⟩, ⟨fun k bytes hk => ?_, fun e he => ?_, fun idx hidx => ?_⟩,
        hsound.fewer hsub⟩
      · change (k, bytes) ∈ (s'.trees.tree (.table t.name)).entries.entries at hk
        rw [htname, hframe _ fun heq => hname (TreeName.table.inj heq), ← htname] at hk
        exact hrep.rows k bytes hk
      · show ∃ bytes, (e.1, bytes) ∈ (s'.trees.tree (.table t.name)).entries.entries ∧ _
        rw [htname, hframe _ fun heq => hname (TreeName.table.inj heq), ← htname]
        exact hrep.stored e he
      · rw [hframe _ fun heq => by cases heq]
        exact hrep.indexes idx (hsub idx hidx)

/-- **What is dropped is not looked at again**: there are fewer tables, and fewer indexes. -/
theorem dropped (h : s.Held C) (hw : s'.catalog.Wellformed) (hcur : s'.catalog.Current) (htrees : s'.trees = s.trees)
    (htables : ∀ n t, s'.catalog.tables.lookup n = some t → s.catalog.tables.lookup n = some t)
    (hindexes : ∀ n idx, s'.catalog.indexes.lookup n = some idx → s.catalog.indexes.lookup n = some idx)
    (howned : ∀ n idx, s'.catalog.indexes.lookup n = some idx → (s'.catalog.tables.lookup idx.table_name).isSome = true) : s'.Held C := by
  refine ⟨hw, howned, fun n t ht => h.checks n t (htables n t ht), hcur, fun t => ?_, fun n t ht => ?_⟩
  · cases t with
    | table n =>
      intro t ht
      rw [htrees]
      exact h.recorded (.table n) t (htables n t ht)
    | index n =>
      intro idx hi
      rw [htrees]
      exact h.recorded (.index n) idx (hindexes n idx hi)
  · obtain ⟨hall, hrep, hsound⟩ := h.binds (htables n t ht)
    have hlist : ∀ idx ∈ s'.catalog.get_indexes_for_table n, idx ∈ s.catalog.get_indexes_for_table n := by
      intro idx hidx
      obtain ⟨hi, htable⟩ := (Catalog.mem_get_indexes_for_table hw.named).1 hidx
      exact (Catalog.mem_get_indexes_for_table h.wellformed.named).2 ⟨hindexes _ _ hi, htable⟩
    have hsub : ∀ idx ∈ (s'.catalog.get_indexes_for_table n).map (IndexSchema.binding t),
        idx ∈ (s.catalog.get_indexes_for_table n).map (IndexSchema.binding t) := by
      intro idx hidx
      obtain ⟨index', hindex', rfl⟩ := List.mem_map.1 hidx
      exact List.mem_map_of_mem (hlist index' hindex')
    rw [htrees]
    exact ⟨_, Table.construct_eq_ok.2 ⟨fun idx hidx => hall idx (hlist idx hidx), rfl⟩, ⟨hrep.rows, hrep.stored, fun idx hidx => hrep.indexes idx (hsub idx hidx)⟩,
      hsound.fewer hsub⟩

end ExecState.Held

/-! ### An index is filled -/

/-- The values of columns that a row has are extracted. -/
theorem extract_indexed_value_ok {idx : IndexBinding} {row : Row} (h : ∀ i ∈ idx.column_indices, i < row.length) :
    idx.extract_indexed_value row = .ok (idx.value row) := by
  have hgo : ∀ cols : List ℕ, (∀ i ∈ cols, i < row.length) →
      IndexBinding.extract_indexed_value.go row cols = .ok (cols.map fun i => (row[i]?).getD .null) := by
    intro cols
    induction cols with
    | nil => exact fun _ => rfl
    | cons i cols ih =>
      intro hcols
      unfold IndexBinding.extract_indexed_value.go
      rw [List.getElem?_eq_getElem (hcols i List.mem_cons_self)]
      dsimp only
      rw [ih fun j hj => hcols j (List.mem_cons_of_mem _ hj)]
      rw [List.map_cons, List.getElem?_eq_getElem (hcols i List.mem_cons_self)]
      rfl
  exact hgo _ h

/-- Columns that are found are columns of the table. -/
theorem binding_lt (hbinds : Table.Binds schema index) : ∀ i ∈ (index.binding schema).column_indices, i < schema.columns.length := by
  intro i hi
  obtain ⟨col_name, hmem, rfl⟩ := List.mem_map.1 hi
  obtain ⟨i, hi⟩ := Option.isSome_iff_exists.1 (hbinds.2 col_name hmem)
  rw [hi]
  exact column_index_lt hi

/-- No two rows have one value of the index, if it is unique. -/
def IndexBinding.Apart (idx : IndexBinding) (S : Contents) : Prop := ∀ e ∈ S, ∀ e' ∈ S, idx.Conflict e.2 e'.2 → e = e'

/-- **One row more**: it comes in, or the call throws. -/
theorem insert_entry_backfill {tbl : Table} {idx : IndexBinding} {P : Contents} {st : TableState} (hb : tbl.Bound) (hi : idx ∈ tbl.indexes)
    (hP : ∀ e ∈ P, tbl.Fits e) {new : Key × Row} (hnew : tbl.Fits new) (hkey : ∀ e ∈ P, e.1.rank ≠ new.1.rank) (hapart : idx.Apart P)
    (himage : idx.Image P (st.trees.tree (.index idx.schema.name)).entries) (hix : is_indexable (idx.value new.2) = true) :
    wp (idx.insert_entry (idx.value new.2) new.1) (fun _ _ => True)
      (fun _ st' => idx.Image (insert new P) (st'.trees.tree (.index idx.schema.name)).entries ∧
        Frame st st' (fun t => t = .index idx.schema.name) ∧ idx.Apart (insert new P)) st := by
  by_cases hconf : ∀ e ∈ P, ¬ idx.Conflict e.2 new.2
  · refine wp_mono (insert_entry_spec hb hP hi hnew hkey hconf himage) (fun _ st' h' => ⟨h'.1, h'.2, ?_⟩) fun _ _ _ => trivial
    intro e he e' he' hc
    rcases he with rfl | he
    · rcases he' with rfl | he'
      · rfl
      · exact absurd hc.symm (hconf e' he')
    · rcases he' with rfl | he'
      · exact absurd hc (hconf e he)
      · exact hapart e he e' he' hc
  · -- the value is there under another key
    push Not at hconf
    obtain ⟨e, he, hunique, hindexable, hr⟩ := hconf
    unfold IndexBinding.insert_entry
    rw [if_pos hix, wp_bind]
    refine wp_mono (check_unique_spec hP himage (value_length ..) hnew.value_hasNaN hnew.key_hasNaN) (fun _ st' h' => ?_) fun _ _ _ => trivial
    exact absurd (h'.2 hunique e he hindexable hr) (hkey e he)

/-- **Row by row**, from the rows that are in. -/
theorem backfilled {idx : IndexBinding} {S : Contents} (hb : Table.Bound ⟨schema, [idx]⟩) (hfits : ∀ e ∈ S, Table.Fits ⟨schema, [idx]⟩ e)
    (hone : ∀ e ∈ S, ∀ e' ∈ S, e.1.rank = e'.1.rank → e = e') : ∀ (rows : List ScanResult) {P : Contents} {st : TableState},
    P ⊆ S → (∀ r ∈ rows, r.entry ∈ S ∧ r.entry ∉ P) → (rows.map ScanResult.entry).Nodup → idx.Apart P →
    idx.Image P (st.trees.tree (.index idx.schema.name)).entries →
    wp ((index_entries schema idx.column_indices rows).forM fun e => idx.insert_entry e.1 e.2) (fun _ _ => True)
      (fun _ st' => idx.Image (P ∪ { e | ∃ r ∈ rows, e = r.entry }) (st'.trees.tree (.index idx.schema.name)).entries ∧
        Frame st st' (fun t => t = .index idx.schema.name) ∧ idx.Apart (P ∪ { e | ∃ r ∈ rows, e = r.entry })) st
  | [], P, st, _, _, _, hapart, himage => by
    have hset : P ∪ { e | ∃ r ∈ ([] : List ScanResult), e = r.entry } = P := by
      ext e
      simp
    rw [hset]
    exact ⟨himage, Frame.refl _ _, hapart⟩
  | r :: rows, P, st, hsub, hrows, hnodup, hapart, himage => by
    obtain ⟨hr, hnew⟩ := hrows r List.mem_cons_self
    have hfit := hfits _ hr
    have hset : P ∪ { e | ∃ r' ∈ r :: rows, e = r'.entry } = insert r.entry P ∪ { e | ∃ r' ∈ rows, e = r'.entry } := by
      ext e
      simp only [List.mem_cons, Set.mem_union, Set.mem_ofPred_eq, Set.mem_insert_iff, exists_eq_or_imp]
      tauto
    have hkey : ∀ e ∈ P, e.1.rank ≠ r.entry.1.rank := fun e he heq => hnew (hone e (hsub he) _ hr heq ▸ he)
    have hsub' : insert r.entry P ⊆ S := by
      rintro e (rfl | he)
      · exact hr
      · exact hsub he
    obtain ⟨hnot, hnodup'⟩ := List.nodup_cons.1 hnodup
    have hrows' : ∀ r' ∈ rows, r'.entry ∈ S ∧ r'.entry ∉ insert r.entry P := by
      intro r' hr'
      refine ⟨(hrows r' (List.mem_cons_of_mem _ hr')).1, ?_⟩
      rintro (heq | hmem)
      · exact hnot (heq ▸ List.mem_map_of_mem hr')
      · exact (hrows r' (List.mem_cons_of_mem _ hr')).2 hmem
    -- the value and the key that are put into the index
    have hvalue : (idx.column_indices.map fun i => r.row.getD i .null) = idx.value r.row :=
      List.map_congr_left fun i _ => List.getD_eq_getElem?_getD ..
    have hpk : (schema.primary_key_indices.map fun i => r.row.getD i.toNat .null) = r.primary_key := by
      have hkeys : r.primary_key = Row.values r.row schema.primary_key_indices := hfit.key_values
      rw [hkeys]
      exact List.map_congr_left fun i _ => List.getD_eq_getElem?_getD ..
    have hany : (idx.value r.row).any Value.isNull = !is_indexable (idx.value r.row) := by
      unfold is_indexable
      rw [List.not_all_eq_any_not]
      simp only [Bool.not_not]
    have hentries : index_entries schema idx.column_indices (r :: rows) =
        if is_indexable (idx.value r.row) = true then (idx.value r.row, r.primary_key) :: index_entries schema idx.column_indices rows
        else index_entries schema idx.column_indices rows := by
      unfold index_entries
      rw [List.filterMap_cons]
      dsimp only
      rw [hvalue, hany, hpk]
      cases is_indexable (idx.value r.row) <;> rfl
    rw [hset, hentries]
    by_cases hix : is_indexable (idx.value r.row) = true
    · rw [if_pos hix]
      show wp (idx.insert_entry (idx.value r.row) r.primary_key >>= fun _ => (index_entries schema idx.column_indices rows).forM _) _ _ st
      rw [wp_bind]
      refine wp_post (insert_entry_backfill hb (List.mem_singleton_self idx) (fun e he => hfits e (hsub he)) hfit hkey hapart himage hix) fun _ st₁ h₁ => ?_
      obtain ⟨himage₁, hframe₁, hapart₁⟩ := h₁
      refine wp_post (backfilled hb hfits hone rows hsub' hrows' hnodup' hapart₁ himage₁) fun _ st₂ h₂ => ?_
      exact ⟨h₂.1, hframe₁.trans h₂.2.1, h₂.2.2⟩
    · rw [if_neg hix]
      -- a row that is not in the index
      have himage' : idx.Image (insert r.entry P) (st.trees.tree (.index idx.schema.name)).entries := by
        intro key v
        rw [himage]
        refine and_congr_right fun _ => ⟨fun ⟨e, he, h⟩ => ⟨e, .inr he, h⟩, ?_⟩
        rintro ⟨e, rfl | he, h⟩
        · exact absurd h.1 hix
        · exact ⟨e, he, h⟩
      have hapart' : idx.Apart (insert r.entry P) := by
        rintro e (rfl | he) e' (rfl | he') hc
        · rfl
        · exact absurd hc.2.1 hix
        · exact absurd hc.symm.2.1 hix
        · exact hapart e he e' he' hc
      exact backfilled hb hfits hone rows hsub' hrows' hnodup' hapart' himage'

/-! ### CREATE INDEX -/

theorem wp_new_tree_run {t : TreeName} {E : DdlErr → ExecState → Prop} {P : UInt32 → ExecState → Prop}
    (h : P (s.trees.roots 0).1 { s with trees := s.trees.write t SortedMap.empty }) : wp (new_tree t) E P s := h

/-- What the two calls of the catalog leave of the other indexes. -/
theorem Catalog.created_index_only {cat c₁ c₂ : Catalog} {root : UInt32} (h₁ : (CatalogCall.create_index index).edited cat = some c₁)
    (h₂ : (CatalogCall.update_index_root index.name root).edited c₁ = some c₂) :
    c₂.tables = cat.tables ∧ cat.indexes.lookup index.name = none ∧ ∀ n, n ≠ index.name → c₂.indexes.lookup n = cat.indexes.lookup n := by
  obtain ⟨hfree, h₁⟩ := Option.ite_none_left_eq_some.1 h₁
  obtain rfl := Option.some.inj h₁
  obtain ⟨idx, -, rfl⟩ := Option.map_eq_some_iff.1 h₂
  refine ⟨rfl, by simpa using hfree, fun n hne => ?_⟩
  show ((cat.indexes.insert _ _).insert _ _).lookup n = _
  rw [AList.lookup_insert_ne hne, AList.lookup_insert_ne hne]

/-- **An index of a table without rows.** -/
theorem create_index_tree_held (h : s.Held C) (hname : index.name ≠ []) (hl : s.catalog.tables.lookup index.table_name = some schema)
    (hcols : ∀ col_name ∈ index.column_names, (schema.column_index col_name).isSome = true) (hempty : C index.table_name = ∅) :
    wp (create_index_tree index) (fun _ _ => True) (fun _ s' => s'.Held C ∧ s'.catalog.tables = s.catalog.tables) s := by
  unfold create_index_tree
  rw [wp_bind]
  refine wp_on_catalog_current (.create_index index) (fun m₁ he₁ _ _ => ?_) (fun _ _ => trivial) fun _ _ _ _ => trivial
  rw [wp_bind]
  refine wp_new_tree_run ?_
  refine wp_on_catalog_current (.update_index_root index.name _) (fun m₂ he₂ hcur hle => ?_) (fun _ _ => trivial) fun _ _ _ _ => trivial
  obtain ⟨hw, -, hnew⟩ := Catalog.created_index h.wellformed hname he₁ he₂ hle
  obtain ⟨htables, hfree, hold⟩ := Catalog.created_index_only he₁ he₂
  have htable : schema.name = index.table_name := h.wellformed.named.tables _ _ hl
  have htree : (s.trees.write (.index index.name) SortedMap.empty).tree (.index index.name) = ⟨SortedMap.empty, s.trees.roots 0⟩ :=
    Function.update_self ..
  have hnone : ∀ e, e ∉ C index.table_name := by
    rw [hempty]
    exact fun _ he => he.elim
  refine ⟨@ExecState.Held.index_added s _ C schema { index with root_page := (s.trees.roots 0).1 } h hw hcur htables hfree hnew hold ?_
    (fun t ht => ?_) hl ⟨htable.symm, hcols⟩ (fun key v => ?_) (fun e he => absurd he (hnone e)) fun e he => absurd he (hnone e), htables⟩
  · show _ = ((s.trees.write (.index index.name) SortedMap.empty).tree (.index index.name)).root.1
    rw [htree]
  · exact Function.update_of_ne ht _ _
  · show (key, v) ∈ ((s.trees.write (.index index.name) SortedMap.empty).tree (.index index.name)).entries.entries ↔ _
    rw [htree]
    exact ⟨fun hmem => absurd hmem List.not_mem_nil, fun ⟨_, e, he, _⟩ => absurd he (hnone e)⟩

/-- The root that an index has in its object is that of its tree. -/
theorem backfill_root {idx : IndexBinding} {st : TableState} (entries : List (Key × Key))
    (h : st.index_root_page idx.schema.name = (st.trees.tree (.index idx.schema.name)).root.1) :
    wp (entries.forM fun e => idx.insert_entry e.1 e.2)
      (fun _ _ => True) (fun _ st' => st'.index_root_page idx.schema.name = (st'.trees.tree (.index idx.schema.name)).root.1) st := by
  let I : TableState → Prop := fun st => st.index_root_page idx.schema.name = (st.trees.tree (.index idx.schema.name)).root.1
  have hwrite : ∀ (st : TableState) (m : KeyMap), I (st.write (.index idx.schema.name) m) := by
    intro st m
    show Function.update st.index_root_page _ _ _ = (Function.update st.trees.tree _ _ _).root.1
    rw [Function.update_self, Function.update_self]
  have hkeep : ∀ e : Key × Key, Upholds I (idx.insert_entry e.1 e.2) := by
    intro e
    refine Upholds.ite (fun _ => ?_) fun _ => Upholds.pure _
    refine Upholds.bind (Table.keeps_check_unique idx _ _) fun _ => Upholds.bind (Table.keeps_make_entry_key idx _ _) fun key => ?_
    intro st hst
    unfold btree_insert
    rw [wp_bind, wp_get]
    split
    · exact hst
    · exact hwrite st _
  have hall : Upholds I (entries.forM fun e => idx.insert_entry e.1 e.2) := Upholds.forM fun e _ => hkeep e
  exact wp_mono (hall st h) (fun _ _ hst => hst) fun _ _ _ => trivial

/-- An index over the rows of its table, with an entry for each. -/
theorem create_filled_index_held (h : s.Held C) (hname : index.name ≠ []) (hl : s.catalog.tables.lookup index.table_name = some schema)
    (hbinds : Table.Binds schema index) {rows : List ScanResult} (hmem : ∀ r, r ∈ rows ↔ r.entry ∈ C index.table_name)
    (hnodup : (rows.map ScanResult.entry).Nodup) :
    wp (do
      on_catalog (CatalogManager.create_index index)
      let root ← new_tree (.index index.name)
      let (_, obj) ← on_trees 0 (fun _ => root)
        ((index_entries schema (index.binding schema).column_indices rows).forM fun e => (index.binding schema).insert_entry e.1 e.2)
      on_catalog (CatalogManager.update_index_root index.name (obj.index_root_page index.name)))
      (fun _ _ => True) (fun _ s' => s'.Held C ∧ s'.catalog.tables = s.catalog.tables) s := by
  obtain ⟨-, -, hsound⟩ := h.binds hl
  have hvalues : ∀ e ∈ C index.table_name, (index.binding schema).extract_indexed_value e.2 = .ok ((index.binding schema).value e.2) := by
    intro e he
    refine extract_indexed_value_ok fun i hi => ?_
    have hlen : schema.columns.length = e.2.length := (hsound.fits e he).typed.length_eq
    rw [← hlen]
    exact binding_lt hbinds i hi
  have hfits : ∀ e ∈ C index.table_name, Table.Fits ⟨schema, [index.binding schema]⟩ e := by
    intro e he
    obtain ⟨hkey, hserial, -, hnumbers⟩ := hsound.fits e he
    refine ⟨hkey, hserial, fun idx hidx => ?_, hnumbers⟩
    rw [List.mem_singleton.1 hidx]
    exact hvalues e he
  have hbound : Table.Bound ⟨schema, [index.binding schema]⟩ := by
    refine ⟨List.nodup_singleton _, fun idx hidx => ?_, fun idx hidx => ?_⟩
    · rw [List.mem_singleton.1 hidx]
      rfl
    · rw [List.mem_singleton.1 hidx]
      exact List.length_map ..
  rw [wp_bind]
  refine wp_on_catalog_current (.create_index index) (fun m₁ he₁ _ _ => ?_) (fun _ _ => trivial) fun _ _ _ _ => trivial
  rw [wp_bind]
  refine wp_new_tree_run ?_
  rw [wp_bind]
  refine wp_on_trees_run ?_
  -- the tree of the index is empty, and its root is the one of the object
  have htree : (s.trees.write (.index index.name) SortedMap.empty).tree (.index index.name) = ⟨SortedMap.empty, s.trees.roots 0⟩ :=
    Function.update_self ..
  let st : TableState := ⟨s.trees.write (.index index.name) SortedMap.empty, 0, fun _ => (s.trees.roots 0).1, 1⟩
  have himage : (index.binding schema).Image ∅ (st.trees.tree (.index index.name)).entries := by
    intro key v
    show (key, v) ∈ ((s.trees.write (.index index.name) SortedMap.empty).tree (.index index.name)).entries.entries ↔ _
    rw [htree]
    exact ⟨fun hin => absurd hin List.not_mem_nil, fun ⟨_, e, he, _⟩ => he.elim⟩
  have hroot : st.index_root_page index.name = (st.trees.tree (.index index.name)).root.1 := by
    show _ = ((s.trees.write (.index index.name) SortedMap.empty).tree (.index index.name)).root.1
    rw [htree]
  have hfilled := backfilled hbound hfits hsound.one rows (Set.empty_subset _) (fun r hr => ⟨(hmem r).1 hr, fun he => he.elim⟩) hnodup
    (fun e he => he.elim) himage
  have hall : (∅ : Contents) ∪ { e | ∃ r ∈ rows, e = r.entry } = C index.table_name := by
    rw [Set.empty_union]
    ext e
    refine ⟨fun ⟨r, hr, heq⟩ => heq ▸ (hmem r).1 hr, fun he => ?_⟩
    exact ⟨⟨e.1, e.2⟩, (hmem ⟨e.1, e.2⟩).2 he, rfl⟩
  rw [hall] at hfilled
  refine wp_mono (wp_and hfilled (backfill_root _ hroot)) (fun _ obj hobj => ?_) fun _ _ _ => trivial
  obtain ⟨⟨himage', hframe, hapart⟩, hroot'⟩ := hobj
  refine wp_on_catalog_current (.update_index_root index.name _) (fun m₂ he₂ hcur hle => ?_) (fun _ _ => trivial) fun _ _ _ _ => trivial
  obtain ⟨hw, -, hnew⟩ := Catalog.created_index h.wellformed hname he₁ he₂ hle
  obtain ⟨htables, hfree, hold⟩ := Catalog.created_index_only he₁ he₂
  refine ⟨@ExecState.Held.index_added s _ C schema { index with root_page := obj.index_root_page index.name } h hw hcur htables hfree hnew hold
    hroot' (fun t ht => ?_) hl hbinds himage' hvalues hapart, htables⟩
  exact (hframe t ht).trans (Function.update_of_ne ht _ _)

/-- **CREATE INDEX puts every row into the index**, or it does not succeed. -/
theorem execute_create_index_held (h : s.Held C) (stmt : CreateIndexStmt) :
    wp (execute_create_index stmt) (fun _ _ => True) (fun _ s' => s'.Held C ∧ s'.catalog.tables = s.catalog.tables) s := by
  unfold execute_create_index
  rw [wp_bind, wp_get]
  cases hl : s.catalog.tables.lookup stmt.table_name with
  | none => trivial
  | some schema =>
    dsimp only
    by_cases hcols : stmt.column_names = []
    · rw [if_pos hcols]
      trivial
    · rw [if_neg hcols]
      cases hfind : stmt.column_names.find? fun name => (schema.column_index name).isNone with
      | some name => trivial
      | none =>
        have hname : schema.name = stmt.table_name := h.wellformed.named.tables _ _ hl
        obtain ⟨-, hrep, hsound⟩ := h.binds hl
        have hfound : ∀ col_name ∈ stmt.column_names, (schema.column_index col_name).isSome = true := by
          intro col_name hmem
          have hno := List.find?_eq_none.1 hfind col_name hmem
          rw [Option.isNone_iff_eq_none] at hno
          exact Option.isSome_iff_ne_none.2 hno
        simp only [wp_bind]
        -- the rows that there are
        refine wp_on_trees_run ?_
        have hrows : Table.Represents ⟨schema, []⟩ s.trees (C stmt.table_name) :=
          ⟨hrep.rows, hrep.stored, fun _ hmem => absurd hmem List.not_mem_nil⟩
        let every : Predicate := fun _ => some true
        have hevery : ∀ e ∈ C stmt.table_name, (every e.2).isSome = true := fun _ _ => rfl
        obtain ⟨rows, hscan, hnodup, hmem⟩ := Table.scan_spec (s := ⟨s.trees, schema.root_page, fun _ => 0, 1⟩) hrows hevery
        have hmem : ∀ r, r ∈ rows ↔ r.entry ∈ C stmt.table_name := fun r => (hmem r).trans (and_iff_left rfl)
        have hnodup : (rows.map ScanResult.entry).Nodup := by
          have hmap : rows.map ScanResult.primary_key = (rows.map ScanResult.entry).map Prod.fst := by
            rw [List.map_map]
            rfl
          rw [hmap] at hnodup
          exact List.Nodup.of_map _ hnodup
        refine wp_mono (wp_self _ _) (fun found obj hrun => ?_) fun _ _ _ => trivial
        have heq := hscan.symm.trans hrun
        injection heq with hrows_eq hobj
        subst hrows_eq hobj
        split
        · trivial
        · exact create_filled_index_held h stmt.named hl ⟨hname.symm, hfound⟩ hmem hnodup

/-! ### What CREATE TABLE declares -/

section declared

variable {stmt : CreateTableStmt Q} {schema' : TableSchema}

/-- A column of a name is found. -/
theorem column_index_isSome {col_name : Bytes} : (schema.column_index col_name).isSome = true ↔ col_name ∈ schema.columns.map Column.name := by
  unfold TableSchema.column_index
  rw [List.findIdx?_isSome, List.any_eq_true, List.mem_map]
  refine exists_congr fun col => and_congr_right fun _ => ?_
  rw [decide_eq_true_eq]

/-- Names at columns are names of columns. -/
theorem TableSchema.At.found {names : List Bytes} {cols : List UInt32} (h : schema.At names cols) :
    ∀ col_name ∈ names, (schema.column_index col_name).isSome = true := by
  unfold TableSchema.At at h
  intro col_name hmem
  have hin : schema.column_index col_name ∈ names.map schema.column_index := List.mem_map_of_mem hmem
  rw [h] at hin
  obtain ⟨i, -, hi⟩ := List.mem_map.1 hin
  rw [← hi]
  rfl

theorem column_def_name {def_ : ColumnDef Q} {col : Column} (h : column_def_to_column def_ = .ok col) : col.name = def_.name := by
  unfold column_def_to_column at h
  obtain ⟨⟨type, max_length⟩, -, h⟩ := except_bind_ok h
  dsimp only at h
  split at h
  · cases h
  · split at h
    · cases h
    · split at h
      · obtain ⟨_, -, h⟩ := except_bind_ok h
        obtain rfl := Except.ok.inj h
        rfl
      · obtain rfl := Except.ok.inj h
        rfl

theorem add_primary_key_columns {names : List Bytes} (h : add_primary_key stmt schema names = .ok schema') :
    schema'.columns.map Column.name = schema.columns.map Column.name := by
  induction names generalizing schema with
  | nil =>
    obtain rfl := Except.ok.inj h
    rfl
  | cons col_name names ih =>
    unfold add_primary_key at h
    cases hi : schema.column_index col_name with
    | none =>
      rw [hi] at h
      cases h
    | some idx =>
      rw [hi] at h
      refine (ih h).trans ?_
      show (schema.columns.modify idx _).map Column.name = _
      refine List.ext_getElem? fun i => ?_
      rw [List.getElem?_map, List.getElem?_map, List.getElem?_modify]
      cases schema.columns[i]? with
      | none => rfl
      | some col =>
        show some (Column.name (if idx = i then _ else col)) = some col.name
        split <;> rfl

/-- The columns have the names of the statement. -/
theorem key_schema_columns (h : key_schema stmt = .ok schema) : schema.columns.map Column.name = stmt.columns.map ColumnDef.name := by
  unfold key_schema at h
  obtain ⟨columns, hcolumns, h⟩ := except_bind_ok h
  have hnames : columns.map Column.name = stmt.columns.map ColumnDef.name := by
    have hall := except_mapM_ok hcolumns
    clear hcolumns h
    generalize stmt.columns = defs at hall ⊢
    induction hall with
    | nil => rfl
    | cons hx _ ih => rw [List.map_cons, List.map_cons, ih, column_def_name hx]
  dsimp only at h
  split at h
  · cases h
  · split at h
    · split at h
      · cases h
      · obtain rfl := Except.ok.inj h
        exact hnames
    · split at h
      · cases h
      · exact (add_primary_key_columns h).trans hnames

theorem groups_to_build_sub {pk_names : List Bytes} : ∀ (built groups : List (List Bytes)),
    ∀ group ∈ unique_groups_to_build pk_names built groups, group ∈ built ∨ group ∈ groups
  | built, [], group, h => .inl h
  | built, g :: groups, group, h => by
    unfold unique_groups_to_build at h
    split at h
    · have hrest := groups_to_build_sub built groups group h
      exact hrest.imp_right (List.mem_cons_of_mem _)
    · rcases groups_to_build_sub (built ++ [g]) groups group h with hbuilt | hrest
      · rcases List.mem_append.1 hbuilt with hbuilt | hnew
        · exact .inl hbuilt
        · rw [List.mem_singleton.1 hnew]
          exact .inr List.mem_cons_self
      · exact .inr (List.mem_cons_of_mem _ hrest)

/-- The columns of a UNIQUE clause are columns of the table. -/
theorem unique_groups_found {groups : List (List Bytes)} (h : unique_groups stmt schema = .ok groups)
    (hnames : schema.columns.map Column.name = stmt.columns.map ColumnDef.name) :
    ∀ group ∈ groups, ∀ col_name ∈ group, (schema.column_index col_name).isSome = true := by
  unfold unique_groups at h
  obtain ⟨_, hchecked, h⟩ := except_bind_ok h
  obtain rfl := Except.ok.inj h
  intro group hgroup col_name hcol
  rcases groups_to_build_sub _ _ group hgroup with hnil | hgroup
  · exact absurd hnil List.not_mem_nil
  rcases List.mem_append.1 hgroup with hinline | htable
  · -- a column with UNIQUE behind it
    obtain ⟨def_, hdef, heq⟩ := List.mem_map.1 hinline
    rw [← heq, List.mem_singleton] at hcol
    rw [column_index_isSome, hnames, hcol]
    exact List.mem_map_of_mem (List.mem_of_mem_filter hdef)
  · have hok := except_forM_ok hchecked group htable
    unfold check_unique_group at hok
    dsimp only at hok
    by_cases hnil : group = []
    · rw [if_pos hnil] at hok
      cases hok
    · rw [if_neg hnil] at hok
      cases hfind : group.find? fun name => (schema.column_index name).isNone with
      | some name =>
        rw [hfind] at hok
        cases hok
      | none =>
        have hno := List.find?_eq_none.1 hfind col_name hcol
        rw [Option.isNone_iff_eq_none] at hno
        exact Option.isSome_iff_ne_none.2 hno

/-- A CHECK constraint is on a column that its name finds. -/
theorem flatten_check_own : ∀ {expr : WhereExpr Q} {checks : List CheckConstraint}, schema.columns.length < 2 ^ 32 →
    flatten_check_expr schema expr = .ok checks → ∀ c ∈ checks, schema.OwnCheck c
  | .and left right, checks, hlt, h, c, hc => by
    unfold flatten_check_expr at h
    obtain ⟨first, hfirst, h⟩ := except_bind_ok h
    obtain ⟨more, hmore, h⟩ := except_bind_ok h
    obtain rfl := Except.ok.inj h
    rcases List.mem_append.1 hc with hc | hc
    · exact flatten_check_own hlt hfirst c hc
    · exact flatten_check_own hlt hmore c hc
  | .or _ _, _, _, h, _, _ => by cases h
  | .not _, _, _, h, _, _ => by cases h
  | .leaf (.EXISTS _), _, _, h, _, _ => by cases h
  | .leaf (.COMPARE cmp), checks, hlt, h, c, hc => by
    unfold flatten_check_expr at h
    split at h
    · cases h
    · split at h
      · cases h
      · cases hi : schema.column_index cmp.column.column_name with
        | none =>
          rw [hi] at h
          cases h
        | some idx =>
          rw [hi] at h
          obtain ⟨op, -, h⟩ := except_bind_ok h
          obtain rfl := Except.ok.inj h
          obtain rfl := List.mem_singleton.1 hc
          have hidx := toNat_ofNat_of_lt (column_index_lt hi) hlt
          obtain ⟨col, hcol, hname⟩ := Option.map_eq_some_iff.1 (column_index_name hi)
          refine ⟨col, ?_, ?_⟩
          · show schema.columns[(UInt32.ofNat idx).toNat]? = some col
            rw [hidx]
            exact hcol
          · show schema.column_index col.name = some (UInt32.ofNat idx).toNat
            rw [hidx, hname]
            exact hi

/-- The constraints of a table are on its columns. -/
theorem check_constraints_own {checks : List CheckConstraint} (hlt : schema.columns.length < 2 ^ 32)
    (h : check_constraints stmt schema = .ok checks) : ∀ c ∈ checks, schema.OwnCheck c := by
  unfold check_constraints at h
  obtain ⟨all, hall, h⟩ := except_bind_ok h
  obtain rfl := Except.ok.inj h
  intro c hc
  obtain ⟨checks, hmem, hc⟩ := List.mem_flatten.1 hc
  obtain ⟨expr, -, hok⟩ := except_mapM_mem hall hmem
  cases hflat : flatten_check_expr schema expr with
  | error e =>
    rw [hflat] at hok
    cases hok
  | ok found =>
    rw [hflat] at hok
    obtain rfl := Except.ok.inj hok
    exact flatten_check_own hlt hflat c hc

/-- **What a new table declares is over its columns**: its constraints, its UNIQUE clauses and its foreign keys. -/
theorem table_schema_own {cat : Catalog} {groups : List (List Bytes)} (h : table_schema stmt cat = .ok (schema, groups))
    (hlt : schema.columns.length < 2 ^ 32) (hparents : ∀ name parent, cat.tables.lookup name = some parent → parent.columns.length < 2 ^ 32) :
    (∀ c ∈ schema.checks, schema.OwnCheck c) ∧ (∀ group ∈ groups, ∀ col_name ∈ group, (schema.column_index col_name).isSome = true) ∧
      ∀ fk ∈ schema.foreign_keys, ∀ col_name ∈ schema.names_of fk.column_indices, (schema.column_index col_name).isSome = true := by
  have hforeign := (table_schema_spec h).foreign_keys
  unfold table_schema at h
  split at h
  · cases h
  obtain ⟨key, hkey, h⟩ := except_bind_ok h
  obtain ⟨groups', hgroups, h⟩ := except_bind_ok h
  obtain ⟨fks, -, h⟩ := except_bind_ok h
  obtain ⟨checks, hchecks, h⟩ := except_bind_ok h
  obtain ⟨rfl, rfl⟩ := Prod.mk.inj (Except.ok.inj h)
  have hkeylt : key.columns.length < 2 ^ 32 := hlt
  have hown := check_constraints_own hkeylt hchecks
  have hfound := unique_groups_found hgroups (key_schema_columns hkey)
  refine ⟨hown, hfound, fun fk hfk col_name hcol => ?_⟩
  obtain ⟨clause, -, parent, hr⟩ := hforeign fk hfk
  obtain ⟨hat, -⟩ := hr.columns hlt (hparents _ _ hr.parent)
  rw [hat.names] at hcol
  exact hat.found col_name hcol

end declared

/-! ### CREATE TABLE, DROP TABLE, DROP INDEX -/

/-- Indexes of a table without rows, one after the other. -/
theorem create_index_trees_held {α : Type} {f : α → IndexSchema} : ∀ {l : List α} {s : ExecState}, s.Held C →
    s.catalog.tables.lookup name = some schema → C name = ∅ →
    (∀ x ∈ l, (f x).name ≠ [] ∧ (f x).table_name = name ∧ ∀ col_name ∈ (f x).column_names, (schema.column_index col_name).isSome = true) →
    wp (l.forM fun x => create_index_tree (f x)) (fun _ _ => True) (fun _ s' => s'.Held C ∧ s'.catalog.tables = s.catalog.tables) s
  | [], _, h, _, _, _ => ⟨h, rfl⟩
  | x :: l, s, h, hl, hempty, hall => by
    obtain ⟨hname, htable, hcols⟩ := hall x List.mem_cons_self
    show wp (create_index_tree (f x) >>= fun _ => l.forM _) _ _ s
    rw [wp_bind]
    rw [← htable] at hl hempty
    refine wp_post (create_index_tree_held h hname hl hcols hempty) fun _ s₁ h₁ => ?_
    obtain ⟨hheld, htables⟩ := h₁
    rw [htable] at hl hempty
    have hl₁ : s₁.catalog.tables.lookup name = some schema := by
      rw [htables]
      exact hl
    refine wp_post (create_index_trees_held hheld hl₁ hempty fun y hy => hall y (List.mem_cons_of_mem _ hy)) fun _ s₂ h₂ => ?_
    exact ⟨h₂.1, h₂.2.trans htables⟩

/-- **CREATE TABLE leaves a table without rows**, with an empty index for each of its UNIQUE clauses and foreign keys. -/
theorem execute_create_table_held (h : s.Held C) (stmt : CreateTableStmt Q) :
    wp (execute_create_table stmt) (fun _ _ => True) (fun _ s' => s'.Held (Function.update C stmt.table_name ∅) ∧
      s.catalog.tables.lookup stmt.table_name = none ∧ ∀ n, n ≠ stmt.table_name → s'.catalog.tables.lookup n = s.catalog.tables.lookup n) s := by
  unfold execute_create_table
  rw [wp_bind, wp_get, wp_bind]
  refine wp_liftE (fun checked hchecked => ?_) fun _ _ => trivial
  obtain ⟨schema, groups⟩ := checked
  have hc := table_schema_spec hchecked
  simp only [wp_bind]
  refine wp_on_catalog_current (.create_table schema) (fun m₁ he₁ _ _ => wp_new_tree_run ?_) (fun _ _ => trivial) fun _ _ _ _ => trivial
  rw [← hc.name]
  refine wp_on_catalog_current (.update_table_root schema.name _) (fun m₂ he₂ hcur hle => ?_) (fun _ _ => trivial) fun _ _ _ _ => trivial
  obtain ⟨hw, hindexes, hfree, hnew, hold⟩ := Catalog.created_table h.wellformed he₁ he₂ hle
  have hnewlt := columns_lt hnew hle
  have hlt : schema.columns.length < 2 ^ 32 := hnewlt
  obtain ⟨hown, hgroups, hforeign⟩ := table_schema_own hchecked hlt fun _ _ hl => columns_lt hl h.wellformed.fits
  have htree : (s.trees.write (.table schema.name) SortedMap.empty).tree (.table schema.name) = ⟨SortedMap.empty, s.trees.roots 0⟩ :=
    Function.update_self ..
  have hheld := @ExecState.Held.table_added s { catalog := m₂, trees := s.trees.write (.table schema.name) SortedMap.empty } C
    { schema with root_page := (s.trees.roots 0).1 } h hw hcur hindexes hfree hnew hold hown (by rw [htree])
    (fun t ht => Function.update_of_ne ht _ _) (by rw [htree]; rfl)
  have hempty : Function.update C schema.name ∅ schema.name = ∅ := Function.update_self ..
  -- the indexes, while there is no row
  refine wp_post (create_index_trees_held hheld hnew hempty fun group hgroup => ⟨?_, rfl, hgroups group hgroup⟩) fun _ s₃ h₃ => ?_
  · unfold unique_index
    rw [List.append_assoc]
    exact List.append_ne_nil_of_left_ne_nil (by decide) _
  obtain ⟨hheld₃, htables₃⟩ := h₃
  have hnew₃ := hnew
  rw [← htables₃] at hnew₃
  refine wp_post (create_index_trees_held hheld₃ hnew₃ hempty fun fk hfk => ⟨?_, rfl, hforeign fk hfk⟩) fun _ s₄ h₄ => ?_
  · obtain ⟨clause, -, ref_schema, hr⟩ := hc.foreign_keys fk hfk
    exact hr.child
  obtain ⟨hheld₄, htables₄⟩ := h₄
  refine ⟨hheld₄, hfree, fun n hne => ?_⟩
  rw [htables₄, htables₃]
  exact hold n hne

theorem NameMap.of_lookup_eraseIf {α : Type} {m : NameMap α} {p : α → Bool} {name : Bytes} {x : α} (h : (m.eraseIf p).lookup name = some x) :
    m.lookup name = some x ∧ p x = false := by
  obtain ⟨hmem, hkept⟩ := List.mem_filter.1 (AList.mem_lookup_iff.1 h)
  exact ⟨AList.mem_lookup_iff.2 hmem, by simpa using hkept⟩

theorem NameMap.of_lookup_erase {α : Type} {m : NameMap α} {name n : Bytes} {x : α} (h : (m.erase name).lookup n = some x) :
    n ≠ name ∧ m.lookup n = some x := by
  have hne : n ≠ name := by
    rintro rfl
    rw [AList.lookup_erase] at h
    cases h
  exact ⟨hne, (AList.lookup_erase_ne hne).symm.trans h⟩

/-- **DROP TABLE takes the indexes of the table along**, and no foreign key is to it. -/
theorem execute_drop_table_held (h : s.Held C) (table_name : Bytes) :
    wp (execute_drop_table table_name) (fun _ _ => True) (fun _ s' => s'.Held C ∧ s.catalog.get_foreign_keys_referencing table_name = [] ∧
      s'.catalog.tables = s.catalog.tables.erase table_name) s := by
  unfold execute_drop_table
  rw [wp_bind, wp_get]
  dsimp only
  by_cases hfree : (s.catalog.tables.lookup table_name).isNone = true
  · rw [if_pos hfree]
    trivial
  · rw [if_neg hfree]
    cases hrefs : s.catalog.get_foreign_keys_referencing table_name with
    | cons ref refs => trivial
    | nil =>
      refine wp_on_catalog_current (.drop_table table_name) (fun m he hcur hle => ?_) (fun _ _ => trivial) fun _ _ _ _ => trivial
      have hnamed := CatalogCall.named_edited (s := s.catalog) h.wellformed.named he
      obtain ⟨-, he⟩ := Option.ite_none_left_eq_some.1 he
      have hcat := Option.some.inj he
      have htables : m.tables = s.catalog.tables.erase table_name := congrArg Catalog.tables hcat.symm
      have hindexes : m.indexes = s.catalog.indexes.eraseIf fun idx => idx.table_name = table_name := congrArg Catalog.indexes hcat.symm
      have hw : m.Wellformed := by
        refine ⟨hnamed, hle, ?_⟩
        rw [hindexes]
        exact NameMap.lookup_eraseIf_none h.wellformed.index_names
      refine ⟨h.dropped hw hcur rfl (fun n t ht => ?_) (fun n idx hi => ?_) fun n idx hi => ?_, rfl, htables⟩
      · rw [htables] at ht
        exact (NameMap.of_lookup_erase ht).2
      · rw [hindexes] at hi
        exact (NameMap.of_lookup_eraseIf hi).1
      · rw [hindexes] at hi
        obtain ⟨hi, hkept⟩ := NameMap.of_lookup_eraseIf hi
        -- the table of an index that is left is another one
        have hne : idx.table_name ≠ table_name := of_decide_eq_false hkept
        rw [htables, AList.lookup_erase_ne hne]
        exact h.owned n idx hi

/-- **DROP INDEX.** -/
theorem execute_drop_index_held (h : s.Held C) (index_name : Bytes) :
    wp (execute_drop_index index_name) (fun _ _ => True) (fun _ s' => s'.Held C ∧ s'.catalog.tables = s.catalog.tables) s := by
  unfold execute_drop_index
  rw [wp_bind, wp_get]
  split
  · trivial
  · refine wp_on_catalog_current (.drop_index index_name) (fun m he hcur hle => ?_) (fun _ _ => trivial) fun _ _ _ _ => trivial
    have hnamed := CatalogCall.named_edited (s := s.catalog) h.wellformed.named he
    obtain ⟨-, he⟩ := Option.ite_none_left_eq_some.1 he
    have hcat := Option.some.inj he
    have htables : m.tables = s.catalog.tables := by rw [← hcat]
    have hindexes : m.indexes = s.catalog.indexes.erase index_name := congrArg Catalog.indexes hcat.symm
    have hw : m.Wellformed := by
      refine ⟨hnamed, hle, ?_⟩
      rw [hindexes]
      by_cases hnil : [] = index_name
      · rw [hnil]
        exact AList.lookup_erase _ _
      · rw [AList.lookup_erase_ne hnil]
        exact h.wellformed.index_names
    refine ⟨h.dropped hw hcur rfl (fun n t ht => ?_) (fun n idx hi => ?_) fun n idx hi => ?_, htables⟩
    · rw [htables] at ht
      exact ht
    · rw [hindexes] at hi
      exact (NameMap.of_lookup_erase hi).2
    · rw [hindexes] at hi
      rw [htables]
      exact h.owned n idx (NameMap.of_lookup_erase hi).2

/-! ### A statement of DDL -/

/-- **Rows that stay are consistent**, if the rows that they reference stay. -/
theorem ExecState.Consistent.kept {C' : AllContents} (h : s.Consistent C) (hrep : s'.Represents C')
    (hrows : ∀ r ∈ s'.catalog.all_rows C', r ∈ s.catalog.all_rows C ∧ s'.catalog.tables.lookup r.1 = s.catalog.tables.lookup r.1)
    (hparents : ∀ child ∈ s'.catalog.all_rows C', ∀ parent ∈ s.catalog.all_rows C, ∀ fk, s.catalog.RowRefers child parent fk →
      parent ∈ s'.catalog.all_rows C') : s'.Consistent C' where
  represents := hrep
  admits n t hl e he := by
    have hin : (⟨n, e⟩ : TableRow) ∈ s'.catalog.all_rows C' := by
      refine ⟨?_, he⟩
      rw [hl]
      rfl
    obtain ⟨hold, hsame⟩ := hrows _ hin
    exact h.admits n t (hsame.symm.trans hl) e hold.2
  foreign_keys := by
    rintro child hchild fk ⟨⟨t, hl, hfk⟩, hasks⟩
    obtain ⟨hold, hsame⟩ := hrows child hchild
    have hl₀ : s.catalog.tables.lookup child.1 = some t := hsame.symm.trans hl
    obtain ⟨parent, hparent, hrefers⟩ := h.foreign_keys child hold fk ⟨⟨t, hl₀, hfk⟩, hasks⟩
    exact ⟨parent, hparents child hchild parent hparent fk hrefers, ⟨t, hl, hfk⟩, hrefers.2⟩

/-- The same tables. -/
theorem ExecState.Consistent.same_tables (h : s.Consistent C) (hrep : s'.Represents C) (htables : s'.catalog.tables = s.catalog.tables) :
    s'.Consistent C := by
  have hall : s'.catalog.all_rows C = s.catalog.all_rows C := by
    unfold Catalog.all_rows
    rw [htables]
  refine h.kept hrep (fun r hr => ?_) fun child _ parent hparent _ _ => ?_
  · rw [hall] at hr
    exact ⟨hr, by rw [htables]⟩
  · rw [hall]
    exact hparent

/-- **A statement of DDL that succeeds leaves a database that is ready and consistent.** -/
theorem DdlStmt.execute_consistent (stmt : DdlStmt Q) (h : s.Ready C) (hcon : s.Consistent C) (hsound : stmt.sound s) :
    wp stmt.execute (fun _ _ => True) (fun _ s' => ∃ C', s'.Ready C' ∧ s'.Consistent C') s := by
  have hw := h.sane.wellformed
  have hs := h.sane.supported
  have ho := h.sane.ordered
  have hspec := stmt.execute_spec hw hs hsound
  cases stmt with
  | create_table stmt =>
    refine wp_mono (wp_and (execute_create_table_held h.held stmt) (wp_and hspec (execute_create_table_ordered ho))) (fun _ s' h' => ?_)
      fun _ _ _ => trivial
    obtain ⟨⟨hheld, hfree, hold⟩, ⟨-, hs'⟩, ho'⟩ := h'
    have hready := hheld.ready hs' ho'
    refine ⟨_, hready, hcon.kept hready.represents (fun r hr => ?_) fun child _ parent hparent fk _ => ?_⟩
    · -- no row is of the new table
      obtain ⟨hsome, hmem⟩ := hr
      have hne : r.1 ≠ stmt.table_name := by
        intro heq
        rw [heq, Function.update_self] at hmem
        exact hmem
      rw [Function.update_of_ne hne] at hmem
      rw [hold _ hne] at hsome
      exact ⟨⟨hsome, hmem⟩, hold _ hne⟩
    · obtain ⟨hsome, hmem⟩ := hparent
      have hne : parent.1 ≠ stmt.table_name := by
        intro heq
        rw [heq, hfree] at hsome
        cases hsome
      refine ⟨?_, ?_⟩
      · rw [hold _ hne]
        exact hsome
      · rw [Function.update_of_ne hne]
        exact hmem
  | drop_table table_name =>
    refine wp_mono (wp_and (execute_drop_table_held h.held table_name) (wp_and hspec (execute_drop_table_ordered table_name ho)))
      (fun _ s' h' => ?_) fun _ _ _ => trivial
    obtain ⟨⟨hheld, hrefs, htables⟩, ⟨-, hs'⟩, ho'⟩ := h'
    have hready := hheld.ready hs' ho'
    refine ⟨C, hready, hcon.kept hready.represents (fun r hr => ?_) fun child hchild parent hparent fk hrefers => ?_⟩
    · obtain ⟨hsome, hmem⟩ := hr
      obtain ⟨t, hl⟩ := Option.isSome_iff_exists.1 hsome
      have hl' := hl
      rw [htables] at hl'
      have hl₀ := (NameMap.of_lookup_erase hl').2
      refine ⟨⟨?_, hmem⟩, hl.trans hl₀.symm⟩
      rw [hl₀]
      rfl
    · -- the table that is dropped is not referenced
      obtain ⟨⟨t, hl, hfk⟩, href, -⟩ := hrefers
      have hne : parent.1 ≠ table_name := by
        rw [← href]
        exact Catalog.get_foreign_keys_referencing_nil hrefs hl hfk
      refine ⟨?_, hparent.2⟩
      rw [htables, AList.lookup_erase_ne hne]
      exact hparent.1
  | create_index stmt =>
    refine wp_mono (wp_and (execute_create_index_held h.held stmt) (wp_and hspec (execute_create_index_ordered stmt ho))) (fun _ s' h' => ?_)
      fun _ _ _ => trivial
    obtain ⟨⟨hheld, htables⟩, ⟨-, hs'⟩, ho'⟩ := h'
    have hready := hheld.ready hs' ho'
    exact ⟨C, hready, hcon.same_tables hready.represents htables⟩
  | drop_index index_name =>
    refine wp_mono (wp_and (execute_drop_index_held h.held index_name) (wp_and hspec (execute_drop_index_ordered index_name ho)))
      (fun _ s' h' => ?_) fun _ _ _ => trivial
    obtain ⟨⟨hheld, htables⟩, ⟨-, hs'⟩, ho'⟩ := h'
    have hready := hheld.ready hs' ho'
    exact ⟨C, hready, hcon.same_tables hready.represents htables⟩

end GSDBEngine
