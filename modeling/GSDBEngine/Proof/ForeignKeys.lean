import GSDBEngine.Proof.Opened

/-!
# References are looked up

A reference is followed to the parent by its primary key or by a unique index, and back to the children by the index of the
constraint. Between statements the indexes are the images of the rows, so both find what there is, and nothing fails on the way.

* `index_find_ready`: the keys that an index finds.
* `parent_exists_spec`, `check_foreign_keys_spec`: **a row is let through exactly if its references lead to rows.**
* `find_referencing_children_ready`: the rows that reference a row.
-/

namespace GSDBEngine

open Eff

variable {s s' : ExecState} {C : AllContents} {name : Bytes} {schema : TableSchema} {row : Row} {fk : ForeignKeyConstraint}

/-! ### Columns -/

theorem Row.values_cons (row : Row) (i : UInt32) (cols : List UInt32) :
    row.values (i :: cols) = (row[i.toNat]?).getD .null :: row.values cols := List.map_cons ..

theorem Row.values_length (row : Row) (cols : List UInt32) : (row.values cols).length = cols.length := List.length_map ..

/-- Columns that are found by their names are columns of the schema. -/
theorem TableSchema.At.lt {names : List Bytes} {cols : List UInt32} (h : schema.At names cols) : ∀ i ∈ cols, i.toNat < schema.columns.length := by
  intro i hi
  have hmem : some i.toNat ∈ names.map schema.column_index := by
    unfold TableSchema.At at h
    rw [h]
    exact List.mem_map_of_mem hi
  obtain ⟨col_name, -, hcol⟩ := List.mem_map.1 hmem
  exact column_index_lt hcol

theorem TableSchema.At.length {names : List Bytes} {cols : List UInt32} (h : schema.At names cols) : names.length = cols.length := by
  have hlen := congrArg List.length h
  rwa [List.length_map, List.length_map] at hlen

/-- The values of columns that a row has. -/
theorem referenced_values_eq : ∀ {cols : List UInt32}, (∀ i ∈ cols, i.toNat < row.length) →
    referenced_values row cols = .ok (if is_indexable (row.values cols) then some (row.values cols) else none)
  | [], _ => rfl
  | i :: cols, h => by
    have ih := referenced_values_eq fun j hj => h j (List.mem_cons_of_mem _ hj)
    have hi := h i List.mem_cons_self
    unfold referenced_values
    rw [List.getElem?_eq_getElem hi]
    dsimp only
    rw [Row.values_cons, List.getElem?_eq_getElem hi, Option.getD_some, ih]
    have hindexable : is_indexable (row[i.toNat] :: row.values cols) = (!(row[i.toNat]).isNull && is_indexable (row.values cols)) := rfl
    rw [hindexable]
    cases hnull : (row[i.toNat]).isNull with
    | true => rfl
    | false =>
      cases hrest : is_indexable (row.values cols) with
      | true => rfl
      | false => rfl

/-- The key of a row is the values of its primary key. -/
theorem Table.Fits.key_values {tbl : Table} {e : Key × Row} (h : tbl.Fits e) : e.1 = e.2.values tbl.schema.primary_key_indices :=
  (extract_primary_key_go h.key).1

theorem binding_value {index : IndexSchema} {cols : List UInt32} (hat : schema.At index.column_names cols) (row : Row) :
    (index.binding schema).value row = row.values cols := by
  have hcols : (index.binding schema).column_indices = cols.map UInt32.toNat := by
    have hmap := congrArg (List.map fun o : Option ℕ => o.getD 0) hat
    rw [List.map_map, List.map_map] at hmap
    exact hmap
  unfold IndexBinding.value Row.values
  rw [hcols, List.map_map]
  rfl

/-! ### Searches -/

/-- **The keys that an index finds** are those of the rows with the values. -/
theorem index_find_ready (h : s.Ready C) (hl : s.catalog.tables.lookup name = some schema) {iname : Bytes} {index : IndexSchema}
    (hindex : s.catalog.indexes.lookup iname = some index) (htable : index.table_name = name) {cols : List UInt32}
    (hat : schema.At index.column_names cols) {iv : Key} (hlen : iv.length = cols.length) (hnum : iv.hasNaN = false)
    (hix : is_indexable iv = true) {E : DdlErr → ExecState → Prop} :
    wp (index_find index iv) E (fun pks s' => s' = s ∧ ∀ pk, pk ∈ pks ↔ ∃ e ∈ C name, (e.2.values cols).rank = iv.rank ∧ e.1 = pk) s := by
  have hn := h.sane.wellformed.named
  have hname : schema.name = name := hn.tables _ _ hl
  have hiname : index.name = iname := hn.indexes _ _ hindex
  obtain ⟨-, hrep, hsound⟩ := h.represents.binds hn hl
  have hidx : index.binding schema ∈ (s.opened_table schema).indexes :=
    (mem_opened_table hn).2 ⟨index, by rw [hiname]; exact hindex, by rw [htable, hname], rfl⟩
  have hwidth : index.column_names.length = cols.length := hat.length
  have hcolumns : (index.binding schema).column_indices.length = index.column_names.length := List.length_map _
  unfold index_find
  rw [wp_bind]
  refine wp_open_tree (h.represents.opened.indexes _ _ hindex) ?_
  rw [if_neg (by rw [hix]; exact fun hf => by cases hf), if_neg (by omega), wp_bind]
  refine wp_on_trees_run ?_
  have himage := hrep.indexes _ hidx
  have hscan := scan_value (s := ⟨s.trees, 0, fun _ => 0, 1⟩) hsound.fits himage (by omega) hnum
  have hdrop : ∀ e : Key × Row, ((index.binding schema).value e.2 ++ e.1).drop index.column_names.length = e.1 := by
    intro e
    have hvalue : index.column_names.length = ((index.binding schema).value e.2).length := by
      rw [value_length, hcolumns]
    rw [hvalue, List.drop_left]
  refine ⟨rfl, fun pk => ?_⟩
  rw [List.mem_map]
  constructor
  · rintro ⟨⟨key, v⟩, hmem, rfl⟩
    obtain ⟨e, he, -, hr, rfl⟩ := (hscan key).1 ⟨v, hmem⟩
    rw [binding_value hat] at hr
    exact ⟨e, he, hr, (hdrop e).symm⟩
  · rintro ⟨e, he, hr, rfl⟩
    have hindexable : is_indexable ((index.binding schema).value e.2) = true := by
      rw [binding_value hat, Key.is_indexable_of_rank hr]
      exact hix
    rw [← binding_value hat] at hr
    obtain ⟨v, hmem⟩ := (hscan _).2 ⟨e, he, hindexable, hr, rfl⟩
    exact ⟨_, hmem, hdrop e⟩

/-- **A parent is found exactly if there is one.** -/
theorem parent_exists_spec (h : s.Ready C) (hsup : s.catalog.Supports schema fk) {iv : Key} (hlen : iv.length = fk.ref_column_indices.length)
    (hnum : iv.hasNaN = false) (hix : is_indexable iv = true) {E : DdlErr → ExecState → Prop} :
    wp (parent_exists fk iv) E (fun found s' => s' = s ∧
      (found = true ↔ ∃ parent ∈ C fk.ref_table, (parent.2.values fk.ref_column_indices).rank = iv.rank)) s := by
  obtain ⟨⟨ref_schema, hl, hindex⟩, -⟩ := hsup
  have hget : wp (get_table fk.ref_table) E (fun schema' s' => schema' = ref_schema ∧ s' = s) s := by
    unfold get_table
    rw [wp_bind, wp_get, hl]
    exact ⟨rfl, rfl⟩
  unfold parent_exists
  by_cases hname : fk.ref_index_name = []
  · -- the primary key
    rw [if_pos hname] at hindex ⊢
    rw [wp_bind]
    refine wp_post hget fun _ _ hg => ?_
    obtain ⟨rfl, rfl⟩ := hg
    rw [wp_bind]
    refine wp_post (on_table_reads h hl iv) fun read s₁ h₁ => ?_
    obtain ⟨hs₁, hnone, hsome⟩ := h₁
    obtain ⟨-, -, hsound⟩ := h.represents.binds h.sane.wellformed.named hl
    have hkey : ∀ e ∈ C fk.ref_table, e.2.values fk.ref_column_indices = e.1 := by
      intro e he
      rw [hindex]
      exact (hsound.fits e he).key_values.symm
    refine ⟨hs₁, fun hfound => ?_, fun ⟨parent, hparent, hr⟩ => ?_⟩
    · obtain ⟨row, hrow⟩ := Option.isSome_iff_exists.1 hfound
      obtain ⟨e, he, hr, -⟩ := hsome row hrow
      exact ⟨e, he, by rw [hkey e he, hr]⟩
    · rw [hkey parent hparent] at hr
      cases hread : read.1 with
      | none => exact absurd hr (hnone hread parent hparent)
      | some row => rfl
  · -- a unique index
    rw [if_neg hname] at hindex ⊢
    obtain ⟨index, hidx, htable, -, hat⟩ := hindex
    have hgeti : wp (get_index fk.ref_index_name) E (fun index' s' => index' = index ∧ s' = s) s := by
      unfold get_index
      rw [wp_bind, wp_get, hidx]
      exact ⟨rfl, rfl⟩
    rw [wp_bind]
    refine wp_post hgeti fun _ _ hg => ?_
    obtain ⟨rfl, rfl⟩ := hg
    rw [wp_bind]
    refine wp_post hget fun _ _ hg => ?_
    obtain ⟨rfl, rfl⟩ := hg
    rw [wp_bind]
    refine wp_post (index_find_ready h hl hidx htable hat hlen hnum hix) fun pks s₁ h₁ => ?_
    obtain ⟨hs₁, hpks⟩ := h₁
    refine ⟨hs₁, fun hfound => ?_, fun ⟨parent, hparent, hr⟩ => ?_⟩
    · cases pks with
      | nil => cases hfound
      | cons pk pks =>
        obtain ⟨e, he, hr, -⟩ := (hpks pk).1 List.mem_cons_self
        exact ⟨e, he, hr⟩
    · have hmem := (hpks parent.1).2 ⟨parent, hparent, hr, rfl⟩
      cases pks with
      | nil => exact absurd hmem List.not_mem_nil
      | cons pk pks => rfl

/-! ### The check of a row -/

@[simp] theorem wp_on_exec {α : Type} (m : DdlM α) {E : DmlErr → ExecState → Prop} {P : α → ExecState → Prop} :
    wp (on_exec m) E P s ↔ wp m (fun e s' => E (.ddl e) s') P s := by
  unfold wp on_exec
  cases m s with
  | ok a s' => exact Iff.rfl
  | error e s' => exact Iff.rfl

/-- A constraint of a row that has the columns: its reference is followed. -/
theorem check_foreign_keys_spec (h : s.Ready C) (hsup : ∀ fk ∈ schema.foreign_keys, s.catalog.Supports schema fk)
    (haligned : ∀ fk ∈ schema.foreign_keys, fk.column_indices.length = fk.ref_column_indices.length)
    (hlen : row.length = schema.columns.length) (hnum : ∀ v ∈ row, v.isNaN = false) :
    ∀ fks : List ForeignKeyConstraint, (∀ fk ∈ fks, fk ∈ schema.foreign_keys) →
      wp (check_foreign_keys schema row fks)
        (fun _ s' => s' = s ∧ ∃ fk ∈ fks, is_indexable (row.values fk.column_indices) = true ∧ ∀ parent ∈ C fk.ref_table, ¬ fk.References row parent.2)
        (fun _ s' => s' = s ∧ ∀ fk ∈ fks, is_indexable (row.values fk.column_indices) = true → ∃ parent ∈ C fk.ref_table, fk.References row parent.2) s
  | [], _ => ⟨rfl, fun _ hmem => absurd hmem List.not_mem_nil⟩
  | fk :: fks, hfks => by
    have hfk := hfks fk List.mem_cons_self
    have ih := check_foreign_keys_spec h hsup haligned hlen hnum fks fun fk hmem => hfks fk (List.mem_cons_of_mem _ hmem)
    obtain ⟨-, index, -, -, hat⟩ := hsup fk hfk
    have hcols : ∀ i ∈ fk.column_indices, i.toNat < row.length := fun i hi => by rw [hlen]; exact hat.lt i hi
    have hrest : wp (check_foreign_keys schema row fks)
        (fun _ s' => s' = s ∧ ∃ fk' ∈ fk :: fks, is_indexable (row.values fk'.column_indices) = true ∧
          ∀ parent ∈ C fk'.ref_table, ¬ fk'.References row parent.2)
        (fun _ s' => s' = s ∧ ∀ fk' ∈ fks, is_indexable (row.values fk'.column_indices) = true →
          ∃ parent ∈ C fk'.ref_table, fk'.References row parent.2) s := by
      refine wp_mono ih (fun _ _ hok => hok) fun _ _ herr => ?_
      obtain ⟨hs, fk', hmem, hno⟩ := herr
      exact ⟨hs, fk', List.mem_cons_of_mem _ hmem, hno⟩
    unfold check_foreign_keys
    rw [referenced_values_eq hcols, wp_bind]
    by_cases hix : is_indexable (row.values fk.column_indices) = true
    · rw [if_pos hix]
      have hiv : (row.values fk.column_indices).length = fk.ref_column_indices.length := by
        rw [Row.values_length, haligned fk hfk]
      show wp (on_exec (parent_exists fk (row.values fk.column_indices)) >>= fun found =>
        if found then check_foreign_keys schema row fks else throw _) _ _ s
      rw [wp_bind, wp_on_exec]
      refine wp_post (parent_exists_spec h (hsup fk hfk) hiv (values_hasNaN hnum fk.column_indices) hix) fun found s₁ h₁ => ?_
      obtain ⟨rfl, hiff⟩ := h₁
      cases found with
      | false =>
        refine ⟨rfl, fk, List.mem_cons_self, hix, fun parent hparent hr => ?_⟩
        have htrue := hiff.2 ⟨parent, hparent, hr.2.symm⟩
        cases htrue
      | true =>
        obtain ⟨parent, hparent, hr⟩ := hiff.1 rfl
        refine wp_post hrest fun _ s₂ h₂ => ⟨h₂.1, fun fk' hmem hix' => ?_⟩
        rcases List.mem_cons.1 hmem with rfl | hmem
        · exact ⟨parent, hparent, hix, hr.symm⟩
        · exact h₂.2 fk' hmem hix'
    · rw [if_neg hix]
      show wp (check_foreign_keys schema row fks) _ _ s
      refine wp_post hrest fun _ s₂ h₂ => ⟨h₂.1, fun fk' hmem hix' => ?_⟩
      rcases List.mem_cons.1 hmem with rfl | hmem
      · exact absurd hix' hix
      · exact h₂.2 fk' hmem hix'

/-- **A row is let through exactly if its references lead to rows.** -/
theorem check_foreign_keys_on_write_spec (h : s.Ready C) (hl : s.catalog.tables.lookup name = some schema)
    (hlen : row.length = schema.columns.length) (hnum : ∀ v ∈ row, v.isNaN = false) :
    wp (check_foreign_keys_on_write schema row) (fun _ s' => s' = s ∧ ¬ schema.ReferencesMet C row)
      (fun _ s' => s' = s ∧ schema.ReferencesMet C row) s := by
  refine wp_mono (check_foreign_keys_spec h (fun fk hfk => h.sane.supported name schema hl fk hfk)
    (fun fk hfk => h.sane.ordered.aligned name schema hl fk hfk) hlen hnum schema.foreign_keys fun _ hfk => hfk) (fun _ _ hok => hok) fun _ _ herr => ?_
  obtain ⟨hs, fk, hfk, hix, hno⟩ := herr
  refine ⟨hs, fun hmet => ?_⟩
  obtain ⟨parent, hparent, hr⟩ := hmet fk hfk hix
  exact hno parent hparent hr

/-! ### The rows that reference a row -/

theorem find_children_ready (h : s.Ready C) {child_table : Bytes} (hl : s.catalog.tables.lookup child_table = some schema)
    (hfk : fk ∈ schema.foreign_keys) (hcols : ∀ i ∈ fk.ref_column_indices, i.toNat < row.length) (hnum : ∀ v ∈ row, v.isNaN = false) :
    wp (find_children row child_table fk) (fun _ _ => False) (fun _ s' => s' = s) s := by
  obtain ⟨-, index, hindex, htable, hat⟩ := h.sane.supported child_table schema hl fk hfk
  have hname : schema.name = child_table := h.sane.wellformed.named.tables _ _ hl
  unfold find_children
  rw [referenced_values_eq hcols, wp_bind]
  by_cases hix : is_indexable (row.values fk.ref_column_indices) = true
  · rw [if_pos hix]
    show wp (get_index fk.child_index_name >>= fun _ => _) _ _ s
    have haligned := h.sane.ordered.aligned child_table schema hl fk hfk
    have hiv : (row.values fk.ref_column_indices).length = fk.column_indices.length := by
      rw [Row.values_length, haligned]
    unfold get_index get_table
    simp only [wp_bind, wp_get, hindex, hl, wp_pure]
    exact wp_post (index_find_ready h hl hindex (htable.trans hname) hat hiv (values_hasNaN hnum fk.ref_column_indices) hix) fun _ _ hpks => hpks.1
  · rw [if_neg hix]
    exact rfl

/-- The columns that foreign keys are to are columns of their table. -/
theorem ref_columns_lt (h : s.Ready C) (hl : s.catalog.tables.lookup name = some schema) {child_table : Bytes}
    (href : (child_table, fk) ∈ s.catalog.get_foreign_keys_referencing name) : ∀ i ∈ fk.ref_column_indices, ∀ e ∈ C name, i.toNat < e.2.length := by
  intro i hi e he
  have hn := h.sane.wellformed.named
  obtain ⟨⟨child_schema, hchild, hfk⟩, hparent⟩ := (Catalog.mem_get_foreign_keys_referencing hn).1 href
  obtain ⟨⟨ref_schema, href_schema, hindex⟩, -⟩ := h.sane.supported child_table child_schema hchild fk hfk
  rw [hparent] at href_schema
  obtain rfl := Option.some.inj (hl.symm.trans href_schema)
  obtain ⟨-, -, hsound⟩ := h.represents.binds hn hl
  have hfits := hsound.fits e he
  by_cases hname : fk.ref_index_name = []
  · rw [if_pos hname] at hindex
    rw [hindex] at hi
    obtain ⟨v, hv, -⟩ := (extract_primary_key_go hfits.key).2 i hi
    exact (List.getElem?_eq_some_iff.1 hv).1
  · rw [if_neg hname] at hindex
    obtain ⟨index, -, -, -, hat⟩ := hindex
    rw [hfits.takes.1]
    exact hat.lt i hi

/-- **The rows that reference a row are found**, and nothing fails. -/
theorem find_referencing_children_ready (h : s.Ready C) (hl : s.catalog.tables.lookup name = some schema) {e : Key × Row} (he : e ∈ C name) :
    wp (find_referencing_children e.2 (s.catalog.get_foreign_keys_referencing name)) (fun _ _ => False) (fun _ s' => s' = s) s := by
  have hn := h.sane.wellformed.named
  obtain ⟨-, -, hsound⟩ := h.represents.binds hn hl
  have hnum := (hsound.fits e he).numbers
  have hall : ∀ refs : List (Bytes × ForeignKeyConstraint), (∀ ref ∈ refs, ref ∈ s.catalog.get_foreign_keys_referencing name) →
      wp (find_referencing_children e.2 refs) (fun _ _ => False) (fun _ s' => s' = s) s := by
    intro refs
    induction refs with
    | nil => exact fun _ => rfl
    | cons ref refs ih =>
      intro hrefs
      obtain ⟨child_table, fk⟩ := ref
      have href := hrefs _ List.mem_cons_self
      obtain ⟨⟨child_schema, hchild, hfk⟩, -⟩ := (Catalog.mem_get_foreign_keys_referencing hn).1 href
      unfold find_referencing_children
      rw [wp_bind]
      refine wp_post (find_children_ready h hchild hfk (fun i hi => ref_columns_lt h hl href i hi e he) hnum) fun children s₁ h₁ => ?_
      subst h₁
      rw [wp_bind]
      refine wp_post (ih fun ref hmem => hrefs ref (List.mem_cons_of_mem _ hmem)) fun result s₂ h₂ => ?_
      exact h₂
  exact hall _ fun _ hmem => hmem

/-! ### All references -/

section written

variable {cat cat' : Catalog} {M T S : Contents}

theorem Catalog.Rerooted.asks (h : cat.Rerooted cat') : cat'.Asks = cat.Asks := by
  funext child fk
  refine propext (and_congr_left fun _ => ⟨?_, ?_⟩)
  · rintro ⟨schema', hl', hfk⟩
    obtain ⟨schema, hl, heq⟩ := h.from_tables _ schema' hl'
    exact ⟨schema, hl, heq ▸ hfk⟩
  · rintro ⟨schema, hl, hfk⟩
    obtain ⟨root, hl'⟩ := h.table hl
    exact ⟨_, hl', hfk⟩

theorem Catalog.Rerooted.all_rows (h : cat.Rerooted cat') (C : AllContents) : cat'.all_rows C = cat.all_rows C := by
  ext r
  refine and_congr_left fun _ => ⟨fun hs => ?_, fun hs => ?_⟩
  · obtain ⟨schema', hl'⟩ := Option.isSome_iff_exists.1 hs
    obtain ⟨schema, hl, -⟩ := h.tables _ schema' hl'
    rw [hl]
    rfl
  · obtain ⟨schema, hl⟩ := Option.isSome_iff_exists.1 hs
    exact h.tables_back _ schema hl

/-- The rows of all tables, where one table has been written. -/
theorem Catalog.all_rows_written (hl : cat.tables.lookup name = some schema) :
    cat.all_rows (Function.update C name ((C name \ M) ∪ T)) =
      (cat.all_rows C \ { r | r.1 = name ∧ r.2 ∈ M }) ∪ { r | r.1 = name ∧ r.2 ∈ T } := by
  ext ⟨t, e⟩
  simp only [Catalog.all_rows, Set.mem_union, Set.mem_sdiff, Set.mem_ofPred_eq]
  by_cases ht : t = name
  · subst ht
    rw [hl, Function.update_self]
    simp only [Option.isSome_some, true_and, Set.mem_union, Set.mem_sdiff]
  · rw [Function.update_of_ne ht]
    simp only [ht, false_and, not_false_eq_true, and_true, or_false]

/-- **The references are met behind a write**: the new rows lead to rows, and who referenced an old one references a new one. -/
theorem foreign_keys_written (hsup : cat.Supported) (hl : cat.tables.lookup name = some schema)
    (h : References.Met cat.Asks (fun child fk parent => cat.RowRefers child parent fk) (cat.all_rows C))
    (hnew : ∀ e ∈ T, schema.ReferencesMet (Function.update C name ((C name \ M) ∪ T)) e.2)
    (hkept : ∀ child fk, cat.Asks child fk → child.2 ∈ C child.1 → fk.ref_table = name → ∀ old ∈ M, fk.References child.2.2 old.2 →
      ∃ new ∈ T, fk.References child.2.2 new.2) :
    References.Met cat.Asks (fun child fk parent => cat.RowRefers child parent fk)
      (cat.all_rows (Function.update C name ((C name \ M) ∪ T))) := by
  have hrows := Catalog.all_rows_written (C := C) (M := M) (T := T) hl
  rw [hrows]
  refine h.replace (fun child hchild fk hasks => ?_) fun child hchild fk hasks parent _ hM hmeets => ?_
  · -- a new row
    obtain ⟨⟨schema', hl', hfk⟩, hix⟩ := hasks
    obtain ⟨hname, hT⟩ := hchild
    rw [hname] at hl'
    obtain rfl := Option.some.inj (hl.symm.trans hl')
    obtain ⟨parent, hparent, href⟩ := hnew child.2 hT fk hfk hix
    obtain ⟨⟨ref_schema, href_schema, -⟩, -⟩ := hsup name schema hl fk hfk
    refine ⟨(fk.ref_table, parent), ?_, ⟨schema, by rw [hname]; exact hl, hfk⟩, rfl, href⟩
    rw [← hrows]
    exact ⟨by rw [href_schema]; rfl, hparent⟩
  · -- a row that stays, with a reference to one that was written
    obtain ⟨hparent, hold⟩ := hM
    obtain ⟨hrefers, href_table, href⟩ := hmeets
    obtain ⟨new, hnew', href'⟩ := hkept child fk hasks hchild.1.2 (href_table.trans hparent) parent.2 hold href
    exact ⟨(name, new), .inr ⟨rfl, hnew'⟩, hrefers, href_table.trans hparent, href'⟩

/-- **Every row is what its schema declares**, where one table has been written. -/
theorem ExecState.Consistent.written (h : s.Consistent C) (hl : s.catalog.tables.lookup name = some schema)
    (hc : s.catalog.Rerooted s'.catalog.toCatalog) (hrep : s'.Represents (Function.update C name S)) (hadmits : ∀ e ∈ S, schema.Admits e.2)
    (hmet : References.Met s.catalog.Asks (fun child fk parent => s.catalog.RowRefers child parent fk)
      (s.catalog.all_rows (Function.update C name S))) : s'.Consistent (Function.update C name S) where
  represents := hrep
  admits name' schema' hl' e he := by
    obtain ⟨schema₀, hl₀, heq⟩ := hc.tables name' schema' hl'
    have hadmits₀ : schema₀.Admits e.2 := by
      by_cases hname : name' = name
      · subst hname
        obtain rfl := Option.some.inj (hl.symm.trans hl₀)
        rw [Function.update_self] at he
        exact hadmits e he
      · rw [Function.update_of_ne hname] at he
        exact h.admits name' schema₀ hl₀ e he
    rw [heq]
    exact ⟨hadmits₀.typed, hadmits₀.checked⟩
  foreign_keys := by
    rw [hc.asks, hc.rowRefers, hc.all_rows]
    exact hmet

end written

end GSDBEngine
