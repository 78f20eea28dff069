import GSDBEngine.Proof.Acyclic
import GSDBEngine.Proof.Table

/-!
# Tables opened from the catalog

A write leaves new roots, and the catalog takes them; the rows are the same through either.

* `Catalog.Rerooted`: a catalog that differs in root pages. `Represents.reroot`: **it leads to the same rows.**
* `on_table_select`, `on_table_delete`: a `Table` is opened, and a row is read, or deleted.
* `index_find_spec`: **the keys that an index finds are those of the rows with the values.**
-/

namespace GSDBEngine

open Eff

/-! ### Root pages -/

/-- The same tables and indexes, apart from root pages. -/
structure Catalog.Rerooted (cat cat' : Catalog) : Prop where
  named : cat'.Named
  tables : ∀ name schema', cat'.tables.lookup name = some schema' →
    ∃ schema, cat.tables.lookup name = some schema ∧ schema' = { schema with root_page := schema'.root_page }
  tables_back : ∀ name schema, cat.tables.lookup name = some schema → (cat'.tables.lookup name).isSome = true
  indexes : ∀ name idx', cat'.indexes.lookup name = some idx' →
    ∃ idx, cat.indexes.lookup name = some idx ∧ idx' = { idx with root_page := idx'.root_page }
  indexes_back : ∀ name idx, cat.indexes.lookup name = some idx → (cat'.indexes.lookup name).isSome = true

namespace Catalog.Rerooted

variable {cat cat' cat'' : Catalog}

theorem refl (h : cat.Named) : cat.Rerooted cat :=
  ⟨h, fun _ schema hl => ⟨schema, hl, rfl⟩, fun _ _ hl => by rw [hl]; rfl, fun _ idx hl => ⟨idx, hl, rfl⟩, fun _ _ hl => by rw [hl]; rfl⟩

theorem trans (h : cat.Rerooted cat') (h' : cat'.Rerooted cat'') : cat.Rerooted cat'' where
  named := h'.named
  tables name schema'' hl'' := by
    obtain ⟨schema', hl', heq'⟩ := h'.tables name schema'' hl''
    obtain ⟨schema, hl, heq⟩ := h.tables name schema' hl'
    refine ⟨schema, hl, ?_⟩
    rw [heq] at heq'
    exact heq'
  tables_back name schema hl := by
    obtain ⟨schema', hl'⟩ := Option.isSome_iff_exists.1 (h.tables_back name schema hl)
    exact h'.tables_back name schema' hl'
  indexes name idx'' hl'' := by
    obtain ⟨idx', hl', heq'⟩ := h'.indexes name idx'' hl''
    obtain ⟨idx, hl, heq⟩ := h.indexes name idx' hl'
    refine ⟨idx, hl, ?_⟩
    rw [heq] at heq'
    exact heq'
  indexes_back name idx hl := by
    obtain ⟨idx', hl'⟩ := Option.isSome_iff_exists.1 (h.indexes_back name idx hl)
    exact h'.indexes_back name idx' hl'

theorem table (h : cat.Rerooted cat') {name : Bytes} {schema : TableSchema} (hl : cat.tables.lookup name = some schema) :
    ∃ root, cat'.tables.lookup name = some { schema with root_page := root } := by
  obtain ⟨schema', hl'⟩ := Option.isSome_iff_exists.1 (h.tables_back name schema hl)
  obtain ⟨schema₀, hl₀, heq⟩ := h.tables name schema' hl'
  obtain rfl := Option.some.inj (hl.symm.trans hl₀)
  exact ⟨schema'.root_page, by rw [hl', ← heq]⟩

theorem index (h : cat.Rerooted cat') {name : Bytes} {idx : IndexSchema} (hl : cat.indexes.lookup name = some idx) :
    ∃ root, cat'.indexes.lookup name = some { idx with root_page := root } := by
  obtain ⟨idx', hl'⟩ := Option.isSome_iff_exists.1 (h.indexes_back name idx hl)
  obtain ⟨idx₀, hl₀, heq⟩ := h.indexes name idx' hl'
  obtain rfl := Option.some.inj (hl.symm.trans hl₀)
  exact ⟨idx'.root_page, by rw [hl', ← heq]⟩

/-- A root page is set. -/
theorem table_root {table_name : Bytes} {root : UInt32} (hn : cat.Named) (ho : cat.Opened) (hroot : root.toNat ≠ INVALID_PAGE)
    (he : (CatalogCall.update_table_root table_name root).edited cat = some cat') : cat.Rerooted cat' ∧ cat'.Opened := by
  have hn' := CatalogCall.named_edited (s := ⟨cat, []⟩) hn he
  obtain ⟨schema, hl, rfl⟩ := Option.map_eq_some_iff.1 he
  have hlookup : ∀ {name t}, (cat.tables.insert table_name { schema with root_page := root }).lookup name = some t →
      (name = table_name ∧ t = { schema with root_page := root }) ∨ cat.tables.lookup name = some t := by
    intro name t ht
    by_cases hname : name = table_name
    · subst hname
      rw [AList.lookup_insert] at ht
      exact Or.inl ⟨rfl, (Option.some.inj ht).symm⟩
    · rw [AList.lookup_insert_ne hname] at ht
      exact Or.inr ht
  refine ⟨⟨hn', fun name t ht => ?_, fun name t ht => ?_, fun _ idx hi => ⟨idx, hi, rfl⟩, fun _ _ hi => by rw [hi]; rfl⟩,
    fun name t ht => ?_, ho.indexes⟩
  · rcases hlookup ht with ⟨rfl, rfl⟩ | ht
    · exact ⟨schema, hl, rfl⟩
    · exact ⟨t, ht, rfl⟩
  · show ((cat.tables.insert table_name _).lookup name).isSome = true
    by_cases hname : name = table_name
    · subst hname
      rw [AList.lookup_insert]
      rfl
    · rw [AList.lookup_insert_ne hname, ht]
      rfl
  · rcases hlookup ht with ⟨rfl, rfl⟩ | ht
    · exact hroot
    · exact ho.tables name t ht

theorem index_root {index_name : Bytes} {root : UInt32} (hn : cat.Named) (ho : cat.Opened) (hroot : root.toNat ≠ INVALID_PAGE)
    (he : (CatalogCall.update_index_root index_name root).edited cat = some cat') : cat.Rerooted cat' ∧ cat'.Opened := by
  have hn' := CatalogCall.named_edited (s := ⟨cat, []⟩) hn he
  obtain ⟨index, hl, rfl⟩ := Option.map_eq_some_iff.1 he
  have hlookup : ∀ {name i}, (cat.indexes.insert index_name { index with root_page := root }).lookup name = some i →
      (name = index_name ∧ i = { index with root_page := root }) ∨ cat.indexes.lookup name = some i := by
    intro name i hi
    by_cases hname : name = index_name
    · subst hname
      rw [AList.lookup_insert] at hi
      exact Or.inl ⟨rfl, (Option.some.inj hi).symm⟩
    · rw [AList.lookup_insert_ne hname] at hi
      exact Or.inr hi
  refine ⟨⟨hn', fun _ t ht => ⟨t, ht, rfl⟩, fun _ _ ht => by rw [ht]; rfl, fun name i hi => ?_, fun name i hi => ?_⟩,
    ho.tables, fun name i hi => ?_⟩
  · rcases hlookup hi with ⟨rfl, rfl⟩ | hi
    · exact ⟨index, hl, rfl⟩
    · exact ⟨i, hi, rfl⟩
  · show ((cat.indexes.insert index_name _).lookup name).isSome = true
    by_cases hname : name = index_name
    · subst hname
      rw [AList.lookup_insert]
      rfl
    · rw [AList.lookup_insert_ne hname, hi]
      rfl
  · rcases hlookup hi with ⟨rfl, rfl⟩ | hi
    · exact hroot
    · exact ho.indexes name i hi

theorem from_tables (h : cat.Rerooted cat') : cat.TablesFrom cat' := fun name schema' hl' => by
  obtain ⟨schema, hl, heq⟩ := h.tables name schema' hl'
  refine ⟨schema, hl, ?_⟩
  rw [heq]

theorem ordered (h : cat.Rerooted cat') (ho : cat.Ordered) : cat'.Ordered := by
  refine ho.from h.named h.from_tables fun _ _ _ fk _ hs => ?_
  obtain ⟨parent, hp⟩ := Option.isSome_iff_exists.1 hs
  exact h.tables_back _ parent hp

/-- Rows reference rows through the same constraints. -/
theorem rowRefers (h : cat.Rerooted cat') : cat'.RowRefers = cat.RowRefers := by
  funext child parent fk
  refine propext (and_congr_left fun _ => ⟨?_, ?_⟩)
  · rintro ⟨schema', hl', hfk⟩
    obtain ⟨schema, hl, heq⟩ := h.from_tables _ schema' hl'
    exact ⟨schema, hl, heq ▸ hfk⟩
  · rintro ⟨schema, hl, hfk⟩
    obtain ⟨root, hl'⟩ := h.table hl
    exact ⟨_, hl', hfk⟩

end Catalog.Rerooted

/-! ### Tables -/

namespace Table

variable {schema : TableSchema} {tbl : Table} {l l' : List IndexSchema} {root : UInt32} {S : Contents}

/-- An index of the table, over columns that it has. -/
def Binds (schema : TableSchema) (idx : IndexSchema) : Prop :=
  idx.table_name = schema.name ∧ ∀ col_name ∈ idx.column_names, (schema.column_index col_name).isSome = true

theorem construct_eq_ok : Table.construct schema l = .ok tbl ↔ (∀ idx ∈ l, Binds schema idx) ∧ tbl = ⟨schema, l.map (IndexSchema.binding schema)⟩ := by
  induction l generalizing tbl with
  | nil =>
    refine ⟨fun h => ⟨fun _ h => absurd h List.not_mem_nil, (Except.ok.inj h).symm⟩, fun h => ?_⟩
    rw [h.2]
    rfl
  | cons idx l ih =>
    unfold Table.construct
    by_cases htable : idx.table_name ≠ schema.name
    · rw [if_pos htable]
      refine ⟨fun h => (by cases h), fun h => absurd (h.1 idx List.mem_cons_self).1 htable⟩
    · rw [if_neg htable]
      cases hfind : idx.column_names.find? fun col_name => (schema.column_index col_name).isNone with
      | some col_name =>
        refine ⟨fun h => (by cases h), fun h => ?_⟩
        have hnone := List.find?_some hfind
        have hsome := (h.1 idx List.mem_cons_self).2 col_name (List.mem_of_find?_eq_some hfind)
        rw [Option.isNone_iff_eq_none] at hnone
        rw [hnone] at hsome
        cases hsome
      | none =>
        have hbinds : Binds schema idx := by
          refine ⟨not_not.1 htable, fun col_name hmem => ?_⟩
          have hnone := List.find?_eq_none.1 hfind col_name hmem
          rw [Option.isNone_iff_eq_none] at hnone
          exact Option.isSome_iff_ne_none.2 hnone
        constructor
        · intro h
          obtain ⟨rest, hrest, h⟩ := except_bind_ok h
          obtain ⟨hall, rfl⟩ := ih.1 hrest
          obtain rfl := Except.ok.inj h
          exact ⟨List.forall_mem_cons.2 ⟨hbinds, hall⟩, rfl⟩
        · rintro ⟨hall, rfl⟩
          have hrest := ih.2 ⟨fun idx' hmem => hall idx' (List.mem_cons_of_mem _ hmem), rfl⟩
          dsimp only
          rw [hrest]
          rfl

theorem extract_reroot (row : Row) : TableSchema.extract_primary_key { schema with root_page := root } row = schema.extract_primary_key row := by
  have hgo : ∀ cols, TableSchema.extract_primary_key.go { schema with root_page := root } row cols =
      TableSchema.extract_primary_key.go schema row cols := by
    intro cols
    induction cols with
    | nil => rfl
    | cons i cols ih =>
      unfold TableSchema.extract_primary_key.go
      rw [ih]
  exact hgo schema.primary_key_indices

/-- Indexes that differ from indexes of `l` in root pages. -/
def FromIndexes (l l' : List IndexSchema) : Prop := ∀ idx' ∈ l', ∃ idx ∈ l, idx' = { idx with root_page := idx'.root_page }

theorem Binds.reroot (h : ∀ idx ∈ l, Binds schema idx) (hl : FromIndexes l l') : ∀ idx ∈ l', Binds { schema with root_page := root } idx := by
  intro idx' hidx'
  obtain ⟨idx, hidx, heq⟩ := hl idx' hidx'
  rw [heq]
  exact h idx hidx

theorem mem_binding {idx : IndexBinding} (h : idx ∈ l'.map (IndexSchema.binding { schema with root_page := root })) (hl : FromIndexes l l') :
    ∃ idx₀ ∈ l.map (IndexSchema.binding schema), ∃ r, idx = { idx₀ with schema := { idx₀.schema with root_page := r } } := by
  obtain ⟨idx', hidx', rfl⟩ := List.mem_map.1 h
  obtain ⟨idx, hidx, heq⟩ := hl idx' hidx'
  refine ⟨_, List.mem_map.2 ⟨idx, hidx, rfl⟩, idx'.root_page, ?_⟩
  rw [heq]
  rfl

/-- **The rows are the same under other roots.** -/
theorem represents_reroot {trees : Trees} (h : Represents ⟨schema, l.map (IndexSchema.binding schema)⟩ trees S) (hl : FromIndexes l l') :
    Represents ⟨{ schema with root_page := root }, l'.map (IndexSchema.binding { schema with root_page := root })⟩ trees S where
  rows := h.rows
  stored := h.stored
  indexes idx hidx := by
    obtain ⟨idx₀, hidx₀, r, rfl⟩ := mem_binding hidx hl
    exact h.indexes idx₀ hidx₀

theorem sound_reroot (h : Sound ⟨schema, l.map (IndexSchema.binding schema)⟩ S) (hl : FromIndexes l l') :
    Sound ⟨{ schema with root_page := root }, l'.map (IndexSchema.binding { schema with root_page := root })⟩ S where
  fits e he := by
    obtain ⟨hkey, hserial, hvalues, hnumbers⟩ := h.fits e he
    refine ⟨(extract_reroot e.2).trans hkey, hserial, fun idx hidx => ?_, hnumbers⟩
    obtain ⟨idx₀, hidx₀, r, rfl⟩ := mem_binding hidx hl
    exact hvalues idx₀ hidx₀
  one := h.one
  unique idx hidx e he e' he' hc := by
    obtain ⟨idx₀, hidx₀, r, rfl⟩ := mem_binding hidx hl
    exact h.unique idx₀ hidx₀ e he e' he' hc

end Table

/-! ### States -/

variable {s s' : ExecState} {C : AllContents} {name : Bytes} {schema : TableSchema}

/-- A table of the catalog, with the indexes that the catalog has for it. -/
def ExecState.opened_table (s : ExecState) (schema : TableSchema) : Table :=
  ⟨schema, (s.catalog.get_indexes_for_table schema.name).map (IndexSchema.binding schema)⟩

theorem mem_opened_table (hn : s.catalog.Named) {idx : IndexBinding} : idx ∈ (s.opened_table schema).indexes ↔
    ∃ index, s.catalog.indexes.lookup index.name = some index ∧ index.table_name = schema.name ∧ idx = index.binding schema := by
  unfold ExecState.opened_table
  rw [List.mem_map]
  refine exists_congr fun index => ?_
  rw [Catalog.mem_get_indexes_for_table hn, and_assoc, eq_comm (b := idx)]

theorem fromIndexes (h : s.catalog.Rerooted s'.catalog.toCatalog) (hn : s.catalog.Named) (table_name : Bytes) :
    Table.FromIndexes (s.catalog.get_indexes_for_table table_name) (s'.catalog.get_indexes_for_table table_name) := by
  intro idx' hidx'
  obtain ⟨hl', htable⟩ := (Catalog.mem_get_indexes_for_table h.named).1 hidx'
  obtain ⟨idx, hl, heq⟩ := h.indexes _ _ hl'
  refine ⟨idx, (Catalog.mem_get_indexes_for_table hn).2 ⟨?_, ?_⟩, heq⟩
  · have hname := hn.indexes _ _ hl
    rw [hname]
    exact hl
  · rw [heq] at htable
    exact htable

namespace ExecState.Represents

theorem binds (h : s.Represents C) (hn : s.catalog.Named) (hl : s.catalog.tables.lookup name = some schema) :
    (∀ idx ∈ s.catalog.get_indexes_for_table schema.name, Table.Binds schema idx) ∧
      (s.opened_table schema).Represents s.trees (C name) ∧ (s.opened_table schema).Sound (C name) := by
  have hname : schema.name = name := hn.tables _ _ hl
  obtain ⟨tbl, hbind, hrep, hsound⟩ := h.table name schema hl
  obtain ⟨hall, rfl⟩ := Table.construct_eq_ok.1 hbind
  unfold opened_table
  rw [hname]
  exact ⟨hall, hrep, hsound⟩

/-- **The catalog takes other roots.** -/
theorem reroot (h : s.Represents C) (hn : s.catalog.Named) (ht : s'.trees = s.trees) (hc : s.catalog.Rerooted s'.catalog.toCatalog)
    (ho : s'.catalog.Opened) : s'.Represents C where
  opened := ho
  table name schema' hl' := by
    obtain ⟨schema, hl, heq⟩ := hc.tables name schema' hl'
    obtain ⟨tbl, hbind, hrep, hsound⟩ := h.table name schema hl
    obtain ⟨hall, rfl⟩ := Table.construct_eq_ok.1 hbind
    have hfrom := fromIndexes hc hn name
    rw [ht, heq]
    exact ⟨_, Table.construct_eq_ok.2 ⟨Table.Binds.reroot hall hfrom, rfl⟩, Table.represents_reroot hrep hfrom, Table.sound_reroot hsound hfrom⟩
  child_index name schema' hl' fk hfk := by
    obtain ⟨schema, hl, heq⟩ := hc.tables name schema' hl'
    rw [heq] at hfk ⊢
    obtain ⟨idx, hidx, htable, hat⟩ := h.child_index name schema hl fk hfk
    obtain ⟨root, hidx'⟩ := hc.index hidx
    exact ⟨_, hidx', htable, hat⟩

end ExecState.Represents

/-- Indexes of one table have names of their own. -/
theorem opened_table_bound (hn : s.catalog.Named) : (s.opened_table schema).Bound where
  names := by
    have hkeys : ((s.catalog.indexes.entries.map Sigma.snd).map IndexSchema.name).Nodup := by
      have heq : (s.catalog.indexes.entries.map Sigma.snd).map IndexSchema.name = s.catalog.indexes.entries.map Sigma.fst := by
        rw [List.map_map]
        exact List.map_congr_left fun e he => hn.indexes.mem he
      rw [heq]
      exact s.catalog.indexes.nodupKeys
    have heq : ((s.opened_table schema).indexes.map fun idx => idx.schema.name) =
        (s.catalog.get_indexes_for_table schema.name).map IndexSchema.name := by
      unfold ExecState.opened_table
      rw [List.map_map]
      rfl
    rw [heq]
    exact hkeys.sublist (List.filter_sublist.map _)
  pk_arity idx hidx := by
    obtain ⟨index, -, rfl⟩ := List.mem_map.1 hidx
    rfl
  columns idx hidx := by
    obtain ⟨index, -, rfl⟩ := List.mem_map.1 hidx
    exact List.length_map _

/-! ### Opening -/

theorem wp_open_tree {t : TreeName} {root_page : UInt32} (hroot : root_page.toNat ≠ INVALID_PAGE) {E : DdlErr → ExecState → Prop}
    {P : UInt32 → ExecState → Prop} (h : P root_page s) : wp (open_tree t root_page) E P s := by
  unfold open_tree
  rw [if_neg hroot]
  exact h

theorem open_indexes_spec {owned : List IndexSchema} (h : ∀ idx ∈ owned, idx.root_page.toNat ≠ INVALID_PAGE) :
    wp (open_indexes owned) (fun _ _ => True)
      (fun roots s' => s' = s ∧ ∀ idx ∈ owned, (roots idx.name).toNat ≠ INVALID_PAGE) s := by
  induction owned with
  | nil => exact ⟨rfl, fun _ h => absurd h List.not_mem_nil⟩
  | cons index owned ih =>
    unfold open_indexes
    simp only [wp_bind]
    refine wp_open_tree (h index List.mem_cons_self) ?_
    refine wp_post (ih fun idx hidx => h idx (List.mem_cons_of_mem _ hidx)) fun roots s' h' => ?_
    obtain ⟨rfl, hroots⟩ := h'
    refine ⟨rfl, fun idx hidx => ?_⟩
    by_cases hname : idx.name = index.name
    · rw [hname, Function.update_self]
      exact h index List.mem_cons_self
    · rw [Function.update_of_ne hname]
      rcases List.mem_cons.1 hidx with rfl | hidx
      · exact absurd rfl hname
      · exact hroots idx hidx

theorem init_auto_increment_spec {tbl : Table} {st : TableState} : wp tbl.init_auto_increment (fun _ _ => True)
    (fun _ st' => st'.trees = st.trees ∧ st'.root_page = st.root_page ∧ st'.index_root_page = st.index_root_page) st := by
  unfold Table.init_auto_increment
  split
  · rw [wp_bind, wp_btree_scan_all]
    split
    · exact ⟨rfl, rfl, rfl⟩
    · exact ⟨rfl, rfl, rfl⟩
    · trivial
  · exact ⟨rfl, rfl, rfl⟩

/-- A table is opened, and the call is made. -/
theorem on_table_spec {α : Type} {owned : List IndexSchema} {m : Table → TableM α} {P : α × Table × TableState → ExecState → Prop}
    (hroot : schema.root_page.toNat ≠ INVALID_PAGE) (howned : ∀ idx ∈ owned, idx.root_page.toNat ≠ INVALID_PAGE)
    (h : ∀ st : TableState, st.trees = s.trees → st.root_page = schema.root_page →
      (∀ idx ∈ owned, (st.index_root_page idx.name).toNat ≠ INVALID_PAGE) →
      wp (m ⟨schema, owned.map (IndexSchema.binding schema)⟩) (fun _ _ => True)
        (fun a obj => P (a, ⟨schema, owned.map (IndexSchema.binding schema)⟩, obj) { s with trees := obj.trees }) st) :
    wp (on_table schema owned m) (fun _ _ => True) P s := by
  unfold on_table
  simp only [wp_bind]
  refine wp_post (open_indexes_spec howned) fun roots s₁ h₁ => ?_
  obtain ⟨rfl, hroots⟩ := h₁
  refine wp_open_tree hroot ?_
  refine wp_liftE (fun tbl htbl => ?_) fun _ _ => trivial
  have hbind : Table.construct schema owned = .ok tbl := by
    cases hb : Table.construct schema owned with
    | error e => rw [hb] at htbl; cases htbl
    | ok tbl' =>
      rw [hb] at htbl
      exact congrArg Except.ok (Except.ok.inj htbl)
  obtain ⟨-, rfl⟩ := Table.construct_eq_ok.1 hbind
  refine wp_on_trees_run ?_
  rw [wp_bind]
  refine wp_post init_auto_increment_spec fun _ st hst => ?_
  obtain ⟨htrees, hroot, hindexes⟩ := hst
  exact h st htrees hroot (hindexes ▸ hroots)

/-! ### Roots in the objects -/

section roots

variable {tbl : Table} {st : TableState} {pk : Key}

/-- The objects of a table have roots. -/
def TableState.Rooted (tbl : Table) (st : TableState) : Prop :=
  st.root_page.toNat ≠ INVALID_PAGE ∧ ∀ idx ∈ tbl.indexes, (st.index_root_page idx.schema.name).toNat ≠ INVALID_PAGE

theorem TableState.Rooted.write (h : st.Rooted tbl) (t : TreeName) (m : KeyMap) : (st.write t m).Rooted tbl := by
  obtain ⟨hroot, hindexes⟩ := h
  cases t with
  | table name => exact ⟨(st.trees.roots 0).2, hindexes⟩
  | index name =>
    refine ⟨hroot, fun idx hidx => ?_⟩
    show (Function.update st.index_root_page name _ idx.schema.name).toNat ≠ INVALID_PAGE
    by_cases hname : idx.schema.name = name
    · rw [hname, Function.update_self]
      exact (st.trees.roots 0).2
    · rw [Function.update_of_ne hname]
      exact hindexes idx hidx

theorem btree_remove_rooted (h : st.Rooted tbl) (t : TreeName) (key : Key) :
    wp (btree_remove t key) (fun _ _ => True) (fun _ st' => st'.Rooted tbl) st := by
  unfold btree_remove
  rw [wp_bind, wp_get]
  split
  · trivial
  · exact h.write t _

theorem remove_entry_rooted (h : st.Rooted tbl) (idx : IndexBinding) (indexed_value : Key) :
    wp (idx.remove_entry indexed_value pk) (fun _ _ => True) (fun _ st' => st'.Rooted tbl) st := by
  unfold IndexBinding.remove_entry
  split
  · rw [wp_bind]
    unfold IndexBinding.make_entry_key
    by_cases hvalue : indexed_value.length ≠ idx.schema.column_names.length
    · rw [if_pos hvalue]
      trivial
    · rw [if_neg hvalue]
      by_cases hkey : pk.length ≠ idx.pk_arity
      · rw [if_pos hkey]
        trivial
      · rw [if_neg hkey]
        exact btree_remove_rooted h _ _
  · exact h

theorem delete_row_rooted (h : st.Rooted tbl) : wp (tbl.delete_row pk) (fun _ _ => True) (fun _ st' => st'.Rooted tbl) st := by
  unfold Table.delete_row
  rw [wp_bind, wp_btree_search]
  cases (st.trees.tree tbl.rows).entries.find? pk with
  | none => trivial
  | some bytes =>
    simp only [wp_bind]
    refine wp_liftE (fun old_row _ => ?_) fun _ _ => trivial
    unfold Table.remove_row_and_indexes
    rw [wp_bind]
    refine wp_post (btree_remove_rooted h _ _) fun _ st₁ h₁ => ?_
    refine wp_forM (I := fun _ (st : TableState) => st.Rooted tbl) (fun idx _ st' h' => ?_) _ _ h₁
    rw [wp_bind]
    exact wp_liftE (fun _ _ => remove_entry_rooted h' idx _) fun _ _ => trivial

end roots

/-! ### Rows -/

/-- A row is read by its key. -/
theorem on_table_select (h : s.Represents C) (hn : s.catalog.Named) (hl : s.catalog.tables.lookup name = some schema) (key : Key) :
    wp (on_table schema [] fun read_tbl => read_tbl.select_by_key key) (fun _ _ => True)
      (fun read s' => s' = s ∧ (read.1 = none → ∀ e ∈ C name, e.1.rank ≠ key.rank) ∧
        ∀ row, read.1 = some row → ∃ e ∈ C name, e.1.rank = key.rank ∧ e.2 = row) s := by
  obtain ⟨-, hrep, -⟩ := h.binds hn hl
  refine on_table_spec (h.opened.tables _ _ hl) (fun _ h => absurd h List.not_mem_nil) fun st htrees _ _ => ?_
  have hrep' : (s.opened_table schema).Represents st.trees (C name) := htrees ▸ hrep
  unfold Table.select_by_key
  rw [wp_bind, wp_btree_search]
  cases hfind : (st.trees.tree (s.opened_table schema).rows).entries.find? key with
  | none =>
    have hfind' : (st.trees.tree (Table.rows ⟨schema, [].map (IndexSchema.binding schema)⟩)).entries.find? key = none := hfind
    rw [hfind']
    refine ⟨by rw [htrees], fun _ => hrep'.find_none.1 hfind, fun row hrow => by cases hrow⟩
  | some bytes =>
    have hfind' : (st.trees.tree (Table.rows ⟨schema, [].map (IndexSchema.binding schema)⟩)).entries.find? key = some bytes := hfind
    rw [hfind']
    obtain ⟨e, he, hr, hbytes⟩ := hrep'.find_some hfind
    simp only [wp_bind]
    refine wp_liftE (fun row hrow => ?_) fun _ _ => trivial
    have heq : e.2 = row := Except.ok.inj (hbytes.symm.trans hrow)
    refine ⟨by rw [htrees], fun hnone => (by cases hnone), fun row' hrow' => ⟨e, he, hr, ?_⟩⟩
    exact heq.trans (Option.some.inj hrow')

/-- A row is deleted, and the other tables keep theirs. -/
theorem on_table_delete (h : s.Represents C) (hn : s.catalog.Named) (hl : s.catalog.tables.lookup name = some schema) (key : Key) :
    wp (on_table schema (s.catalog.get_indexes_for_table schema.name) fun tbl => tbl.delete_row key) (fun _ _ => True)
      (fun written s' => s'.catalog = s.catalog ∧ written.2.1 = s.opened_table schema ∧ written.2.2.Rooted (s.opened_table schema) ∧
        ∃ old ∈ C name, old.1.rank = key.rank ∧ s'.Represents (Function.update C name (C name \ {old}))) s := by
  obtain ⟨hbinds, hrep, hsound⟩ := h.binds hn hl
  have hname : schema.name = name := hn.tables _ _ hl
  have howned : ∀ idx ∈ s.catalog.get_indexes_for_table schema.name, idx.root_page.toNat ≠ INVALID_PAGE := fun idx hidx =>
    h.opened.indexes _ _ ((Catalog.mem_get_indexes_for_table hn).1 hidx).1
  refine on_table_spec (h.opened.tables _ _ hl) howned fun st htrees hroot hroots => ?_
  have hrooted : st.Rooted (s.opened_table schema) := by
    refine ⟨hroot ▸ h.opened.tables _ _ hl, fun idx hidx => ?_⟩
    obtain ⟨index, hindex, rfl⟩ := List.mem_map.1 hidx
    exact hroots index hindex
  have hrep' : (s.opened_table schema).Represents st.trees (C name) := htrees ▸ hrep
  refine wp_mono (wp_and (Table.delete_row_spec (opened_table_bound hn) hrep' hsound) (delete_row_rooted hrooted)) (fun _ st' hst => ?_) fun _ _ _ => trivial
  obtain ⟨⟨old, hold, hr, hrep₁, hframe⟩, hrooted₁⟩ := hst
  refine ⟨rfl, rfl, hrooted₁, old, hold, hr, h.opened, fun name' schema' hl' => ?_, h.child_index⟩
  have hname' : schema'.name = name' := hn.tables _ _ hl'
  by_cases heq : name' = name
  · subst heq
    obtain rfl := Option.some.inj (hl.symm.trans hl')
    rw [Function.update_self]
    refine ⟨s.opened_table schema, Table.construct_eq_ok.2 ⟨?_, ?_⟩, hrep₁, hsound.mono Set.sdiff_subset⟩
    · rw [← hname]
      exact hbinds
    · unfold ExecState.opened_table
      rw [hname]
  · -- the trees of another table have other names
    obtain ⟨tbl', hbind', hrep₂, hsound₂⟩ := h.table name' schema' hl'
    rw [Function.update_of_ne heq]
    refine ⟨tbl', hbind', ?_, hsound₂⟩
    obtain ⟨-, rfl⟩ := Table.construct_eq_ok.1 hbind'
    have hrows : st'.trees.tree (.table schema'.name) = s.trees.tree (.table schema'.name) := by
      rw [← htrees]
      refine hframe _ ?_
      rintro (hown | ⟨idx, -, hown⟩)
      · have : schema'.name = schema.name := TreeName.table.inj hown
        exact heq (by rw [← hname', ← hname, this])
      · cases hown
    have hindexes : ∀ idx ∈ (s.catalog.get_indexes_for_table name').map (IndexSchema.binding schema'),
        st'.trees.tree (.index idx.schema.name) = s.trees.tree (.index idx.schema.name) := by
      intro idx hidx
      rw [← htrees]
      refine hframe _ ?_
      rintro (hown | ⟨idx₂, hidx₂, hown⟩)
      · cases hown
      · obtain ⟨index, hindex, rfl⟩ := List.mem_map.1 hidx
        obtain ⟨index₂, hindex₂, rfl⟩ := List.mem_map.1 hidx₂
        obtain ⟨hlookup, htable⟩ := (Catalog.mem_get_indexes_for_table hn).1 hindex
        obtain ⟨hlookup₂, htable₂⟩ := (Catalog.mem_get_indexes_for_table hn).1 hindex₂
        have hsame : index.name = index₂.name := TreeName.index.inj hown
        rw [hsame] at hlookup
        obtain rfl := Option.some.inj (hlookup.symm.trans hlookup₂)
        exact heq (by rw [← htable, htable₂, hname])
    refine ⟨fun k bytes hmem => ?_, fun e he => ?_, fun idx hidx => ?_⟩
    · change (k, bytes) ∈ (st'.trees.tree (.table schema'.name)).entries.entries at hmem
      rw [hrows] at hmem
      exact hrep₂.rows k bytes hmem
    · show ∃ bytes, (e.1, bytes) ∈ (st'.trees.tree (.table schema'.name)).entries.entries ∧ _
      rw [hrows]
      exact hrep₂.stored e he
    · rw [hindexes idx hidx]
      exact hrep₂.indexes idx hidx

/-- **The roots that a call leaves go to the catalog.** -/
theorem persist_roots_spec {tbl : Table} {obj : TableState} (hn : s.catalog.Named) (ho : s.catalog.Opened) (hobj : obj.Rooted tbl) :
    wp (persist_roots schema tbl obj) (fun _ _ => True)
      (fun _ s' => s'.trees = s.trees ∧ s.catalog.Rerooted s'.catalog.toCatalog ∧ s'.catalog.Opened) s := by
  have hindexes : ∀ s₁ : ExecState, s₁.catalog.Named → s₁.catalog.Opened →
      wp (tbl.indexes.forM fun idx => on_catalog (CatalogManager.update_index_root idx.schema.name (obj.index_root_page idx.schema.name)))
        (fun _ _ => True) (fun _ s' => s'.trees = s₁.trees ∧ s₁.catalog.Rerooted s'.catalog.toCatalog ∧ s'.catalog.Opened) s₁ := by
    intro s₁ hn₁ ho₁
    refine wp_post (wp_forM (I := fun todo s' => (∀ idx ∈ todo, (obj.index_root_page idx.schema.name).toNat ≠ INVALID_PAGE) ∧
      s'.trees = s₁.trees ∧ s₁.catalog.Rerooted s'.catalog.toCatalog ∧ s'.catalog.Opened) (fun idx todo s₂ h₂ => ?_) _ _
      ⟨hobj.2, rfl, .refl hn₁, ho₁⟩) fun _ _ h => h.2
    obtain ⟨hroots, htrees, hre, ho₂⟩ := h₂
    refine wp_on_catalog_ok (.update_index_root idx.schema.name _) fun cat page he _ => ?_
    obtain ⟨hre', ho₃⟩ := Catalog.Rerooted.index_root hre.named ho₂ (hroots idx List.mem_cons_self) he
    exact ⟨fun idx' hidx' => hroots idx' (List.mem_cons_of_mem _ hidx'), htrees, hre.trans hre', ho₃⟩
  unfold persist_roots
  dsimp only
  split
  · rw [wp_bind]
    refine wp_on_catalog_ok (.update_table_root schema.name _) fun cat page he _ => ?_
    obtain ⟨hre, ho'⟩ := Catalog.Rerooted.table_root hn ho hobj.1 he
    refine wp_post (hindexes _ hre.named ho') fun _ s' h' => ?_
    exact ⟨h'.1, hre.trans h'.2.1, h'.2.2⟩
  · exact hindexes s hn ho

/-! ### Searches -/

section search

variable {ref_row : Row} {fk : ForeignKeyConstraint} {child_table : Bytes}

theorem referenced_values_ok {found : Option Key} : ∀ {cols : List UInt32}, referenced_values ref_row cols = .ok found →
    if is_indexable (ref_row.values cols) then found = some (ref_row.values cols) else found = none
  | [], h => (Except.ok.inj h).symm
  | i :: cols, h => by
    unfold referenced_values at h
    cases hv : ref_row[i.toNat]? with
    | none => rw [hv] at h; cases h
    | some v =>
      have hvalues : ref_row.values (i :: cols) = v :: ref_row.values cols := by
        unfold Row.values
        rw [List.map_cons, hv]
        rfl
      have hindexable : is_indexable (v :: ref_row.values cols) = (!v.isNull && is_indexable (ref_row.values cols)) := rfl
      simp only [hv] at h
      rw [hvalues, hindexable]
      by_cases hnull : v.isNull = true
      · rw [if_pos hnull] at h
        rw [hnull]
        exact (Except.ok.inj h).symm
      · rw [if_neg hnull] at h
        obtain ⟨rest, hrest, h⟩ := except_bind_ok h
        obtain rfl := Except.ok.inj h
        have ih := referenced_values_ok hrest
        rw [Bool.not_eq_true] at hnull
        rw [hnull, Bool.not_false, Bool.true_and]
        split
        · rename_i hyes
          rw [if_pos hyes] at ih
          rw [ih]
          rfl
        · rename_i hno
          rw [if_neg hno] at ih
          rw [ih]
          rfl

theorem values_hasNaN (hrow : ∀ v ∈ ref_row, v.isNaN = false) (cols : List UInt32) : (ref_row.values cols).hasNaN = false := by
  refine Key.hasNaN_eq_false.2 fun v hv => ?_
  obtain ⟨i, -, rfl⟩ := List.mem_map.1 hv
  cases hr : ref_row[i.toNat]? with
  | none => rfl
  | some w => exact hrow w (List.mem_of_getElem? hr)

/-- **The rows that an index finds**: those that reference the row. -/
theorem find_children_spec (h : s.Represents C) (hn : s.catalog.Named) (hl : s.catalog.tables.lookup child_table = some schema)
    (hfk : fk ∈ schema.foreign_keys) (haligned : fk.column_indices.length = fk.ref_column_indices.length)
    (hrow : ∀ v ∈ ref_row, v.isNaN = false) :
    wp (find_children ref_row child_table fk) (fun _ _ => True)
      (fun children s' => s' = s ∧ (∀ child ∈ children, child.child_table = child_table ∧ child.constraint = fk) ∧
        ∀ pk, (∃ child ∈ children, pk ∈ child.child_primary_keys) ↔ ∃ e ∈ C child_table, fk.References e.2 ref_row ∧ e.1 = pk) s := by
  obtain ⟨hbinds, hrep, hsound⟩ := h.binds hn hl
  obtain ⟨index, hindex, htable, hat⟩ := h.child_index child_table schema hl fk hfk
  have hname : schema.name = child_table := hn.tables _ _ hl
  have hiname : index.name = fk.child_index_name := hn.indexes _ _ hindex
  have hcols : (index.binding schema).column_indices = fk.column_indices.map UInt32.toNat := by
    unfold TableSchema.At at hat
    unfold IndexSchema.binding
    have hmap := congrArg (List.map fun o : Option ℕ => o.getD 0) hat
    rw [List.map_map, List.map_map] at hmap
    exact hmap
  have hlen : index.column_names.length = fk.column_indices.length := by
    have := congrArg List.length hat
    rwa [List.length_map, List.length_map] at this
  have hvalue : ∀ row, (index.binding schema).value row = row.values fk.column_indices := by
    intro row
    unfold IndexBinding.value Row.values
    rw [hcols, List.map_map]
    rfl
  have hidx : index.binding schema ∈ (s.opened_table schema).indexes :=
    (mem_opened_table hn).2 ⟨index, by rw [hiname]; exact hindex, htable.trans hname.symm, rfl⟩
  unfold find_children
  rw [wp_bind]
  refine wp_liftE (fun found hfound => ?_) fun _ _ => trivial
  have hfound' : referenced_values ref_row fk.ref_column_indices = .ok found := by
    cases hr : referenced_values ref_row fk.ref_column_indices with
    | error e => rw [hr] at hfound; cases hfound
    | ok found' =>
      rw [hr] at hfound
      exact congrArg Except.ok (Except.ok.inj hfound)
  have hvalues := referenced_values_ok hfound'
  by_cases hindexable : is_indexable (ref_row.values fk.ref_column_indices) = true
  · rw [if_pos hindexable] at hvalues
    subst hvalues
    simp only [wp_bind]
    unfold get_index
    rw [wp_bind, wp_get, hindex]
    unfold get_table
    rw [wp_pure, wp_bind, wp_get, hl]
    rw [wp_pure]
    unfold index_find
    rw [wp_bind]
    refine wp_open_tree (h.opened.indexes _ _ hindex) ?_
    have hlength : (ref_row.values fk.ref_column_indices).length = index.column_names.length := by
      unfold Row.values
      rw [List.length_map, hlen, haligned]
    rw [if_neg (by rw [hindexable]; exact fun h => by cases h), if_neg (by rw [hlength]; exact lt_irrefl _), wp_bind]
    refine wp_on_trees_run ?_
    unfold btree_prefix_scan
    rw [wp_bind, wp_btree_scan_all, wp_pure, wp_pure]
    have himage := hrep.indexes _ hidx
    have hscan := scan_value (s := ⟨s.trees, 0, fun _ => 0, 1⟩) hsound.fits himage
      (by rw [hcols, List.length_map, hlength, hlen]) (values_hasNaN hrow fk.ref_column_indices)
    have hfound : ∀ pk, pk ∈ ((s.trees.tree (.index index.name)).entries.entries.filter fun e =>
        e.1.hasPrefix (ref_row.values fk.ref_column_indices)).map (fun e => e.1.drop index.column_names.length) ↔
          ∃ e ∈ C child_table, fk.References e.2 ref_row ∧ e.1 = pk := by
      intro pk
      have hdrop : ∀ e : Key × Row, ((index.binding schema).value e.2 ++ e.1).drop index.column_names.length = e.1 := by
        intro e
        have hl : index.column_names.length = ((index.binding schema).value e.2).length := by
          rw [value_length, hcols, List.length_map, hlen]
        rw [hl, List.drop_left]
      rw [List.mem_map]
      constructor
      · rintro ⟨⟨key, v⟩, hmem, rfl⟩
        obtain ⟨e, he, hix, hr, rfl⟩ := (hscan key).1 ⟨v, hmem⟩
        rw [hvalue] at hix hr
        exact ⟨e, he, ⟨hix, hr⟩, (hdrop e).symm⟩
      · rintro ⟨e, he, ⟨hix, hr⟩, rfl⟩
        rw [← hvalue] at hix hr
        obtain ⟨v, hmem⟩ := (hscan _).2 ⟨e, he, hix, hr, rfl⟩
        exact ⟨_, hmem, hdrop e⟩
    refine ⟨rfl, fun child hchild => ?_, fun pk => ?_⟩
    · split at hchild
      · exact absurd hchild List.not_mem_nil
      · obtain rfl := List.mem_singleton.1 hchild
        exact ⟨rfl, rfl⟩
    · rw [← hfound pk]
      split
      · rename_i hempty
        rw [List.isEmpty_iff.1 hempty]
        refine ⟨?_, fun hpk => absurd hpk List.not_mem_nil⟩
        rintro ⟨_, hchild, -⟩
        exact absurd hchild List.not_mem_nil
      · refine ⟨?_, fun hpk => ⟨_, List.mem_singleton_self _, hpk⟩⟩
        rintro ⟨child, hchild, hpk⟩
        obtain rfl := List.mem_singleton.1 hchild
        exact hpk
  · rw [if_neg hindexable] at hvalues
    subst hvalues
    refine ⟨rfl, fun child hchild => absurd hchild List.not_mem_nil, fun pk => ?_⟩
    constructor
    · rintro ⟨_, hchild, -⟩
      exact absurd hchild List.not_mem_nil
    · rintro ⟨e, -, ⟨hix, hr⟩, -⟩
      rw [Key.is_indexable_of_rank hr] at hix
      exact absurd hix hindexable

end search

end GSDBEngine