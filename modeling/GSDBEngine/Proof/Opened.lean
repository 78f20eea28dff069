import GSDBEngine.Spec.Statements
import GSDBEngine.Proof.Reroot
import GSDBEngine.Proof.Calls

/-!
# A table of the database is written

A `Table` is opened with the roots of the catalog, its calls move them, and the catalog takes them again. In between the catalog is
behind the trees, for the trees of this table only.

* `Table.Synced`: the roots of the object are those of its trees. Every call keeps it.
* `Catalog.Sane`: what holds of the catalog between statements, whatever its roots.
* `ExecState.Ready`: **what holds of the database between statements.** `persist_ready`: a table that is written is ready again.
-/

namespace GSDBEngine

open Eff

/-! ### Roots of the object -/

namespace Table

variable {tbl : Table} {α : Type}

/-- **The roots of the object are those of the trees.** -/
structure Synced (tbl : Table) (st : TableState) : Prop where
  rows : st.root_page = (st.trees.tree tbl.rows).root.1
  indexes : ∀ idx ∈ tbl.indexes, st.index_root_page idx.schema.name = (st.trees.tree (.index idx.schema.name)).root.1

theorem Synced.write_rows {st : TableState} (h : tbl.Synced st) (m : KeyMap) : tbl.Synced (st.write tbl.rows m) where
  rows := by
    show (st.trees.roots 0).1 = (Function.update st.trees.tree tbl.rows ⟨m, st.trees.roots 0⟩ tbl.rows).root.1
    rw [Function.update_self]
  indexes idx hidx := by
    show st.index_root_page idx.schema.name = (Function.update st.trees.tree tbl.rows ⟨m, st.trees.roots 0⟩ (.index idx.schema.name)).root.1
    rw [Function.update_of_ne fun heq => rows_ne_index tbl _ heq.symm]
    exact h.indexes idx hidx

theorem Synced.write_index {st : TableState} (h : tbl.Synced st) (name : Bytes) (m : KeyMap) : tbl.Synced (st.write (.index name) m) where
  rows := by
    show st.root_page = (Function.update st.trees.tree (.index name) ⟨m, st.trees.roots 0⟩ tbl.rows).root.1
    rw [Function.update_of_ne (rows_ne_index tbl name)]
    exact h.rows
  indexes idx hidx := by
    show Function.update st.index_root_page name (st.trees.roots 0).1 idx.schema.name = (Function.update st.trees.tree (.index name) ⟨m, st.trees.roots 0⟩ (.index idx.schema.name)).root.1
    by_cases hname : idx.schema.name = name
    · rw [hname, Function.update_self, Function.update_self]
    · rw [Function.update_of_ne hname, Function.update_of_ne fun heq => hname (TreeName.index.inj heq)]
      exact h.indexes idx hidx

theorem Synced.next {st : TableState} (h : tbl.Synced st) (n : UInt32) : tbl.Synced { st with next_auto_increment := n } := ⟨h.rows, h.indexes⟩

/-! ### Every call keeps them -/

section keeps

variable {I : TableState → Prop}

/-- A tree that the table writes. -/
def Writes (tbl : Table) (t : TreeName) : Prop := t = tbl.rows ∨ ∃ name, t = .index name

/-- What the writes of a table keep, and the moves of its counter. -/
structure Stable (tbl : Table) (I : TableState → Prop) : Prop where
  write : ∀ st t m, tbl.Writes t → I st → I (st.write t m)
  next : ∀ st n, I st → I { st with next_auto_increment := n }

theorem synced_stable (tbl : Table) : tbl.Stable tbl.Synced where
  write st t m ht h := by
    rcases ht with rfl | ⟨name, rfl⟩
    · exact h.write_rows m
    · exact h.write_index name m
  next st n h := h.next n

variable (hI : tbl.Stable I)

theorem keeps_search (t : TreeName) (key : Key) : Upholds I (btree_search t key) := Upholds.bind Upholds.get fun _ => Upholds.pure _

theorem keeps_scan_all (t : TreeName) : Upholds I (btree_scan_all t) := Upholds.bind Upholds.get fun _ => Upholds.pure _

theorem keeps_prefix_scan (t : TreeName) (start : Key) : Upholds I (btree_prefix_scan t start) := Upholds.bind (keeps_scan_all t) fun _ => Upholds.pure _

theorem keeps_check_unique (idx : IndexBinding) (indexed_value pk : Key) : Upholds I (idx.check_unique indexed_value pk) :=
  Upholds.ite (fun _ => Upholds.bind (keeps_prefix_scan _ _) fun _ => Upholds.ite (fun _ => Upholds.throw _) fun _ => Upholds.pure _) fun _ => Upholds.pure _

theorem keeps_make_entry_key (idx : IndexBinding) (indexed_value pk : Key) : Upholds I (idx.make_entry_key indexed_value pk) :=
  Upholds.ite (fun _ => Upholds.throw _) fun _ => Upholds.ite (fun _ => Upholds.throw _) fun _ => Upholds.pure _

theorem keeps_check_all (row : Row) (pk : Key) : Upholds I (tbl.check_all_unique_constraints row pk) :=
  Upholds.forM fun _ _ => Upholds.bind (Upholds.liftE _) fun iv => keeps_check_unique _ iv pk

theorem keeps_extract (row : Row) : Upholds I (liftE (tbl.schema.extract_primary_key row)) := Upholds.liftE _

theorem keeps_assign_key (row : Row) : Upholds I (tbl.assign_key row) := by
  unfold assign_key
  split
  · exact Upholds.pure _
  · split
    · exact Upholds.throw _
    · exact Upholds.ite (fun _ => Upholds.bind Upholds.get fun _ => Upholds.pure _) fun _ => Upholds.pure _

theorem keeps_plan (nv : NewValues) : ∀ (claimed : List (List Key)) (ms : List ScanResult), Upholds I (tbl.plan nv claimed ms)
  | _, [] => Upholds.pure _
  | claimed, m :: ms => by
    refine Upholds.bind (Upholds.liftE _) fun row => Upholds.bind (Upholds.liftE _) fun key => Upholds.bind (keeps_check_all row _) fun _ => ?_
    exact Upholds.bind (Upholds.liftE _) fun claimed => Upholds.bind (keeps_plan nv claimed ms) fun _ => Upholds.pure _

theorem keeps_check_keys : ∀ (final_keys : List Key) (us : List PlannedUpdate), Upholds I (tbl.check_keys final_keys us)
  | _, [] => Upholds.pure _
  | final_keys, u :: us => by
    refine Upholds.bind (keeps_search _ _) fun existing => Upholds.ite (fun _ => Upholds.throw _) fun _ => ?_
    exact Upholds.ite (fun _ => Upholds.throw _) fun _ => keeps_check_keys _ us

include hI

theorem keeps_insert_tree {t : TreeName} (ht : tbl.Writes t) (key : Key) (value : Bytes) : Upholds I (btree_insert t key value) := by
  intro st hst
  unfold btree_insert
  rw [wp_bind, wp_get]
  split
  · exact hst
  · exact hI.write st t _ ht hst

theorem keeps_remove_tree {t : TreeName} (ht : tbl.Writes t) (key : Key) : Upholds I (btree_remove t key) := by
  intro st hst
  unfold btree_remove
  rw [wp_bind, wp_get]
  split
  · exact hst
  · exact hI.write st t _ ht hst

theorem keeps_insert_entry (idx : IndexBinding) (indexed_value pk : Key) : Upholds I (idx.insert_entry indexed_value pk) :=
  Upholds.ite (fun _ => Upholds.bind (keeps_check_unique idx _ _) fun _ => Upholds.bind (keeps_make_entry_key idx _ _) fun key =>
    keeps_insert_tree hI (.inr ⟨_, rfl⟩) key []) fun _ => Upholds.pure _

theorem keeps_remove_entry (idx : IndexBinding) (indexed_value pk : Key) : Upholds I (idx.remove_entry indexed_value pk) :=
  Upholds.ite (fun _ => Upholds.bind (keeps_make_entry_key idx _ _) fun key => keeps_remove_tree hI (.inr ⟨_, rfl⟩) key) fun _ => Upholds.pure _

theorem keeps_write_row (pk : Key) (row : Row) (bytes : Bytes) : Upholds I (tbl.write_row_and_indexes pk row bytes) :=
  Upholds.bind (keeps_insert_tree hI (.inl rfl) pk bytes) fun _ =>
    Upholds.forM fun idx _ => Upholds.bind (Upholds.liftE _) fun iv => keeps_insert_entry hI idx iv pk

theorem keeps_remove_row (pk : Key) (row : Row) : Upholds I (tbl.remove_row_and_indexes pk row) :=
  Upholds.bind (keeps_remove_tree hI (.inl rfl) pk) fun _ =>
    Upholds.forM fun idx _ => Upholds.bind (Upholds.liftE _) fun iv => keeps_remove_entry hI idx iv pk

theorem keeps_advance (key : Key) : Upholds I (tbl.advance_auto_increment key) := by
  refine Upholds.ite (fun _ => ?_) fun _ => Upholds.pure _
  split
  · refine Upholds.modify fun st hst => ?_
    split
    · exact hI.next st _ hst
    · exact hst
  · exact Upholds.throw _

theorem keeps_insert (row : Row) : Upholds I (tbl.insert row) := by
  refine Upholds.bind (keeps_assign_key row) fun row => Upholds.bind (Upholds.liftE _) fun pk => Upholds.bind (keeps_search _ _) fun existing => ?_
  refine Upholds.ite (fun _ => Upholds.throw _) fun _ => ?_
  refine Upholds.bind (keeps_check_all row pk) fun _ => Upholds.bind (Upholds.liftE _) fun bytes => ?_
  exact Upholds.bind (keeps_write_row hI pk row bytes) fun _ => Upholds.bind (keeps_advance hI pk) fun _ => Upholds.pure _

theorem keeps_delete_row (pk : Key) : Upholds I (tbl.delete_row pk) := by
  refine Upholds.bind (keeps_search _ _) fun found => ?_
  cases found with
  | none => exact Upholds.throw _
  | some bytes => exact Upholds.bind (Upholds.liftE _) fun row => keeps_remove_row hI pk row

theorem keeps_update_matched (ms : List ScanResult) (nv : NewValues) : Upholds I (tbl.update_matched ms nv) := by
  refine Upholds.bind (keeps_plan nv _ ms) fun us => Upholds.bind (keeps_check_keys [] us) fun _ => ?_
  refine Upholds.bind (Upholds.forM fun u _ => Upholds.bind (Upholds.liftE _) fun bytes => ?_) fun _ => Upholds.bind (Upholds.forM fun u _ => ?_) fun _ => Upholds.pure _
  · exact Upholds.bind (keeps_remove_row hI _ _) fun _ => keeps_write_row hI _ _ bytes
  · exact Upholds.ite (fun _ => Upholds.pure _) fun _ => keeps_advance hI _

end keeps

end Table

/-! ### The catalog -/

section catalog

variable {s s' : ExecState} {cat cat' : Catalog} {C : AllContents}

/-- Page 1 has the maps as they are. -/
def CatalogManager.Current (m : CatalogManager) : Prop := m.page = m.serialize ++ List.replicate (PAGE_SIZE - m.serialize.length) 0

/-- A call that returns leaves page 1 current. -/
theorem wp_on_catalog_current (call : CatalogCall) {E : DdlErr → ExecState → Prop} {P : Unit → ExecState → Prop}
    (hQ : ∀ m : CatalogManager, call.edited s.catalog.toCatalog = some m.toCatalog → m.Current → m.serialize.length ≤ PAGE_SIZE →
      P () { s with catalog := m })
    (hrefused : call.edited s.catalog.toCatalog = none → ∀ e, E (.catalog e) s)
    (hlarge : ∀ cat, call.edited s.catalog.toCatalog = some cat → PAGE_SIZE < cat.serialize.length → ∀ e,
      E (.catalog e) { s with catalog := { s.catalog with toCatalog := cat } }) : wp (on_catalog call.body) E P s := by
  unfold wp on_catalog
  rw [CatalogCall.body_eq]
  cases h : call.edited s.catalog.toCatalog with
  | none => exact hrefused h _
  | some cat =>
    simp only [CatalogManager.persist_eq]
    by_cases hl : cat.serialize.length > PAGE_SIZE
    · rw [if_pos hl]
      exact hlarge cat h hl _
    · rw [if_neg hl]
      exact hQ ⟨cat, _⟩ h rfl (not_lt.1 hl)

/-- What is written of an entry that is replaced is as long. -/
theorem NameMap.length_insert {α : Type} {f : α → Bytes} {m : NameMap α} {name : Bytes} {x y : α} (hl : m.lookup name = some x)
    (hf : (f y).length = (f x).length) :
    (write_list f ((m.insert name y).entries.map Sigma.snd)).length = (write_list f (m.entries.map Sigma.snd)).length := by
  have hmem : name ∈ List.keys m.entries := AList.mem_keys.1 (AList.lookup_isSome.1 (by rw [hl]; rfl))
  obtain ⟨b, l₁, l₂, -, hentries, herase⟩ := List.exists_of_kerase hmem
  have hb : m.lookup name = some b := AList.mem_lookup_iff.2 (by rw [hentries]; exact List.mem_append_right _ List.mem_cons_self)
  obtain rfl := Option.some.inj (hl.symm.trans hb)
  have hsize : ∀ n, (write_size n).length = 4 := fun n => rfl
  unfold write_list
  rw [List.length_append, List.length_append, hsize, hsize, AList.entries_insert, herase, hentries]
  simp only [List.map_cons, List.map_append, List.flatMap_cons, List.flatMap_append, List.length_append, hf]
  omega

theorem write_table_root (schema : TableSchema) (root : UInt32) :
    (write_table { schema with root_page := root }).length = (write_table schema).length := by
  unfold write_table
  simp only [List.length_append]
  rfl

theorem write_index_root (idx : IndexSchema) (root : UInt32) : (write_index { idx with root_page := root }).length = (write_index idx).length := by
  unfold write_index
  simp only [List.length_append]
  rfl

/-- **A root takes as much room as another.** -/
theorem serialize_table_root {table_name : Bytes} {root : UInt32} (he : (CatalogCall.update_table_root table_name root).edited cat = some cat') :
    cat'.serialize.length = cat.serialize.length := by
  obtain ⟨schema, hl, rfl⟩ := Option.map_eq_some_iff.1 he
  unfold Catalog.serialize
  rw [List.length_append, List.length_append, NameMap.length_insert hl (write_table_root schema root)]

theorem serialize_index_root {index_name : Bytes} {root : UInt32} (he : (CatalogCall.update_index_root index_name root).edited cat = some cat') :
    cat'.serialize.length = cat.serialize.length := by
  obtain ⟨idx, hl, rfl⟩ := Option.map_eq_some_iff.1 he
  unfold Catalog.serialize
  rw [List.length_append, List.length_append, NameMap.length_insert hl (write_index_root idx root)]

end catalog

/-- **What holds of the catalog between statements**, whatever its roots. -/
structure Catalog.Sane (cat : Catalog) : Prop where
  wellformed : cat.Wellformed
  supported : cat.Supported
  ordered : cat.Ordered
  /-- an index is of a table -/
  owned : ∀ name idx, cat.indexes.lookup name = some idx → (cat.tables.lookup idx.table_name).isSome = true
  /-- a CHECK is on the first column of its name -/
  checks : ∀ name schema, cat.tables.lookup name = some schema → ∀ c ∈ schema.checks,
    ∃ col, schema.columns[c.column_index.toNat]? = some col ∧ schema.column_index col.name = some c.column_index.toNat

namespace Catalog

variable {cat cat' : Catalog}

theorem Supports.reroot {schema : TableSchema} {fk : ForeignKeyConstraint} (h : cat.Supports schema fk) (hc : cat.Rerooted cat') (root : UInt32) :
    cat'.Supports { schema with root_page := root } fk := by
  obtain ⟨⟨ref_schema, hl, hindex⟩, idx, hidx, htable, hat⟩ := h
  obtain ⟨ref_root, hl'⟩ := hc.table hl
  obtain ⟨idx_root, hidx'⟩ := hc.index hidx
  refine ⟨⟨_, hl', ?_⟩, _, hidx', htable, hat⟩
  split
  · rename_i hnone
    rwa [if_pos hnone] at hindex
  · rename_i hsome
    rw [if_neg hsome] at hindex
    obtain ⟨ref_idx, hr, ht, hunique, href⟩ := hindex
    obtain ⟨r, hr'⟩ := hc.index hr
    exact ⟨_, hr', ht, hunique, href⟩

theorem Sane.reroot (h : cat.Sane) (hc : cat.Rerooted cat') (hfits : cat'.serialize.length ≤ PAGE_SIZE) : cat'.Sane where
  wellformed := by
    refine ⟨hc.named, hfits, ?_⟩
    cases hl : cat'.indexes.lookup [] with
    | none => rfl
    | some idx' =>
      obtain ⟨idx, hl, -⟩ := hc.indexes [] idx' hl
      have hnone := h.wellformed.index_names
      rw [hl] at hnone
      cases hnone
  supported name schema' hl' fk hfk := by
    obtain ⟨schema, hl, heq⟩ := hc.tables name schema' hl'
    rw [heq] at hfk ⊢
    exact (h.supported name schema hl fk hfk).reroot hc _
  ordered := hc.ordered h.ordered
  owned name idx' hl' := by
    obtain ⟨idx, hl, heq⟩ := hc.indexes name idx' hl'
    obtain ⟨schema, hs⟩ := Option.isSome_iff_exists.1 (h.owned name idx hl)
    rw [heq]
    exact hc.tables_back _ schema hs
  checks name schema' hl' c hcheck := by
    obtain ⟨schema, hl, heq⟩ := hc.tables name schema' hl'
    rw [heq] at hcheck ⊢
    exact h.checks name schema hl c hcheck

end Catalog

/-! ### Between statements -/

/-- The catalog has the root of the tree. -/
def ExecState.Recorded (s : ExecState) : TreeName → Prop
  | .table name => ∀ schema, s.catalog.tables.lookup name = some schema → schema.root_page = (s.trees.tree (.table name)).root.1
  | .index name => ∀ idx, s.catalog.indexes.lookup name = some idx → idx.root_page = (s.trees.tree (.index name)).root.1

/-- **What holds of the database between statements.** -/
structure ExecState.Ready (s : ExecState) (C : AllContents) : Prop where
  sane : s.catalog.Sane
  current : s.catalog.Current
  recorded : ∀ t, s.Recorded t
  represents : s.Represents C

section ready

variable {s s' : ExecState} {C : AllContents} {name : Bytes} {schema : TableSchema} {S : Contents} {trees : Trees}

/-- The trees of two tables have other names. -/
theorem owns_other (hn : s.catalog.Named) {name' : Bytes} {schema' : TableSchema} (hname : schema.name = name) (hname' : schema'.name = name')
    (hne : name' ≠ name) {t : TreeName} (ht : Table.Owns ⟨schema', (s.catalog.get_indexes_for_table name').map (IndexSchema.binding schema')⟩ t) :
    ¬ (s.opened_table schema).Owns t := by
  rintro (hown | ⟨idx, hidx, hown⟩)
  · rcases ht with rfl | ⟨_, _, rfl⟩
    · have hsame : schema'.name = schema.name := TreeName.table.inj hown
      exact hne (by rw [← hname', ← hname, hsame])
    · cases hown
  · rcases ht with rfl | ⟨idx', hidx', rfl⟩
    · cases hown
    · obtain ⟨index, hindex, rfl⟩ := List.mem_map.1 hidx
      obtain ⟨index', hindex', rfl⟩ := List.mem_map.1 hidx'
      obtain ⟨hlookup, htable⟩ := (Catalog.mem_get_indexes_for_table hn).1 hindex
      obtain ⟨hlookup', htable'⟩ := (Catalog.mem_get_indexes_for_table hn).1 hindex'
      have hsame : index'.name = index.name := TreeName.index.inj hown
      rw [hsame] at hlookup'
      obtain rfl := Option.some.inj (hlookup.symm.trans hlookup')
      exact hne (by rw [← htable', htable, hname])

theorem Table.Holds.congr {tbl : Table} {bytes_of : Row → Bytes → Prop} {trees' : Trees} (h : tbl.Holds bytes_of trees S)
    (htrees : ∀ t, tbl.Owns t → trees'.tree t = trees.tree t) : tbl.Holds bytes_of trees' S where
  rows k bytes hmem := by
    rw [htrees _ (Or.inl rfl)] at hmem
    exact h.rows k bytes hmem
  stored e he := by
    rw [htrees _ (Or.inl rfl)]
    exact h.stored e he
  indexes idx hidx := by
    rw [htrees _ (Or.inr ⟨idx, hidx, rfl⟩)]
    exact h.indexes idx hidx

/-- **A table is written, and the others keep their rows.** -/
theorem ExecState.Represents.written (h : s.Represents C) (hn : s.catalog.Named) (hl : s.catalog.tables.lookup name = some schema)
    (hframe : ∀ t, ¬ (s.opened_table schema).Owns t → trees.tree t = s.trees.tree t) (hrep : (s.opened_table schema).Represents trees S)
    (hsound : (s.opened_table schema).Sound S) : ExecState.Represents { s with trees := trees } (Function.update C name S) where
  opened := h.opened
  table name' schema' hl' := by
    have hname : schema.name = name := hn.tables _ _ hl
    have hname' : schema'.name = name' := hn.tables _ _ hl'
    by_cases heq : name' = name
    · subst heq
      obtain rfl := Option.some.inj (hl.symm.trans hl')
      obtain ⟨hbinds, -, -⟩ := h.binds hn hl
      rw [hname] at hbinds
      unfold ExecState.opened_table at hrep hsound
      rw [hname] at hrep hsound
      rw [Function.update_self]
      exact ⟨_, Table.construct_eq_ok.2 ⟨hbinds, rfl⟩, hrep, hsound⟩
    · obtain ⟨tbl', hbind', hrep', hsound'⟩ := h.table name' schema' hl'
      rw [Function.update_of_ne heq]
      refine ⟨tbl', hbind', hrep'.congr fun t ht => hframe t ?_, hsound'⟩
      obtain ⟨-, rfl⟩ := Table.construct_eq_ok.1 hbind'
      exact owns_other hn hname hname' heq ht
  child_index := h.child_index

end ready

/-! ### Roots go to the catalog -/

/-- The catalog has taken other roots, and page 1 has them. -/
structure ExecState.Rerooting (s s' : ExecState) : Prop where
  trees : s'.trees = s.trees
  catalog : s.catalog.Rerooted s'.catalog.toCatalog
  opened : s'.catalog.Opened
  fits : s'.catalog.serialize.length ≤ PAGE_SIZE
  current : s'.catalog.Current

section persist

variable {s s' s'' : ExecState} {C : AllContents} {name : Bytes} {schema : TableSchema}

theorem ExecState.Rerooting.refl (hw : s.catalog.Wellformed) (ho : s.catalog.Opened) (hc : s.catalog.Current) : s.Rerooting s :=
  ⟨rfl, .refl hw.named, ho, hw.fits, hc⟩

theorem ExecState.Rerooting.trans (h : s.Rerooting s') (h' : s'.Rerooting s'') : s.Rerooting s'' :=
  ⟨h'.trees.trans h.trees, h.catalog.trans h'.catalog, h'.opened, h'.fits, h'.current⟩

theorem update_index_root_recorded (hn : s.catalog.Named) (ho : s.catalog.Opened) (hfits : s.catalog.serialize.length ≤ PAGE_SIZE)
    {idx : IndexSchema} (hl : s.catalog.indexes.lookup name = some idx) :
    wp (on_catalog (CatalogManager.update_index_root name (s.trees.tree (.index name)).root.1)) (fun _ _ => False)
      (fun _ s' => s.Rerooting s' ∧ s'.Recorded (.index name) ∧ ∀ t, t ≠ .index name → s.Recorded t → s'.Recorded t) s := by
  refine wp_on_catalog_current (.update_index_root name _) (fun m he hcur hle => ?_) (fun he => ?_) fun cat he hlarge => ?_
  · obtain ⟨hre, ho'⟩ := Catalog.Rerooted.index_root hn ho (s.trees.tree (.index name)).root.2 he
    have htables : m.tables = s.catalog.tables := by
      obtain ⟨idx', -, heq⟩ := Option.map_eq_some_iff.1 he
      rw [← heq]
    have hindexes : m.indexes = s.catalog.indexes.insert name { idx with root_page := (s.trees.tree (.index name)).root.1 } := by
      obtain ⟨idx', hl', heq⟩ := Option.map_eq_some_iff.1 he
      obtain rfl := Option.some.inj (hl.symm.trans hl')
      rw [← heq]
    refine ⟨⟨rfl, hre, ho', hle, hcur⟩, fun idx' hl' => ?_, fun t ht hrec => ?_⟩
    · change m.indexes.lookup name = some idx' at hl'
      rw [hindexes, AList.lookup_insert] at hl'
      rw [← Option.some.inj hl']
    · cases t with
      | table t =>
        intro schema hl'
        change m.tables.lookup t = some schema at hl'
        rw [htables] at hl'
        exact hrec schema hl'
      | index t =>
        intro idx' hl'
        change m.indexes.lookup t = some idx' at hl'
        rw [hindexes, AList.lookup_insert_ne fun heq => ht (by rw [heq])] at hl'
        exact hrec idx' hl'
  · have hnone : (s.catalog.indexes.lookup name).map _ = none := he
    rw [hl] at hnone
    cases hnone
  · rw [serialize_index_root he] at hlarge
    omega

theorem update_table_root_recorded (hn : s.catalog.Named) (ho : s.catalog.Opened) (hfits : s.catalog.serialize.length ≤ PAGE_SIZE)
    (hl : s.catalog.tables.lookup name = some schema) :
    wp (on_catalog (CatalogManager.update_table_root name (s.trees.tree (.table name)).root.1)) (fun _ _ => False)
      (fun _ s' => s.Rerooting s' ∧ s'.Recorded (.table name) ∧ ∀ t, t ≠ .table name → s.Recorded t → s'.Recorded t) s := by
  refine wp_on_catalog_current (.update_table_root name _) (fun m he hcur hle => ?_) (fun he => ?_) fun cat he hlarge => ?_
  · obtain ⟨hre, ho'⟩ := Catalog.Rerooted.table_root hn ho (s.trees.tree (.table name)).root.2 he
    have hindexes : m.indexes = s.catalog.indexes := by
      obtain ⟨schema', -, heq⟩ := Option.map_eq_some_iff.1 he
      rw [← heq]
    have htables : m.tables = s.catalog.tables.insert name { schema with root_page := (s.trees.tree (.table name)).root.1 } := by
      obtain ⟨schema', hl', heq⟩ := Option.map_eq_some_iff.1 he
      obtain rfl := Option.some.inj (hl.symm.trans hl')
      rw [← heq]
    refine ⟨⟨rfl, hre, ho', hle, hcur⟩, fun schema' hl' => ?_, fun t ht hrec => ?_⟩
    · change m.tables.lookup name = some schema' at hl'
      rw [htables, AList.lookup_insert] at hl'
      rw [← Option.some.inj hl']
    · cases t with
      | index t =>
        intro idx hl'
        change m.indexes.lookup t = some idx at hl'
        rw [hindexes] at hl'
        exact hrec idx hl'
      | table t =>
        intro schema' hl'
        change m.tables.lookup t = some schema' at hl'
        rw [htables, AList.lookup_insert_ne fun heq => ht (by rw [heq])] at hl'
        exact hrec schema' hl'
  · have hnone : (s.catalog.tables.lookup name).map _ = none := he
    rw [hl] at hnone
    cases hnone
  · rw [serialize_table_root he] at hlarge
    omega

/-- **The roots that the calls of a table have left go to the catalog**, and nothing of it fails. -/
theorem persist_recorded (hw : s.catalog.Wellformed) (ho : s.catalog.Opened) (hc : s.catalog.Current)
    (hl : s.catalog.tables.lookup schema.name = some schema) {obj : TableState} (htrees : obj.trees = s.trees)
    (hsync : (s.opened_table schema).Synced obj) (hrest : ∀ t, ¬ (s.opened_table schema).Owns t → s.Recorded t) :
    wp (persist_roots schema (s.opened_table schema) obj) (fun _ _ => False) (fun _ s' => s.Rerooting s' ∧ ∀ t, s'.Recorded t) s := by
  -- what is still to do is of the indexes
  have hindexes : ∀ s₁ : ExecState, s.Rerooting s₁ →
      (∀ t, (∀ idx ∈ (s.opened_table schema).indexes, t ≠ .index idx.schema.name) → s₁.Recorded t) →
      wp ((s.opened_table schema).indexes.forM fun idx =>
          on_catalog (CatalogManager.update_index_root idx.schema.name (obj.index_root_page idx.schema.name)))
        (fun _ _ => False) (fun _ s' => s.Rerooting s' ∧ ∀ t, s'.Recorded t) s₁ := by
    intro s₁ h₁ hrec₁
    refine wp_post (wp_forM (I := fun todo s' => (∀ idx ∈ todo, idx ∈ (s.opened_table schema).indexes) ∧ s.Rerooting s' ∧
      ∀ t, (∀ idx ∈ todo, t ≠ .index idx.schema.name) → s'.Recorded t) (fun idx todo s₂ h₂ => ?_) _ _ ⟨fun _ h => h, h₁, hrec₁⟩)
      fun _ s' h => ⟨h.2.1, fun t => h.2.2 t fun _ hmem => absurd hmem List.not_mem_nil⟩
    obtain ⟨hmem, hre₂, hrec₂⟩ := h₂
    have hidx := hmem idx List.mem_cons_self
    obtain ⟨index, hindex, -, rfl⟩ := (mem_opened_table hw.named).1 hidx
    obtain ⟨root, hindex₂⟩ := hre₂.catalog.index hindex
    have hroot : obj.index_root_page index.name = (s₂.trees.tree (.index index.name)).root.1 := by
      rw [hre₂.trees, ← htrees]
      exact hsync.indexes _ hidx
    show wp (on_catalog (CatalogManager.update_index_root index.name (obj.index_root_page index.name))) _ _ s₂
    rw [hroot]
    refine wp_post (update_index_root_recorded hre₂.catalog.named hre₂.opened hre₂.fits hindex₂) fun _ s₃ h₃ => ?_
    obtain ⟨hre₃, hown, hothers⟩ := h₃
    refine ⟨fun idx' hidx' => hmem idx' (List.mem_cons_of_mem _ hidx'), hre₂.trans hre₃, fun t ht => ?_⟩
    by_cases heq : t = .index index.name
    · rw [heq]
      exact hown
    · refine hothers t heq (hrec₂ t fun idx' hidx' => ?_)
      rcases List.mem_cons.1 hidx' with rfl | hidx'
      · exact heq
      · exact ht idx' hidx'
  have hroot : obj.root_page = (s.trees.tree (.table schema.name)).root.1 := by
    rw [← htrees]
    exact hsync.rows
  have hnot : ∀ t, t ≠ .table schema.name → (∀ idx ∈ (s.opened_table schema).indexes, t ≠ .index idx.schema.name) → s.Recorded t := by
    intro t ht hidx
    refine hrest t ?_
    rintro (hown | ⟨idx, hmem, hown⟩)
    · exact ht hown
    · exact hidx idx hmem hown
  unfold persist_roots
  dsimp only
  split
  · rw [wp_bind, hroot]
    refine wp_post (update_table_root_recorded hw.named ho hw.fits hl) fun _ s₁ h₁ => ?_
    obtain ⟨hre₁, hown, hothers⟩ := h₁
    refine hindexes s₁ hre₁ fun t ht => ?_
    by_cases heq : t = .table schema.name
    · rw [heq]
      exact hown
    · exact hothers t heq (hnot t heq ht)
  · rename_i hsame
    refine hindexes s (.refl hw ho hc) fun t ht => ?_
    by_cases heq : t = .table schema.name
    · rw [heq]
      intro schema' hl'
      obtain rfl := Option.some.inj (hl.symm.trans hl')
      exact (not_not.1 hsame).symm.trans hroot
    · exact hnot t heq ht

/-- **A table that was written is ready again.** -/
theorem persist_ready (h : s.Ready C) (hl : s.catalog.tables.lookup name = some schema) {obj : TableState} {S : Contents}
    (hframe : ∀ t, ¬ (s.opened_table schema).Owns t → obj.trees.tree t = s.trees.tree t)
    (hrep : (s.opened_table schema).Represents obj.trees S) (hsound : (s.opened_table schema).Sound S)
    (hsync : (s.opened_table schema).Synced obj) :
    wp (persist_roots schema (s.opened_table schema) obj) (fun _ _ => False)
      (fun _ s' => s'.Ready (Function.update C name S) ∧ s.catalog.Rerooted s'.catalog.toCatalog ∧ s'.trees = obj.trees)
      { s with trees := obj.trees } := by
  have hn := h.sane.wellformed.named
  have hname : schema.name = name := hn.tables _ _ hl
  have hwritten := h.represents.written hn hl hframe hrep hsound
  have hrest : ∀ t, ¬ (s.opened_table schema).Owns t → ExecState.Recorded { s with trees := obj.trees } t := by
    intro t ht
    have hrec := h.recorded t
    cases t with
    | table t =>
      intro schema' hl'
      show schema'.root_page = (obj.trees.tree (.table t)).root.1
      rw [hframe _ ht]
      exact hrec schema' hl'
    | index t =>
      intro idx hl'
      show idx.root_page = (obj.trees.tree (.index t)).root.1
      rw [hframe _ ht]
      exact hrec idx hl'
  refine wp_post (persist_recorded (s := { s with trees := obj.trees }) h.sane.wellformed h.represents.opened h.current
    (by rw [hname]; exact hl) rfl hsync hrest) fun _ s' h' => ?_
  obtain ⟨hre, hrec⟩ := h'
  exact ⟨⟨h.sane.reroot hre.catalog hre.fits, hre.current, hrec, hwritten.reroot hn hre.trees hre.catalog hre.opened⟩, hre.catalog, hre.trees⟩

end persist

/-! ### Opening -/

section open_

variable {s s' : ExecState} {C : AllContents} {name : Bytes} {schema : TableSchema} {S : Contents}

/-- The counter of a new object. -/
theorem init_next_key {tbl : Table} {t : TableState} (hrep : tbl.Represents t.trees S) (hS : tbl.Sound S) (hone : t.next_auto_increment = 1) :
    wp tbl.init_auto_increment (fun _ _ => False) (fun _ t' => t' = { t with next_auto_increment := tbl.next_key t.trees }) t := by
  unfold Table.init_auto_increment Table.next_key
  have hst : t = { t with next_auto_increment := 1 } := by rw [← hone]
  by_cases ha : tbl.schema.auto_increment_column.isSome = true
  · rw [if_pos ha, if_pos ha, wp_bind, wp_btree_scan_all]
    cases hlast : (t.trees.tree tbl.rows).entries.entries.getLast? with
    | none => exact hst
    | some e =>
      -- every key is an INT
      obtain ⟨row, hrow, -⟩ := hrep.rows e.1 e.2 (List.mem_of_getLast? hlast)
      obtain ⟨v, hv⟩ := (hS.fits _ hrow).auto_key ha
      obtain ⟨key, bytes⟩ := e
      obtain rfl : key = [.int v] := hv
      exact rfl
  · rw [if_neg ha, if_neg ha]
    exact hst

theorem open_indexes_roots {owned : List IndexSchema} {r : Bytes → UInt32} (h : ∀ idx ∈ owned, idx.root_page = r idx.name)
    (hvalid : ∀ idx ∈ owned, idx.root_page.toNat ≠ INVALID_PAGE) {E : DdlErr → ExecState → Prop} :
    wp (open_indexes owned) E (fun roots s' => s' = s ∧ ∀ idx ∈ owned, roots idx.name = r idx.name) s := by
  induction owned with
  | nil => exact ⟨rfl, fun _ h => absurd h List.not_mem_nil⟩
  | cons index owned ih =>
    unfold open_indexes
    simp only [wp_bind]
    refine wp_open_tree (hvalid index List.mem_cons_self) ?_
    refine wp_post (ih (fun idx hidx => h idx (List.mem_cons_of_mem _ hidx)) fun idx hidx => hvalid idx (List.mem_cons_of_mem _ hidx))
      fun roots s' h' => ?_
    obtain ⟨rfl, hroots⟩ := h'
    refine ⟨rfl, fun idx hidx => ?_⟩
    by_cases hname : idx.name = index.name
    · rw [hname, Function.update_self]
      exact h index List.mem_cons_self
    · rw [Function.update_of_ne hname]
      rcases List.mem_cons.1 hidx with rfl | hidx
      · exact absurd rfl hname
      · exact hroots idx hidx

/-- **A table is opened**, with some of its indexes, and called: nothing else can fail, and nothing else is written. -/
theorem on_table_ready {α : Type} {owned : List IndexSchema} {m : Table → TableM α} {E : DdlErr → ExecState → Prop}
    {P : α × Table × TableState → ExecState → Prop} (h : s.Ready C) (hl : s.catalog.tables.lookup name = some schema)
    (howned : ∀ idx ∈ owned, idx ∈ s.catalog.get_indexes_for_table schema.name)
    (hm : ∀ st : TableState, st.trees = s.trees → Table.Synced ⟨schema, owned.map (IndexSchema.binding schema)⟩ st →
      st.next_auto_increment = Table.next_key (s.opened_table schema) s.trees →
      wp (m ⟨schema, owned.map (IndexSchema.binding schema)⟩) (fun e obj => E (.table e) { s with trees := obj.trees })
        (fun a obj => P (a, ⟨schema, owned.map (IndexSchema.binding schema)⟩, obj) { s with trees := obj.trees }) st) :
    wp (on_table schema owned m) E P s := by
  have hn := h.sane.wellformed.named
  have hname : schema.name = name := hn.tables _ _ hl
  obtain ⟨hbinds, hrep, hsound⟩ := h.represents.binds hn hl
  have hlookup : ∀ idx ∈ owned, s.catalog.indexes.lookup idx.name = some idx := fun idx hidx =>
    ((Catalog.mem_get_indexes_for_table hn).1 (howned idx hidx)).1
  have hroots : ∀ idx ∈ owned, idx.root_page = (s.trees.tree (.index idx.name)).root.1 := fun idx hidx =>
    h.recorded (.index idx.name) idx (hlookup idx hidx)
  have hroot : schema.root_page = (s.trees.tree (.table name)).root.1 := h.recorded (.table name) schema hl
  unfold on_table
  simp only [wp_bind]
  refine wp_post (open_indexes_roots (r := fun n => (s.trees.tree (.index n)).root.1) hroots fun idx hidx => ?_) fun roots s₁ h₁ => ?_
  · exact h.represents.opened.indexes _ _ (hlookup idx hidx)
  obtain ⟨rfl, hidx⟩ := h₁
  refine wp_open_tree (h.represents.opened.tables _ _ hl) ?_
  have hconstruct : Table.construct schema owned = .ok ⟨schema, owned.map (IndexSchema.binding schema)⟩ :=
    Table.construct_eq_ok.2 ⟨fun idx hidx => hbinds idx (howned idx hidx), rfl⟩
  rw [hconstruct]
  refine wp_on_trees_run ?_
  rw [wp_bind]
  have hrep' : Table.Represents ⟨schema, owned.map (IndexSchema.binding schema)⟩ s₁.trees (C name) := by
    refine ⟨hrep.rows, hrep.stored, fun idx hidx => hrep.indexes idx ?_⟩
    obtain ⟨index, hindex, rfl⟩ := List.mem_map.1 hidx
    exact List.mem_map_of_mem (howned index hindex)
  have hsound' : Table.Sound ⟨schema, owned.map (IndexSchema.binding schema)⟩ (C name) := by
    have hsub : ∀ idx ∈ owned.map (IndexSchema.binding schema), idx ∈ (s₁.opened_table schema).indexes := by
      intro idx hidx
      obtain ⟨index, hindex, rfl⟩ := List.mem_map.1 hidx
      exact List.mem_map_of_mem (howned index hindex)
    refine ⟨fun e he => ?_, hsound.one, fun idx hidx => hsound.unique idx (hsub idx hidx)⟩
    obtain ⟨hkey, hserial, hvalues, hnumbers⟩ := hsound.fits e he
    exact ⟨hkey, hserial, fun idx hidx => hvalues idx (hsub idx hidx), hnumbers⟩
  refine wp_mono (init_next_key (t := ⟨s₁.trees, schema.root_page, roots, 1⟩) hrep' hsound' rfl) (fun _ st hst => ?_) fun _ _ hf => hf.elim
  subst hst
  refine hm _ rfl ⟨?_, fun idx hmem => ?_⟩ rfl
  · show schema.root_page = (s₁.trees.tree (.table schema.name)).root.1
    rw [hname]
    exact hroot
  · obtain ⟨index, hindex, rfl⟩ := List.mem_map.1 hmem
    exact hidx index hindex

/-- A row is read by its key, and nothing fails. -/
theorem on_table_reads (h : s.Ready C) (hl : s.catalog.tables.lookup name = some schema) (key : Key) {E : DdlErr → ExecState → Prop} :
    wp (on_table schema [] fun read_tbl => read_tbl.select_by_key key) E
      (fun read s' => s' = s ∧ (read.1 = none → ∀ e ∈ C name, e.1.rank ≠ key.rank) ∧
        ∀ row, read.1 = some row → ∃ e ∈ C name, e.1.rank = key.rank ∧ e.2 = row) s := by
  obtain ⟨-, hrep, -⟩ := h.represents.binds h.sane.wellformed.named hl
  refine on_table_ready h hl (fun _ hmem => absurd hmem List.not_mem_nil) fun st htrees _ _ => ?_
  have hrep' : (s.opened_table schema).Represents st.trees (C name) := htrees ▸ hrep
  unfold Table.select_by_key
  rw [wp_bind, wp_btree_search]
  cases hfind : (st.trees.tree (s.opened_table schema).rows).entries.find? key with
  | none =>
    have hfind' : (st.trees.tree (Table.rows ⟨schema, [].map (IndexSchema.binding schema)⟩)).entries.find? key = none := hfind
    rw [hfind']
    exact ⟨by rw [htrees], fun _ => hrep'.find_none.1 hfind, fun row hrow => by cases hrow⟩
  | some bytes =>
    have hfind' : (st.trees.tree (Table.rows ⟨schema, [].map (IndexSchema.binding schema)⟩)).entries.find? key = some bytes := hfind
    rw [hfind']
    obtain ⟨e, he, hr, hbytes⟩ := hrep'.find_some hfind
    have hbytes' : deserialize_row schema bytes = .ok e.2 := hbytes
    simp only [wp_bind]
    refine wp_liftE (fun row hrow => ?_) fun err herr => ?_
    · have heq : e.2 = row := Except.ok.inj (hbytes'.symm.trans hrow)
      exact ⟨by rw [htrees], fun hnone => (by cases hnone), fun row' hrow' => ⟨e, he, hr, heq.trans (Option.some.inj hrow')⟩⟩
    · have herr' : deserialize_row schema bytes = .error err := herr
      rw [hbytes'] at herr'
      cases herr'

/-- A table is found in the catalog, or it is not there. -/
theorem get_table_spec (s : ExecState) (table_name : Bytes) :
    wp (get_table table_name) (fun _ s' => s' = s ∧ s.catalog.tables.lookup table_name = none)
      (fun schema s' => s' = s ∧ s.catalog.tables.lookup table_name = some schema) s := by
  unfold get_table
  rw [wp_bind, wp_get]
  cases hl : s.catalog.tables.lookup table_name with
  | none => exact ⟨rfl, rfl⟩
  | some schema => exact ⟨rfl, rfl⟩

end open_

end GSDBEngine
