import GSDBEngine.Spec.Ddl
import GSDBEngine.Proof.Catalog
import GSDBEngine.Lib.Run

/-!
# When foreign keys keep their support

A foreign key names the indexes it is enforced with when its table is created, and DROP INDEX does
not look for such names.

* `foreign_key_spec`: what CREATE TABLE has found when it accepts a FOREIGN KEY clause.
* `support_kept`: **every foreign key has its support, as long as DROP INDEX spares it and the names of a
  referenced primary key lead back to its columns.**
* `support_dropped`: DROP INDEX of the index of a foreign key.
-/

namespace GSDBEngine

open Eff

variable {Q : Type} {stmt : CreateTableStmt Q} {s s' : ExecState} {cat cat' : Catalog} {schema ref_schema : TableSchema}

/-! ### Calls of the catalog -/

/-- A call edits the maps, throws with the maps as they were, or throws with the edit made. -/
theorem wp_on_catalog (call : CatalogCall) {E : DdlErr → ExecState → Prop} {P : Unit → ExecState → Prop}
    (hQ : ∀ cat page, call.edited s.catalog.toCatalog = some cat → cat.serialize.length ≤ PAGE_SIZE →
      P () { s with catalog := ⟨cat, page⟩ })
    (hrefused : ∀ e, E (.catalog e) s) (hlarge : ∀ e cat, call.edited s.catalog.toCatalog = some cat →
      E (.catalog e) { s with catalog := { s.catalog with toCatalog := cat } }) : wp (on_catalog call.body) E P s := by
  unfold wp on_catalog
  rw [CatalogCall.body_eq]
  cases h : call.edited s.catalog.toCatalog with
  | none => exact hrefused _
  | some cat =>
    simp only [CatalogManager.persist_eq]
    by_cases hl : cat.serialize.length > PAGE_SIZE
    · rw [if_pos hl]
      exact hlarge _ cat h
    · rw [if_neg hl]
      exact hQ cat _ h (not_lt.1 hl)

/-- Where only success is of interest. -/
theorem wp_on_catalog_ok (call : CatalogCall) {P : Unit → ExecState → Prop}
    (hQ : ∀ cat page, call.edited s.catalog.toCatalog = some cat → cat.serialize.length ≤ PAGE_SIZE →
      P () { s with catalog := ⟨cat, page⟩ }) : wp (on_catalog call.body) (fun _ _ => True) P s :=
  wp_on_catalog call hQ (fun _ => trivial) fun _ _ _ => trivial

/-! ### Columns by name -/

theorem column_index_lt {name : Bytes} {i : ℕ} (h : schema.column_index name = some i) : i < schema.columns.length :=
  (List.findIdx?_eq_some_iff_findIdx_eq.1 h).1

theorem column_index_name {name : Bytes} {i : ℕ} (h : schema.column_index name = some i) :
    (schema.columns[i]?).map Column.name = some name := by
  obtain ⟨hlt, hname, -⟩ := List.findIdx?_eq_some_iff_getElem.1 h
  rw [List.getElem?_eq_getElem hlt, Option.map_some, of_decide_eq_true hname]

theorem toNat_ofNat_of_lt {i n : ℕ} (h : i < n) (hn : n < 2 ^ 32) : (UInt32.ofNat i).toNat = i := by
  rw [UInt32.toNat_ofNat', Nat.mod_eq_of_lt (h.trans hn)]

theorem length_le_flatMap {α : Type} {f : α → Bytes} {l : List α} {x : α} (hx : x ∈ l) : (f x).length ≤ (l.flatMap f).length := by
  obtain ⟨front, back, rfl⟩ := List.append_of_mem hx
  simp only [List.flatMap_append, List.flatMap_cons, List.length_append]
  omega

theorem length_le_flatMap_length {α : Type} {f : α → Bytes} (hf : ∀ x, 1 ≤ (f x).length) (l : List α) :
    l.length ≤ (l.flatMap f).length := by
  induction l with
  | nil => exact Nat.zero_le _
  | cons x l ih =>
    rw [List.flatMap_cons, List.length_append, List.length_cons]
    have := hf x
    omega

/-- A catalog that fits a page has few columns. -/
theorem columns_lt {name : Bytes} (h : cat.tables.lookup name = some schema) (hfit : cat.serialize.length ≤ PAGE_SIZE) :
    schema.columns.length < 2 ^ 32 := by
  have hmem : schema ∈ cat.tables.entries.map Sigma.snd := List.mem_map.2 ⟨_, AList.mem_lookup_iff.1 h, rfl⟩
  have htable := length_le_flatMap (f := write_table) hmem
  have hcols := length_le_flatMap_length (f := write_column) (fun col => by
    simp only [write_column, write_string, List.length_append, write_size_length]
    omega) schema.columns
  have hpage : PAGE_SIZE < 2 ^ 32 := by decide
  simp only [write_table, write_list, List.length_append] at htable
  simp only [Catalog.serialize, write_list, List.length_append] at hfit
  omega

namespace TableSchema

theorem At.names {names : List Bytes} {cols : List UInt32} (h : schema.At names cols) : schema.names_of cols = names := by
  unfold At at h
  unfold names_of
  induction cols generalizing names with
  | nil =>
    rw [List.map_nil, List.map_eq_nil_iff] at h
    rw [h, List.map_nil]
  | cons i cols ih =>
    cases names with
    | nil => cases h
    | cons name names =>
      rw [List.map_cons, List.map_cons] at h
      obtain ⟨hi, h⟩ := List.cons.inj h
      rw [List.map_cons, ih h, column_index_name hi, Option.getD_some]

end TableSchema

/-! ### A FOREIGN KEY clause -/

theorem resolve_fk_columns_spec (hs : schema.columns.length < 2 ^ 32) (hr : ref_schema.columns.length < 2 ^ 32) {ref_table : Bytes} :
    ∀ {columns ref_columns : List Bytes} {cols ref_cols : List UInt32}, columns.length = ref_columns.length →
      resolve_fk_columns stmt schema ref_schema ref_table columns ref_columns = .ok (cols, ref_cols) →
      schema.At columns cols ∧ ref_schema.At ref_columns ref_cols
  | [], [], _, _, _, h => by
    obtain ⟨rfl, rfl⟩ := Prod.mk.inj (Except.ok.inj h)
    exact ⟨rfl, rfl⟩
  | name :: columns, ref_name :: ref_columns, _, _, hl, h => by
    unfold resolve_fk_columns at h
    cases hi : schema.column_index name with
    | none => rw [hi] at h; cases h
    | some i =>
      cases hj : ref_schema.column_index ref_name with
      | none => rw [hi, hj] at h; cases h
      | some j =>
        simp only [hi, hj] at h
        split at h
        · cases h
        · obtain ⟨⟨cols, ref_cols⟩, hrest, h⟩ := except_bind_ok h
          obtain ⟨rfl, rfl⟩ := Prod.mk.inj (Except.ok.inj h)
          obtain ⟨hat, hrat⟩ := resolve_fk_columns_spec hs hr (Nat.succ.inj hl) hrest
          refine ⟨List.cons_eq_cons.2 ⟨?_, hat⟩, List.cons_eq_cons.2 ⟨?_, hrat⟩⟩
          · exact hi.trans (congrArg some (toNat_ofNat_of_lt (column_index_lt hi) hs).symm)
          · exact hj.trans (congrArg some (toNat_ofNat_of_lt (column_index_lt hj) hr).symm)

theorem resolve_fk_columns_length {ref_table : Bytes} : ∀ {columns ref_columns : List Bytes} {cols ref_cols : List UInt32},
    resolve_fk_columns stmt schema ref_schema ref_table columns ref_columns = .ok (cols, ref_cols) → cols.length = ref_cols.length
  | [], _, _, _, h => by
    obtain ⟨rfl, rfl⟩ := Prod.mk.inj (Except.ok.inj h)
    rfl
  | _ :: _, [], _, _, h => by
    obtain ⟨rfl, rfl⟩ := Prod.mk.inj (Except.ok.inj h)
    rfl
  | name :: columns, ref_name :: ref_columns, _, _, h => by
    unfold resolve_fk_columns at h
    split at h
    · cases h
    · cases h
    · split at h
      · cases h
      · obtain ⟨⟨cols, ref_cols⟩, hrest, h⟩ := except_bind_ok h
        obtain ⟨rfl, rfl⟩ := Prod.mk.inj (Except.ok.inj h)
        rw [List.length_cons, List.length_cons, resolve_fk_columns_length hrest]

theorem child_index_name_ne (table_name : Bytes) (columns : List Bytes) : child_index_name table_name columns ≠ [] := by
  unfold child_index_name
  rw [List.append_assoc]
  exact List.append_ne_nil_of_left_ne_nil (by decide) _

/-- **What CREATE TABLE has found.** -/
structure Resolved (cat : Catalog) (schema : TableSchema) (clause : ForeignKeyDef) (fk : ForeignKeyConstraint) (ref_schema : TableSchema) :
    Prop where
  ref_table : fk.ref_table = clause.ref_table
  parent : cat.tables.lookup clause.ref_table = some ref_schema
  columns : schema.columns.length < 2 ^ 32 → ref_schema.columns.length < 2 ^ 32 →
    schema.At clause.columns fk.column_indices ∧ ref_schema.At clause.ref_columns fk.ref_column_indices
  aligned : fk.column_indices.length = fk.ref_column_indices.length
  child : fk.child_index_name ≠ []
  index : (fk.ref_index_name = [] ∧ clause.ref_columns = ref_schema.names_of ref_schema.primary_key_indices) ∨
    ∃ idx ∈ cat.get_indexes_for_table clause.ref_table, fk.ref_index_name = idx.name ∧ idx.is_unique = true ∧ idx.column_names = clause.ref_columns

theorem foreign_key_spec {clause : ForeignKeyDef} {fk : ForeignKeyConstraint} (h : foreign_key stmt cat schema clause = .ok fk) :
    ∃ ref_schema, Resolved cat schema clause fk ref_schema := by
  unfold foreign_key at h
  split at h
  · cases h
  · cases hparent : cat.tables.lookup clause.ref_table with
    | none => rw [hparent] at h; cases h
    | some ref_schema =>
      simp only [hparent] at h
      split at h
      · cases h
      · rename_i hcount
        obtain ⟨⟨cols, ref_cols⟩, hcols, h⟩ := except_bind_ok h
        cases hindex : ref_index_name cat ref_schema clause with
        | none => rw [hindex] at h; cases h
        | some name =>
          simp only [hindex] at h
          obtain rfl := Except.ok.inj h
          refine ⟨ref_schema, rfl, hparent, fun hs hr => resolve_fk_columns_spec hs hr ?_ hcols,
            resolve_fk_columns_length hcols, child_index_name_ne _ _, ?_⟩
          · exact Decidable.byContradiction fun hne => hcount (Or.inr hne)
          · unfold ref_index_name at hindex
            split at hindex
            · rename_i hpk
              exact Or.inl ⟨(Option.some.inj hindex).symm, hpk⟩
            · obtain ⟨idx, hfind, rfl⟩ := Option.map_eq_some_iff.1 hindex
              have hp := List.find?_some hfind
              rw [Bool.and_eq_true, decide_eq_true_eq] at hp
              exact Or.inr ⟨idx, List.mem_of_find?_eq_some hfind, rfl, hp⟩

/-! ### Growing catalogs -/

namespace Catalog

/-- Schemas under their names in a page, and no index without a name. -/
structure Wellformed (cat : Catalog) : Prop where
  named : cat.Named
  fits : cat.serialize.length ≤ PAGE_SIZE
  index_names : cat.indexes.lookup [] = none

/-- The same tables, and no index less. -/
structure Extends (cat cat' : Catalog) : Prop where
  tables : cat'.tables = cat.tables
  indexes : ∀ name idx, cat.indexes.lookup name = some idx → cat'.indexes.lookup name = some idx

theorem Extends.refl (cat : Catalog) : cat.Extends cat := ⟨rfl, fun _ _ h => h⟩

theorem Extends.trans {cat'' : Catalog} (h : cat.Extends cat') (h' : cat'.Extends cat'') : cat.Extends cat'' :=
  ⟨h'.tables.trans h.tables, fun name idx hi => h'.indexes name idx (h.indexes name idx hi)⟩

/-- Support is kept where its table and its indexes are. -/
theorem Supports.mono {fk : ForeignKeyConstraint} (h : cat.Supports schema fk)
    (htables : ∀ t, cat.tables.lookup fk.ref_table = some t → cat'.tables.lookup fk.ref_table = some t)
    (hparent : ∀ idx, cat.indexes.lookup fk.ref_index_name = some idx → idx.table_name = fk.ref_table →
      cat'.indexes.lookup fk.ref_index_name = some idx)
    (hchild : ∀ idx, cat.indexes.lookup fk.child_index_name = some idx → idx.table_name = schema.name →
      cat'.indexes.lookup fk.child_index_name = some idx) : cat'.Supports schema fk := by
  obtain ⟨⟨ref_schema, hlookup, hindex⟩, idx, hidx, htable, hat⟩ := h
  refine ⟨⟨ref_schema, htables _ hlookup, ?_⟩, idx, hchild idx hidx htable, htable, hat⟩
  split
  · rename_i hnone
    rwa [if_pos hnone] at hindex
  · rename_i hsome
    rw [if_neg hsome] at hindex
    obtain ⟨ref_idx, hr, ht, hrest⟩ := hindex
    exact ⟨ref_idx, hparent _ hr ht, ht, hrest⟩

theorem Supported.extends (h : cat.Supported) (he : cat.Extends cat') : cat'.Supported := by
  intro name schema hl fk hfk
  rw [he.tables] at hl
  refine (h name schema hl fk hfk).mono (fun t ht => ?_) (fun idx hi _ => he.indexes _ _ hi) fun idx hi _ => he.indexes _ _ hi
  rw [he.tables]
  exact ht

/-- An index is created, and gets its root. -/
theorem created_index {index : IndexSchema} {root : UInt32} {c₁ c₂ : Catalog} (hw : cat.Wellformed) (hn : index.name ≠ [])
    (h₁ : (CatalogCall.create_index index).edited cat = some c₁) (h₂ : (CatalogCall.update_index_root index.name root).edited c₁ = some c₂)
    (hfit : c₂.serialize.length ≤ PAGE_SIZE) :
    c₂.Wellformed ∧ cat.Extends c₂ ∧ c₂.indexes.lookup index.name = some { index with root_page := root } := by
  have hnamed := CatalogCall.named_edited (s := ⟨c₁, []⟩) (CatalogCall.named_edited (s := ⟨cat, []⟩) hw.named h₁) h₂
  obtain ⟨hfree, h₁⟩ := Option.ite_none_left_eq_some.1 h₁
  obtain rfl := Option.some.inj h₁
  obtain ⟨idx, hidx, rfl⟩ := Option.map_eq_some_iff.1 h₂
  rw [AList.lookup_insert] at hidx
  obtain rfl := Option.some.inj hidx
  refine ⟨⟨hnamed, hfit, ?_⟩, ⟨rfl, fun name idx hi => ?_⟩, AList.lookup_insert _⟩
  · show ((cat.indexes.insert _ _).insert _ _).lookup [] = none
    rw [AList.lookup_insert_ne hn.symm, AList.lookup_insert_ne hn.symm]
    exact hw.index_names
  · have hne : name ≠ index.name := by
      rintro rfl
      exact hfree (by rw [hi]; rfl)
    show ((cat.indexes.insert _ _).insert _ _).lookup name = some idx
    rw [AList.lookup_insert_ne hne, AList.lookup_insert_ne hne, hi]

/-- A table is created, and gets its root. -/
theorem created_table {root : UInt32} {c₁ c₂ : Catalog} (hw : cat.Wellformed)
    (h₁ : (CatalogCall.create_table schema).edited cat = some c₁) (h₂ : (CatalogCall.update_table_root schema.name root).edited c₁ = some c₂)
    (hfit : c₂.serialize.length ≤ PAGE_SIZE) :
    c₂.Wellformed ∧ c₂.indexes = cat.indexes ∧ cat.tables.lookup schema.name = none ∧
      c₂.tables.lookup schema.name = some { schema with root_page := root } ∧
      ∀ name, name ≠ schema.name → c₂.tables.lookup name = cat.tables.lookup name := by
  have hnamed := CatalogCall.named_edited (s := ⟨c₁, []⟩) (CatalogCall.named_edited (s := ⟨cat, []⟩) hw.named h₁) h₂
  obtain ⟨hfree, h₁⟩ := Option.ite_none_left_eq_some.1 h₁
  obtain rfl := Option.some.inj h₁
  obtain ⟨t, ht, rfl⟩ := Option.map_eq_some_iff.1 h₂
  rw [AList.lookup_insert] at ht
  obtain rfl := Option.some.inj ht
  refine ⟨⟨hnamed, hfit, hw.index_names⟩, rfl, by simpa using hfree, AList.lookup_insert _, fun name hne => ?_⟩
  show ((cat.tables.insert _ _).insert _ _).lookup name = _
  rw [AList.lookup_insert_ne hne, AList.lookup_insert_ne hne]

end Catalog

theorem wp_new_tree {t : TreeName} {E : DdlErr → ExecState → Prop} {P : UInt32 → ExecState → Prop}
    (h : ∀ root trees, P root { s with trees := trees }) : wp (new_tree t) E P s := h _ _

section on_trees

variable {α : Type} {root_page : UInt32} {index_root_page : Bytes → UInt32} {m : TableM α} {E : DdlErr → ExecState → Prop}
  {P : α × TableState → ExecState → Prop}

/-- The call runs on the trees, and its object is returned. -/
theorem wp_on_trees_run (h : wp m (fun e obj => E (.table e) { s with trees := obj.trees }) (fun a obj => P (a, obj) { s with trees := obj.trees })
    ⟨s.trees, root_page, index_root_page, 1⟩) : wp (on_trees root_page index_root_page m) E P s := by
  unfold wp on_trees
  unfold wp at h
  cases hm : m ⟨s.trees, root_page, index_root_page, 1⟩ with
  | ok a obj =>
    rw [hm] at h
    exact h
  | error e obj =>
    rw [hm] at h
    exact h

theorem wp_on_trees (hQ : ∀ a trees, P a { s with trees := trees }) (hE : ∀ e trees, E (.table e) { s with trees := trees }) :
    wp (on_trees root_page index_root_page m) E P s :=
  wp_on_trees_run (wp_of_forall (fun _ _ => hE _ _) fun _ _ => hQ _ _)

end on_trees

/-- **An index comes with its tree.** -/
theorem create_index_tree_spec {index : IndexSchema} (hw : s.catalog.Wellformed) (hn : index.name ≠ []) :
    wp (create_index_tree index) (fun _ _ => True) (fun _ s' => s'.catalog.Wellformed ∧ s.catalog.Extends s'.catalog.toCatalog ∧
      ∃ root, s'.catalog.indexes.lookup index.name = some { index with root_page := root }) s := by
  unfold create_index_tree
  simp only [wp_bind]
  refine wp_on_catalog_ok (.create_index index) fun c₁ page h₁ _ => wp_new_tree fun root trees => ?_
  refine wp_on_catalog_ok (.update_index_root index.name root) fun c₂ page h₂ hfit => ?_
  obtain ⟨hw', he, hl⟩ := Catalog.created_index hw hn h₁ h₂ hfit
  exact ⟨hw', he, root, hl⟩

/-- The indexes of a list, one after the other. -/
theorem create_index_trees_spec {α : Type} {f : α → IndexSchema} {l : List α} (hw : s.catalog.Wellformed) (hn : ∀ x ∈ l, (f x).name ≠ []) :
    wp (l.forM fun x => create_index_tree (f x)) (fun _ _ => True) (fun _ s' => s'.catalog.Wellformed ∧
      s.catalog.Extends s'.catalog.toCatalog ∧
      ∀ x ∈ l, ∃ root, s'.catalog.indexes.lookup (f x).name = some { f x with root_page := root }) s := by
  induction l generalizing s with
  | nil => exact ⟨hw, Catalog.Extends.refl _, fun _ h => absurd h List.not_mem_nil⟩
  | cons x l ih =>
    show wp (create_index_tree (f x) >>= fun _ => l.forM _) _ _ s
    rw [wp_bind]
    refine wp_post (create_index_tree_spec hw (hn x List.mem_cons_self)) fun _ s₁ h₁ => ?_
    obtain ⟨hw₁, he₁, root, hl⟩ := h₁
    refine wp_post (ih hw₁ fun y hy => hn y (List.mem_cons_of_mem _ hy)) fun _ s₂ h₂ => ?_
    obtain ⟨hw₂, he₂, hrest⟩ := h₂
    refine ⟨hw₂, he₁.trans he₂, fun y hy => ?_⟩
    rcases List.mem_cons.1 hy with rfl | hy
    · exact ⟨root, he₂.indexes _ _ hl⟩
    · exact hrest y hy

/-! ### CREATE TABLE -/

/-- What CREATE TABLE has checked, and the schema it makes. -/
structure TableChecked (stmt : CreateTableStmt Q) (cat : Catalog) (schema : TableSchema) : Prop where
  name : schema.name = stmt.table_name
  foreign_keys : ∀ fk ∈ schema.foreign_keys, ∃ clause ∈ fk_defs stmt, ∃ ref_schema, Resolved cat schema clause fk ref_schema

theorem add_primary_key_name {names : List Bytes} {schema' : TableSchema} (h : add_primary_key stmt schema names = .ok schema') :
    schema'.name = schema.name := by
  induction names generalizing schema with
  | nil =>
    obtain rfl := Except.ok.inj h
    rfl
  | cons col_name names ih =>
    unfold add_primary_key at h
    cases hi : schema.column_index col_name with
    | none => rw [hi] at h; cases h
    | some idx =>
      simp only [hi] at h
      have hname := ih h
      exact hname

theorem key_schema_name (h : key_schema stmt = .ok schema) : schema.name = stmt.table_name := by
  unfold key_schema at h
  obtain ⟨columns, -, h⟩ := except_bind_ok h
  dsimp only at h
  split at h
  · cases h
  · split at h
    · split at h
      · cases h
      · obtain rfl := Except.ok.inj h
        rfl
    · split at h
      · cases h
      · exact add_primary_key_name h

/-- The clauses of a schema and the rest of it are looked up by the columns alone. -/
theorem Resolved.congr {schema' : TableSchema} {clause : ForeignKeyDef} {fk : ForeignKeyConstraint}
    (h : Resolved cat schema clause fk ref_schema) (hc : schema'.columns = schema.columns) : Resolved cat schema' clause fk ref_schema := by
  refine { h with columns := fun hs hr => ?_ }
  have hindex : schema'.column_index = schema.column_index := by
    funext name
    unfold TableSchema.column_index
    rw [hc]
  rw [hc] at hs
  unfold TableSchema.At at *
  rw [hindex]
  exact h.columns hs hr

theorem table_schema_spec {groups : List (List Bytes)} (h : table_schema stmt cat = .ok (schema, groups)) : TableChecked stmt cat schema := by
  unfold table_schema at h
  split at h
  · cases h
  obtain ⟨key, hkey, h⟩ := except_bind_ok h
  obtain ⟨groups', -, h⟩ := except_bind_ok h
  obtain ⟨fks, hfks, h⟩ := except_bind_ok h
  obtain ⟨checks, -, h⟩ := except_bind_ok h
  obtain ⟨rfl, rfl⟩ := Prod.mk.inj (Except.ok.inj h)
  refine ⟨?_, fun fk hfk => ?_⟩
  · have hname := key_schema_name hkey
    exact hname
  obtain ⟨clause, hclause, hok⟩ := except_mapM_mem hfks hfk
  obtain ⟨ref_schema, hr⟩ := foreign_key_spec hok
  exact ⟨clause, hclause, ref_schema, hr.congr rfl⟩

namespace Catalog

theorem mem_get_indexes_for_table (hn : cat.Named) {table_name : Bytes} {idx : IndexSchema} :
    idx ∈ cat.get_indexes_for_table table_name ↔ cat.indexes.lookup idx.name = some idx ∧ idx.table_name = table_name := by
  unfold get_indexes_for_table
  rw [List.mem_filter, decide_eq_true_eq, List.mem_map]
  refine and_congr_left fun _ => ⟨?_, fun h => ⟨⟨_, idx⟩, AList.mem_lookup_iff.1 h, rfl⟩⟩
  rintro ⟨⟨name, idx'⟩, hmem, rfl⟩
  have hl := AList.mem_lookup_iff.2 hmem
  have hname : idx'.name = name := hn.indexes _ _ hl
  rw [hname]
  exact hl

/-- Support of the foreign keys of a table that comes, with its indexes. -/
theorem Supported.created_table {cat₂ cat₃ : Catalog} (hw : cat.Wellformed) (hs : cat.Supported) (hc : TableChecked stmt cat schema)
    (hsound : ∀ clause ∈ fk_defs stmt, ∀ ref_schema, cat.tables.lookup clause.ref_table = some ref_schema →
      clause.ref_columns = ref_schema.names_of ref_schema.primary_key_indices →
      ref_schema.At clause.ref_columns ref_schema.primary_key_indices)
    {root : UInt32} (hindexes : cat₂.indexes = cat.indexes) (hfree : cat.tables.lookup schema.name = none)
    (hnew : cat₂.tables.lookup schema.name = some { schema with root_page := root })
    (hold : ∀ name, name ≠ schema.name → cat₂.tables.lookup name = cat.tables.lookup name)
    (he : cat₂.Extends cat₃) (hw₃ : cat₃.Wellformed)
    (hchild : ∀ fk ∈ schema.foreign_keys, ∃ root, cat₃.indexes.lookup fk.child_index_name =
      some { child_index schema fk with root_page := root }) : cat₃.Supported := by
  have hkeep : ∀ {name t}, cat.tables.lookup name = some t → cat₃.tables.lookup name = some t := by
    intro name t hl
    have hne : name ≠ schema.name := by
      rintro rfl
      rw [hfree] at hl
      cases hl
    rw [he.tables, hold name hne, hl]
  have hidx : ∀ {name idx}, cat.indexes.lookup name = some idx → cat₃.indexes.lookup name = some idx := fun hl =>
    he.indexes _ _ (hindexes ▸ hl)
  intro name t hl fk hfk
  rw [he.tables] at hl
  by_cases hname : name = schema.name
  · subst hname
    have hlt := columns_lt (by rw [he.tables]; exact hnew) hw₃.fits
    rw [hnew] at hl
    obtain rfl := Option.some.inj hl
    obtain ⟨clause, hclause, ref_schema, hr⟩ := hc.foreign_keys fk hfk
    obtain ⟨hat, hrat⟩ := hr.columns hlt (columns_lt (hkeep hr.parent) hw₃.fits)
    refine ⟨⟨ref_schema, ?_, ?_⟩, ?_⟩
    · rw [hr.ref_table]
      exact hkeep hr.parent
    · rcases hr.index with ⟨hnone, hpk⟩ | ⟨idx, hmem, hidxname, hunique, hcols⟩
      · -- the names lead back to the columns of the primary key
        rw [if_pos hnone]
        have hpkat := hsound clause hclause ref_schema hr.parent hpk
        unfold TableSchema.At at hrat hpkat
        have hinj : Function.Injective fun i : UInt32 => some i.toNat := fun i j hij => UInt32.toNat_inj.1 (Option.some.inj hij)
        exact List.map_injective_iff.2 hinj (hrat.symm.trans hpkat)
      · obtain ⟨hlookup, htable⟩ := (mem_get_indexes_for_table hw.named).1 hmem
        have hne : fk.ref_index_name ≠ [] := by
          intro h
          rw [← hidxname, h, hw.index_names] at hlookup
          cases hlookup
        rw [if_neg hne, hidxname]
        refine ⟨idx, hidx hlookup, ?_, hunique, ?_⟩
        · rw [htable, hr.ref_table]
        · rw [hcols]
          exact hrat
    · obtain ⟨root', hcl⟩ := hchild fk hfk
      refine ⟨_, hcl, rfl, ?_⟩
      show TableSchema.At _ (schema.names_of fk.column_indices) _
      have hnames : schema.names_of fk.column_indices = clause.columns := TableSchema.At.names hat
      rw [hnames]
      exact hat
  · rw [hold name hname] at hl
    exact (hs name t hl fk hfk).mono (fun _ h => hkeep h) (fun _ h _ => hidx h) fun _ h _ => hidx h

end Catalog

/-- **CREATE TABLE.** -/
theorem execute_create_table_spec (hw : s.catalog.Wellformed) (hs : s.catalog.Supported) (hsound : (DdlStmt.create_table stmt).sound s) :
    wp (execute_create_table stmt) (fun _ _ => True) (fun _ s' => s'.catalog.Wellformed ∧ s'.catalog.Supported) s := by
  unfold execute_create_table
  rw [wp_bind, wp_get, wp_bind]
  refine wp_liftE (fun checked hchecked => ?_) fun _ _ => trivial
  obtain ⟨schema, groups⟩ := checked
  have hc := table_schema_spec hchecked
  simp only [wp_bind]
  refine wp_on_catalog_ok (.create_table schema) fun c₁ page h₁ _ => wp_new_tree fun root trees => ?_
  rw [← hc.name]
  refine wp_on_catalog_ok (.update_table_root schema.name root) fun c₂ page h₂ hfit => ?_
  obtain ⟨hw₂, hindexes, hfree, hnew, hold⟩ := Catalog.created_table hw h₁ h₂ hfit
  refine wp_post (create_index_trees_spec hw₂ fun group _ => ?_) fun _ s₃ h₃ => ?_
  · unfold unique_index
    rw [List.append_assoc]
    exact List.append_ne_nil_of_left_ne_nil (by decide) _
  · obtain ⟨hw₃, he₃, -⟩ := h₃
    refine wp_post (create_index_trees_spec hw₃ fun fk hfk => ?_) fun _ s₄ h₄ => ?_
    · obtain ⟨clause, -, ref_schema, hr⟩ := hc.foreign_keys fk hfk
      exact hr.child
    · obtain ⟨hw₄, he₄, hchild⟩ := h₄
      exact ⟨hw₄, hs.created_table hw hc hsound hindexes hfree hnew hold (he₃.trans he₄) hw₄ hchild⟩

/-! ### DROP TABLE, DROP INDEX, CREATE INDEX -/

namespace Catalog

theorem get_foreign_keys_referencing_nil {table_name name : Bytes} {t : TableSchema}
    (h : cat.get_foreign_keys_referencing table_name = []) (hl : cat.tables.lookup name = some t) {fk : ForeignKeyConstraint}
    (hfk : fk ∈ t.foreign_keys) : fk.ref_table ≠ table_name := by
  intro href
  have hmem : (t.name, fk) ∈ cat.get_foreign_keys_referencing table_name := by
    refine List.mem_flatMap.2 ⟨t, List.mem_map.2 ⟨_, AList.mem_lookup_iff.1 hl, rfl⟩, List.mem_map.2 ⟨fk, ?_, rfl⟩⟩
    exact List.mem_filter.2 ⟨hfk, decide_eq_true href⟩
  rw [h] at hmem
  exact List.not_mem_nil hmem

end Catalog

theorem NameMap.lookup_eraseIf {α : Type} {m : NameMap α} {p : α → Bool} {name : Bytes} {x : α} (h : m.lookup name = some x)
    (hx : p x = false) : (m.eraseIf p).lookup name = some x := by
  refine AList.mem_lookup_iff.2 (List.mem_filter.2 ⟨AList.mem_lookup_iff.1 h, ?_⟩)
  show (!p x) = true
  rw [hx]
  rfl

theorem NameMap.lookup_eraseIf_none {α : Type} {m : NameMap α} {p : α → Bool} {name : Bytes} (h : m.lookup name = none) :
    (m.eraseIf p).lookup name = none := by
  cases hl : (m.eraseIf p).lookup name with
  | none => rfl
  | some x =>
    have hmem := List.mem_of_mem_filter (AList.mem_lookup_iff.1 hl)
    rw [AList.mem_lookup_iff.2 hmem] at h
    cases h

/-- **DROP TABLE**: no foreign key references the table, and its indexes are of no other. -/
theorem execute_drop_table_spec (table_name : Bytes) (hw : s.catalog.Wellformed) (hs : s.catalog.Supported) :
    wp (execute_drop_table table_name) (fun _ _ => True) (fun _ s' => s'.catalog.Wellformed ∧ s'.catalog.Supported) s := by
  unfold execute_drop_table
  rw [wp_bind, wp_get]
  dsimp only
  by_cases hfree : (s.catalog.tables.lookup table_name).isNone = true
  · rw [if_pos hfree]
    trivial
  · rw [if_neg hfree]
    cases hrefs : s.catalog.get_foreign_keys_referencing table_name with
    | cons ref refs => trivial
    | nil =>
      refine wp_on_catalog_ok (.drop_table table_name) fun cat page h hfit => ?_
      have hnamed := CatalogCall.named_edited hw.named h
      obtain ⟨-, h⟩ := Option.ite_none_left_eq_some.1 h
      obtain rfl := Option.some.inj h
      refine ⟨⟨hnamed, hfit, NameMap.lookup_eraseIf_none hw.index_names⟩, fun name t hl fk hfk => ?_⟩
      have hne : name ≠ table_name := by
        rintro rfl
        rw [show (s.catalog.tables.erase name).lookup name = none from AList.lookup_erase name _] at hl
        cases hl
      rw [show (s.catalog.tables.erase table_name).lookup name = _ from AList.lookup_erase_ne hne] at hl
      have href := Catalog.get_foreign_keys_referencing_nil hrefs hl hfk
      have hname : t.name = name := hw.named.tables _ _ hl
      refine (hs name t hl fk hfk).mono (fun ref ht => ?_) (fun idx hi ht => ?_) fun idx hi ht => ?_
      · exact (AList.lookup_erase_ne href).trans ht
      · exact NameMap.lookup_eraseIf hi (decide_eq_false (by rw [ht]; exact href))
      · exact NameMap.lookup_eraseIf hi (decide_eq_false (by rw [ht, hname]; exact hne))

/-- **DROP INDEX** of an index that no foreign key is enforced with. -/
theorem execute_drop_index_spec (index_name : Bytes) (hw : s.catalog.Wellformed) (hs : s.catalog.Supported)
    (hsound : (DdlStmt.drop_index (Q := Q) index_name).sound s) :
    wp (execute_drop_index index_name) (fun _ _ => True) (fun _ s' => s'.catalog.Wellformed ∧ s'.catalog.Supported) s := by
  unfold execute_drop_index
  rw [wp_bind, wp_get]
  split
  · trivial
  · refine wp_on_catalog_ok (.drop_index index_name) fun cat page h hfit => ?_
    have hnamed := CatalogCall.named_edited hw.named h
    obtain ⟨-, h⟩ := Option.ite_none_left_eq_some.1 h
    obtain rfl := Option.some.inj h
    have hkeep : ∀ {name idx}, name ≠ index_name → s.catalog.indexes.lookup name = some idx →
        (s.catalog.indexes.erase index_name).lookup name = some idx := fun hne hl => (AList.lookup_erase_ne hne).trans hl
    refine ⟨⟨hnamed, hfit, ?_⟩, fun name t hl fk hfk => ?_⟩
    · by_cases hnil : [] = index_name
      · rw [hnil]
        exact AList.lookup_erase _ _
      · exact (AList.lookup_erase_ne hnil).trans hw.index_names
    · obtain ⟨hchild, href⟩ := hsound name t hl fk hfk
      exact (hs name t hl fk hfk).mono (fun _ ht => ht) (fun _ hi _ => hkeep href hi) fun _ hi _ => hkeep hchild hi

/-- **CREATE INDEX** adds to what there is. -/
theorem execute_create_index_spec (stmt : CreateIndexStmt) (hw : s.catalog.Wellformed) (hs : s.catalog.Supported) :
    wp (execute_create_index stmt) (fun _ _ => True) (fun _ s' => s'.catalog.Wellformed ∧ s'.catalog.Supported) s := by
  unfold execute_create_index
  rw [wp_bind, wp_get]
  cases s.catalog.tables.lookup stmt.table_name with
  | none => trivial
  | some schema =>
    dsimp only
    by_cases hcols : stmt.column_names = []
    · rw [if_pos hcols]
      trivial
    · rw [if_neg hcols]
      cases stmt.column_names.find? fun name => (schema.column_index name).isNone with
      | some name => trivial
      | none =>
        simp only [wp_bind]
        refine wp_on_trees (fun scanned trees => ?_) fun _ _ => trivial
        split
        · trivial
        · simp only [wp_bind]
          refine wp_on_catalog_ok (.create_index ⟨stmt.index_name, stmt.table_name, stmt.column_names, _, stmt.is_unique⟩)
            fun c₁ page h₁ _ => wp_new_tree fun root trees => wp_on_trees (fun filled trees => ?_) fun _ _ => trivial
          refine wp_on_catalog_ok (.update_index_root stmt.index_name _) fun c₂ page h₂ hfit => ?_
          obtain ⟨hw₂, he, -⟩ := Catalog.created_index hw stmt.named h₁ h₂ hfit
          exact ⟨hw₂, hs.extends he⟩

/-! ### Runs -/

theorem DdlStmt.execute_spec (stmt : DdlStmt Q) (hw : s.catalog.Wellformed) (hs : s.catalog.Supported) (hsound : stmt.sound s) :
    wp stmt.execute (fun _ _ => True) (fun _ s' => s'.catalog.Wellformed ∧ s'.catalog.Supported) s := by
  cases stmt with
  | create_table stmt => exact execute_create_table_spec hw hs hsound
  | drop_table table_name => exact execute_drop_table_spec table_name hw hs
  | create_index stmt => exact execute_create_index_spec stmt hw hs
  | drop_index index_name => exact execute_drop_index_spec index_name hw hs hsound

theorem empty_fits : Catalog.empty.serialize.length ≤ PAGE_SIZE := by decide

/-- **The support of every foreign key is kept.** -/
theorem support_kept {trees : Trees} {s : ExecState}
    (h : RunWhere (DdlStmt.Succeeds (Q := Q)) DdlStmt.sound (ExecState.new trees) s) : s.catalog.Supported := by
  have hnew : (ExecState.new trees).catalog.Wellformed ∧ (ExecState.new trees).catalog.Supported :=
    ⟨⟨CatalogManager.Reachable.named .new, empty_fits, rfl⟩, fun name schema hl => by cases hl⟩
  refine (h.invariant (I := fun s => s.catalog.Wellformed ∧ s.catalog.Supported) hnew ?_).2
  intro stmt t u ht hsound hrun
  obtain ⟨hw, hs⟩ := ht
  have hkept := wp_ok (stmt.execute_spec hw hs hsound) hrun
  exact hkept

/-! ### Two tables -/

/-- The state after a statement, if it succeeds. -/
def DdlStmt.next (stmt : DdlStmt Q) (s : ExecState) : Option ExecState :=
  match stmt.execute s with
  | .ok _ s' => some s'
  | .error _ _ => none

theorem DdlStmt.succeeds_of_next {stmt : DdlStmt Q} (h : stmt.next s = some s') : stmt.Succeeds s s' := by
  unfold next at h
  unfold Succeeds
  cases hrun : stmt.execute s with
  | error e t => rw [hrun] at h; cases h
  | ok _ t =>
    rw [hrun] at h
    obtain rfl := Option.some.inj h
    rfl

/-- An INT column, and whether it is the primary key; `REFERENCES` behind it. -/
def int_column (name : String) (is_primary_key : Bool) (fk_ref_table fk_ref_column : String) : ColumnDef Unit where
  name := bytes name
  type_name := bytes "INT"
  varchar_len := 0
  is_primary_key := is_primary_key
  is_nullable := !is_primary_key
  auto_increment := false
  is_unique := false
  has_default := false
  default_value := .null
  no_default := fun _ => rfl
  check := none
  fk_ref_table := bytes fk_ref_table
  fk_ref_column := bytes fk_ref_column

def small_create (name : String) (columns : List (ColumnDef Unit)) : DdlStmt Unit :=
  .create_table ⟨bytes name, columns, [], [], [], [], []⟩

/-- `CREATE TABLE p (id INT PRIMARY KEY)`. -/
def create_parent : DdlStmt Unit := small_create "p" [int_column "id" true "" ""]

/-- `CREATE TABLE c (id INT PRIMARY KEY, pid INT REFERENCES p (id))`. -/
def create_child : DdlStmt Unit := small_create "c" [int_column "id" true "" "", int_column "pid" false "p" "id"]

def some_root : Root := ⟨8, by decide⟩

def any_trees : Trees where
  tree _ := ⟨SortedMap.empty, some_root⟩
  roots _ := some_root

/-- The foreign keys of a table, by the index of each, and whether it is there. -/
def child_indexes (name : String) (s : ExecState) : Option (List (Bytes × Bool)) :=
  (s.catalog.tables.lookup (bytes name)).map fun schema =>
    schema.foreign_keys.map fun fk => (fk.child_index_name, (s.catalog.indexes.lookup fk.child_index_name).isSome)

instance (schema : TableSchema) (names : List Bytes) (cols : List UInt32) : Decidable (schema.At names cols) :=
  inferInstanceAs (Decidable (_ = _))

/-- The primary key of a table is found by the names of its columns. -/
def key_found (name : String) (s : ExecState) : Bool :=
  (s.catalog.tables.lookup (bytes name)).all fun schema =>
    decide (schema.At (schema.names_of schema.primary_key_indices) schema.primary_key_indices)

theorem key_found.sound (h : key_found "p" s = true) : create_child.sound s := by
  intro fk hfk ref_schema hl hnames
  obtain rfl := List.mem_singleton.1 hfk
  unfold key_found at h
  rw [show s.catalog.tables.lookup (bytes "p") = some ref_schema from hl, Option.all_some] at h
  rw [hnames]
  exact of_decide_eq_true h

theorem support_kept_used : ∃ s, RunWhere (DdlStmt.Succeeds (Q := Unit)) DdlStmt.sound (ExecState.new any_trees) s ∧
    child_indexes "c" s = some [(bytes "__fk_c_pid", true)] ∧ s.catalog.Supported := by
  have hrun : ((create_parent.next (ExecState.new any_trees)).any fun s₁ => key_found "p" s₁ &&
      (create_child.next s₁).any fun s₂ => decide (child_indexes "c" s₂ = some [(bytes "__fk_c_pid", true)])) = true := by
    decide +kernel
  obtain ⟨s₁, h₁, hrun⟩ := (Option.any_eq_true _ _).1 hrun
  obtain ⟨hkey, hrun⟩ := (Bool.and_eq_true_iff ..).1 hrun
  obtain ⟨s₂, h₂, hchild⟩ := (Option.any_eq_true _ _).1 hrun
  have hsound : create_parent.sound (ExecState.new any_trees) := fun fk hfk => absurd hfk List.not_mem_nil
  have hkept : RunWhere DdlStmt.Succeeds DdlStmt.sound (ExecState.new any_trees) s₁ :=
    RunWhere.refl.step hsound (DdlStmt.succeeds_of_next h₁)
  have hkept : RunWhere DdlStmt.Succeeds DdlStmt.sound (ExecState.new any_trees) s₂ :=
    hkept.step (key_found.sound hkey) (DdlStmt.succeeds_of_next h₂)
  exact ⟨s₂, hkept, of_decide_eq_true hchild, support_kept hkept⟩

/-- DROP INDEX asks for the name of the index only. -/
theorem support_dropped : ∃ s, RunWhere (DdlStmt.Succeeds (Q := Unit)) (fun _ _ => True) (ExecState.new any_trees) s ∧
    ¬ s.catalog.Supported := by
  have hrun : ((create_parent.next (ExecState.new any_trees)).any fun s₁ => (create_child.next s₁).any fun s₂ =>
      ((DdlStmt.drop_index (Q := Unit) (bytes "__fk_c_pid")).next s₂).any fun s₃ =>
        decide (child_indexes "c" s₃ = some [(bytes "__fk_c_pid", false)])) = true := by
    decide +kernel
  obtain ⟨s₁, h₁, hrun⟩ := (Option.any_eq_true _ _).1 hrun
  obtain ⟨s₂, h₂, hrun⟩ := (Option.any_eq_true _ _).1 hrun
  obtain ⟨s₃, h₃, hdropped⟩ := (Option.any_eq_true _ _).1 hrun
  have hsteps : RunWhere DdlStmt.Succeeds (fun _ _ => True) (ExecState.new any_trees) s₃ :=
    ((RunWhere.refl.step trivial (DdlStmt.succeeds_of_next h₁)).step trivial (DdlStmt.succeeds_of_next h₂)).step trivial
      (DdlStmt.succeeds_of_next h₃)
  refine ⟨s₃, hsteps, fun hsupported => ?_⟩
  obtain ⟨schema, hl, hfks⟩ := Option.map_eq_some_iff.1 (of_decide_eq_true hdropped)
  obtain ⟨fk, hfk, hindex⟩ : ∃ fk ∈ schema.foreign_keys, (fk.child_index_name, (s₃.catalog.indexes.lookup fk.child_index_name).isSome) =
      (bytes "__fk_c_pid", false) := List.mem_map.1 (by rw [hfks]; exact List.mem_singleton_self _)
  obtain ⟨idx, hidx, -⟩ := (hsupported _ schema hl fk hfk).child
  rw [hidx] at hindex
  cases (Prod.mk.inj hindex).2

end GSDBEngine