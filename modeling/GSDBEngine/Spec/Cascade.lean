import GSDBEngine.Spec.Ddl
import GSDBEngine.Spec.Contents
import Mathlib.Logic.Relation

/-!
# DELETE along foreign keys

`Executor::delete_row_cascading`: a row goes after the rows that reference it, table by table, and
the constraints of the catalog say where to go next. The recursion keeps no list of where it has been.

* `find_referencing_children`, `delete_row_cascading`: the code.
* `Catalog.Refers`: a table references another one. `ExecState.Reachable`: the states that statements leave.
* `ExecState.Represents`: the rows of all tables. `Catalog.Cascades`, `Catalog.Dangles`: rows that reference rows.
* `ExecState.RestrictFirst`: a RESTRICT constraint comes before the first row that can go.
-/

namespace GSDBEngine

open Eff

/-! ### Tables and indexes, opened -/

def get_table (table_name : Bytes) : DdlM TableSchema := do
  let s ← get
  match s.catalog.tables.lookup table_name with
  | none => throw (.catalog (.no_table table_name))
  | some schema => pure schema

def get_index (index_name : Bytes) : DdlM IndexSchema := do
  let s ← get
  match s.catalog.indexes.lookup index_name with
  | none => throw (.catalog (.no_index index_name))
  | some index => pure index

/-- The constructor of `BTree`. -/
def open_tree (t : TreeName) (root_page : UInt32) : DdlM UInt32 :=
  if root_page.toNat = INVALID_PAGE then new_tree t else pure root_page

/-- The columns of an index in a table. -/
def IndexSchema.binding (schema : TableSchema) (index : IndexSchema) : IndexBinding where
  schema := index
  pk_arity := schema.primary_key_indices.length
  column_indices := index.column_names.map fun col_name => (schema.column_index col_name).getD 0

/-- The constructor of `Table`: the bindings. -/
def Table.construct (schema : TableSchema) : List IndexSchema → Except TableErr Table
  | [] => pure ⟨schema, []⟩
  | index :: indexes =>
    if index.table_name ≠ schema.name then throw (.other_table index.name)
    else
      match index.column_names.find? fun col_name => (schema.column_index col_name).isNone with
      | some col_name => throw (.unknown_column index.name col_name)
      | none => do
        let tbl ← Table.construct schema indexes
        pure { tbl with indexes := index.binding schema :: tbl.indexes }

/-- `open_indexes`: the root pages of the objects. -/
def open_indexes : List IndexSchema → DdlM (Bytes → UInt32)
  | [] => pure fun _ => UInt32.ofNat INVALID_PAGE
  | index :: indexes => do
    let root ← open_tree (.index index.name) index.root_page
    let index_root_page ← open_indexes indexes
    pure (Function.update index_root_page index.name root)

/-- A `Table` with its indexes, and a call of it. -/
def on_table {α : Type} (schema : TableSchema) (owned : List IndexSchema) (m : Table → TableM α) : DdlM (α × Table × TableState) := do
  let index_root_page ← open_indexes owned
  let root ← open_tree (.table schema.name) schema.root_page
  let tbl ← liftE ((Table.construct schema owned).mapError .table)
  let (a, obj) ← on_trees root index_root_page do
    tbl.init_auto_increment
    m tbl
  pure (a, tbl, obj)

/-! ### Rows that reference a row -/

structure ReferencingChildren where
  child_table : Bytes
  constraint : ForeignKeyConstraint
  child_primary_keys : List Key

/-- `Index::find`. -/
def index_find (index : IndexSchema) (indexed_value : Key) : DdlM (List Key) := do
  let root ← open_tree (.index index.name) index.root_page
  if is_indexable indexed_value = false then pure []
  else if indexed_value.length > index.column_names.length then throw (.search_arity index.name)
  else do
    let (entries, _) ← on_trees 0 (fun _ => root) (btree_prefix_scan (.index index.name) indexed_value)
    pure (entries.map fun e => e.1.drop index.column_names.length)

/-- The referenced values; none if one of them is NULL. -/
def referenced_values (ref_row : Row) : List UInt32 → Except TableErr (Option Key)
  | [] => pure (some [])
  | ref_idx :: ref_column_indices =>
    match ref_row[ref_idx.toNat]? with
    | none => throw .column_out_of_range
    | some v =>
      if v.isNull then pure none
      else do
        let parent_values ← referenced_values ref_row ref_column_indices
        pure (parent_values.map fun vs => v :: vs)

/-- The rows that reference a row through one constraint. -/
def find_children (ref_row : Row) (child_table : Bytes) (fk : ForeignKeyConstraint) : DdlM (List ReferencingChildren) := do
  match ← liftE ((referenced_values ref_row fk.ref_column_indices).mapError .table) with
  | none => pure []
  | some parent_values => do
    let child_ischema ← get_index fk.child_index_name
    let _ ← get_table child_table
    let child_pks ← index_find child_ischema parent_values
    pure (if child_pks.isEmpty then [] else [⟨child_table, fk, child_pks⟩])

def find_referencing_children (ref_row : Row) : List (Bytes × ForeignKeyConstraint) → DdlM (List ReferencingChildren)
  | [] => pure []
  | (child_table, fk) :: refs => do
    let children ← find_children ref_row child_table fk
    let result ← find_referencing_children ref_row refs
    pure (children ++ result)

/-! ### DELETE -/

/-- The roots that the call has left in the objects. -/
def persist_roots (schema : TableSchema) (tbl : Table) (obj : TableState) : DdlM Unit := do
  if obj.root_page ≠ schema.root_page then on_catalog (CatalogManager.update_table_root schema.name obj.root_page)
  tbl.indexes.forM fun idx => on_catalog (CatalogManager.update_index_root idx.schema.name (obj.index_root_page idx.schema.name))

def delete_row_cascading : ℕ → Bytes → Key → DdlM Bool
  | 0, _, _ => throw .too_deep
  | fuel + 1, table_name, key => do
    let schema ← get_table table_name
    let (row, _) ← on_table schema [] fun read_tbl => read_tbl.select_by_key key
    match row with
    | none => pure false
    | some row => do
      let s ← get
      let children ← find_referencing_children row (s.catalog.get_foreign_keys_referencing schema.name)
      children.forM fun child =>
        match child.constraint.on_delete with
        | .RESTRICT => throw (.restricted table_name child.child_table)
        | .CASCADE => child.child_primary_keys.forM fun child_pk => do
          let _ ← delete_row_cascading fuel child.child_table child_pk
      -- `schema` is a reference into the map of the catalog
      let schema ← get_table table_name
      let s ← get
      let (_, tbl, obj) ← on_table schema (s.catalog.get_indexes_for_table schema.name) fun tbl => tbl.delete_row key
      persist_roots schema tbl obj
      pure true

/-! ### Reachable catalogs -/

/-- What a step of a session does to the catalog: statements and root pages. -/
inductive CatalogStep (Q : Type) where
  | ddl (stmt : DdlStmt Q)
  | table_root (table_name : Bytes) (new_root_page : UInt32)
  | index_root (index_name : Bytes) (new_root_page : UInt32)

def CatalogStep.run {Q : Type} : CatalogStep Q → DdlM Unit
  | ddl stmt => stmt.execute
  | table_root table_name new_root_page => on_catalog (CatalogManager.update_table_root table_name new_root_page)
  | index_root index_name new_root_page => on_catalog (CatalogManager.update_index_root index_name new_root_page)

/-- The states after statements, whichever way each ends, with any rows written in between. -/
inductive ExecState.Reachable (Q : Type) : ExecState → Prop
  | new (trees : Trees) : Reachable Q (.new trees)
  | returned {step : CatalogStep Q} {s s' : ExecState} : Reachable Q s → step.run s = .ok () s' → Reachable Q s'
  | threw {step : CatalogStep Q} {s s' : ExecState} {e : DdlErr} : Reachable Q s → step.run s = .error e s' → Reachable Q s'
  | rows {s : ExecState} (trees : Trees) : Reachable Q s → Reachable Q { s with trees := trees }

/-! ### Tables that reference tables, rows that reference rows -/

/-- A foreign key of one table is to the other. -/
def Catalog.Refers (cat : Catalog) (child parent : Bytes) : Prop :=
  ∃ schema, cat.tables.lookup child = some schema ∧ ∃ fk ∈ schema.foreign_keys, fk.ref_table = parent

/-- The rows of every table. -/
abbrev AllContents := Bytes → Contents

/-- A row and its table. -/
abbrev TableRow := Bytes × Key × Row

/-- The values of columns. -/
def Row.values (row : Row) (cols : List UInt32) : Key := cols.map fun i => (row[i.toNat]?).getD .null

/-- A row references another one: its columns have no NULL, and equal values. -/
def ForeignKeyConstraint.References (fk : ForeignKeyConstraint) (child parent : Row) : Prop :=
  is_indexable (child.values fk.column_indices) = true ∧
    (child.values fk.column_indices).rank = (parent.values fk.ref_column_indices).rank

/-- A row references another one through a constraint of its table. -/
def Catalog.RowRefers (cat : Catalog) (child parent : TableRow) (fk : ForeignKeyConstraint) : Prop :=
  (∃ schema, cat.tables.lookup child.1 = some schema ∧ fk ∈ schema.foreign_keys) ∧ fk.ref_table = parent.1 ∧
    fk.References child.2.2 parent.2.2

/-- Rows of the contents, one of which references the other through a CASCADE constraint. -/
def Catalog.Cascades (cat : Catalog) (C : AllContents) (child parent : TableRow) : Prop :=
  child.2 ∈ C child.1 ∧ parent.2 ∈ C parent.1 ∧ ∃ fk, cat.RowRefers child parent fk ∧ fk.on_delete = .CASCADE

/-- A row of `C'` references one that is not among them any more. -/
def Catalog.Dangles (cat : Catalog) (C C' : AllContents) : Prop :=
  ∃ child parent fk, cat.RowRefers child parent fk ∧ child.2 ∈ C' child.1 ∧ parent.2 ∈ C parent.1 ∧ parent.2 ∉ C' parent.1

/-- Every table and every index has a tree. -/
structure Catalog.Opened (cat : Catalog) : Prop where
  tables : ∀ name schema, cat.tables.lookup name = some schema → schema.root_page.toNat ≠ INVALID_PAGE
  indexes : ∀ name idx, cat.indexes.lookup name = some idx → idx.root_page.toNat ≠ INVALID_PAGE

/-- **The trees hold the rows of all tables**, and every foreign key has its index on the child table, over its columns. -/
structure ExecState.Represents (s : ExecState) (C : AllContents) : Prop where
  opened : s.catalog.Opened
  table : ∀ name schema, s.catalog.tables.lookup name = some schema →
    ∃ tbl, Table.construct schema (s.catalog.get_indexes_for_table name) = .ok tbl ∧ tbl.Represents s.trees (C name) ∧ tbl.Sound (C name)
  child_index : ∀ name schema, s.catalog.tables.lookup name = some schema → ∀ fk ∈ schema.foreign_keys,
    ∃ idx, s.catalog.indexes.lookup fk.child_index_name = some idx ∧ idx.table_name = name ∧ schema.At idx.column_names fk.column_indices

/-- **The way to the first row that can go ends at a RESTRICT constraint**: from a row to the first constraint through which it is
referenced, and on from the first row that references it. -/
inductive ExecState.RestrictFirst (s : ExecState) (C : AllContents) : Bytes → Key → Prop
  | restrict {table_name : Bytes} {key : Key} {e : Key × Row} {child : ReferencingChildren} {children : List ReferencingChildren} :
    e ∈ C table_name → e.1.rank = key.rank →
    find_referencing_children e.2 (s.catalog.get_foreign_keys_referencing table_name) s = .ok (child :: children) s →
    child.constraint.on_delete = .RESTRICT → RestrictFirst s C table_name key
  | cascade {table_name : Bytes} {key pk : Key} {pks : List Key} {e : Key × Row} {child : ReferencingChildren}
    {children : List ReferencingChildren} : e ∈ C table_name → e.1.rank = key.rank →
    find_referencing_children e.2 (s.catalog.get_foreign_keys_referencing table_name) s = .ok (child :: children) s →
    child.constraint.on_delete = .CASCADE → child.child_primary_keys = pk :: pks → RestrictFirst s C child.child_table pk →
    RestrictFirst s C table_name key

end GSDBEngine
