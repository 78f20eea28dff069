import GSDBEngine.Spec.Query

/-!
# CREATE, DROP and the catalog

`executor.cpp`: the statements that change the catalog. A statement is checked first, against the
catalog; what it creates comes with an empty tree, and CREATE INDEX fills it from the rows there are.

* `table_schema`: what CREATE TABLE checks, and the schema it makes of it.
* `execute_create_table`, `execute_drop_table`, `execute_create_index`, `execute_drop_index`.
* `Catalog.Supported`: **every foreign key has the table and the indexes that it is enforced with.**
-/

namespace GSDBEngine

open Eff

/-! ### Statements -/

/-- The bytes of a word. -/
def bytes (str : String) : Bytes := str.toList.map fun c => UInt8.ofNat c.toNat

structure ColumnDef (Q : Type) where
  name : Bytes
  type_name : Bytes
  varchar_len : UInt32
  is_primary_key : Bool
  is_nullable : Bool
  auto_increment : Bool
  is_unique : Bool
  has_default : Bool
  default_value : Value
  /-- without a DEFAULT clause the value is left as it is initialised -/
  no_default : has_default = false → default_value = .null
  check : Option (WhereExpr Q)
  /-- inline `REFERENCES`; empty if there is none -/
  fk_ref_table : Bytes
  fk_ref_column : Bytes

structure ForeignKeyDef where
  columns : List Bytes
  ref_table : Bytes
  ref_columns : List Bytes
  on_delete : FkOnDelete

structure CreateTableStmt (Q : Type) where
  table_name : Bytes
  columns : List (ColumnDef Q)
  table_checks : List (WhereExpr Q)
  table_primary_key : List Bytes
  table_unique : List (List Bytes)
  foreign_keys : List ForeignKeyDef
  source_text : Bytes

structure CreateIndexStmt where
  index_name : Bytes
  /-- an identifier -/
  named : index_name ≠ []
  table_name : Bytes
  column_names : List Bytes
  is_unique : Bool

/-! ### Failures -/

/-- Why CHECK is not supported. -/
inductive CheckErr where
  | not_a_conjunction
  | has_subquery
  | against_column
  | qualified (column : Bytes)
  | unknown_column (column : Bytes)
  | operator
  deriving DecidableEq

/-- A statement without success, by a result or by an exception. -/
inductive DdlErr where
  | table_exists (table : Bytes)
  | table_does_not_exist (table : Bytes)
  | index_does_not_exist (index : Bytes)
  | varchar_length
  | unknown_type (type_name : Bytes)
  | auto_increment_type (column : Bytes)
  | auto_increment_default (column : Bytes)
  | default_null (column : Bytes)
  | default_type (column : Bytes) (type : ColumnType)
  | default_length (column : Bytes)
  | two_primary_keys (table : Bytes)
  | combined_primary_key (table : Bytes)
  | primary_key_column (table column : Bytes)
  | no_primary_key (table : Bytes)
  | unique_no_columns (table : Bytes)
  | unique_column (table column : Bytes)
  | self_reference (table : Bytes)
  | unknown_parent (table ref_table : Bytes)
  | column_count (table : Bytes)
  | foreign_key_column (table column : Bytes)
  | references_column (table ref_column ref_table : Bytes)
  | foreign_key_type (table column ref_column : Bytes)
  | not_a_key (table ref_table : Bytes)
  | check (table : Bytes) (e : CheckErr)
  | still_referenced (table by_table : Bytes)
  | index_no_columns (index : Bytes)
  | index_column (index column table : Bytes)
  | index_duplicates (index table : Bytes)
  | restricted (table child_table : Bytes)
  /-- `Index::find` -/
  | search_arity (index : Bytes)
  /-- the recursion is cut off -/
  | too_deep
  | catalog (e : CatalogErr)
  | table (e : TableErr)
  deriving DecidableEq

/-- The catalog and the trees. -/
structure ExecState where
  catalog : CatalogManager
  trees : Trees

abbrev DdlM := EStateM DdlErr ExecState

/-- A call of the `CatalogManager`. -/
def on_catalog {α : Type} (m : CatalogM α) : DdlM α := fun s =>
  match m s.catalog with
  | .ok a catalog => .ok a { s with catalog := catalog }
  | .error e catalog => .error (.catalog e) { s with catalog := catalog }

/-- A call of a `Table` or an `Index`, and the object behind it. -/
def on_trees {α : Type} (root_page : UInt32) (index_root_page : Bytes → UInt32) (m : TableM α) : DdlM (α × TableState) := fun s =>
  match m ⟨s.trees, root_page, index_root_page, 1⟩ with
  | .ok a obj => .ok (a, obj) { s with trees := obj.trees }
  | .error e obj => .error (.table e) { s with trees := obj.trees }

/-- The `BTree` of a root page `INVALID_PAGE`: an empty leaf. -/
def new_tree (t : TreeName) : DdlM UInt32 := do
  let s ← get
  set { s with trees := s.trees.write t SortedMap.empty }
  pure (s.trees.roots 0).1

/-! ### Columns -/

def value_matches_type (v : Value) (col_type : ColumnType) : Bool :=
  match col_type, v with
  | .INT, .int _ => true
  | .FLOAT, .float _ => true
  | .BOOLEAN, .boolean _ => true
  | .VARCHAR, .varchar _ => true
  | _, _ => false

def column_type {Q : Type} (def_ : ColumnDef Q) : Except DdlErr (ColumnType × UInt32) :=
  if def_.type_name = bytes "INT" then pure (.INT, 0)
  else if def_.type_name = bytes "FLOAT" then pure (.FLOAT, 0)
  else if def_.type_name = bytes "BOOLEAN" then pure (.BOOLEAN, 0)
  else if def_.type_name = bytes "VARCHAR" then
    if def_.varchar_len = 0 then throw .varchar_length else pure (.VARCHAR, def_.varchar_len)
  else throw (.unknown_type def_.type_name)

/-- A DEFAULT that the column can store. -/
def check_default (col : Column) : Except DdlErr Unit :=
  match col.default_value with
  | .null => if col.is_nullable then pure () else throw (.default_null col.name)
  | v =>
    if value_matches_type v col.type = false then throw (.default_type col.name col.type)
    else
      match v with
      | .varchar str => if str.length > col.max_length.toNat then throw (.default_length col.name) else pure ()
      | _ => pure ()

def column_def_to_column {Q : Type} (def_ : ColumnDef Q) : Except DdlErr Column := do
  let (type, max_length) ← column_type def_
  let col : Column :=
    { name := def_.name, type := type, max_length := max_length, is_nullable := def_.is_nullable,
      is_primary_key := def_.is_primary_key, auto_increment := def_.auto_increment, has_default := def_.has_default,
      default_value := def_.default_value, no_default := def_.no_default }
  if def_.auto_increment && type ≠ .INT then throw (.auto_increment_type def_.name)
  if def_.auto_increment && col.has_default then throw (.auto_increment_default def_.name)
  if col.has_default then check_default col
  pure col

/-! ### CREATE TABLE -/

section create_table

variable {Q : Type} (stmt : CreateTableStmt Q)

/-- The positions of the inline PRIMARY KEY columns. -/
def inline_primary_key : ℕ → List Column → List UInt32
  | _, [] => []
  | i, col :: columns =>
    if col.is_primary_key then UInt32.ofNat i :: inline_primary_key (i + 1) columns else inline_primary_key (i + 1) columns

/-- `PRIMARY KEY (col1, ...)`: the columns are marked in the schema. -/
def add_primary_key (schema : TableSchema) : List Bytes → Except DdlErr TableSchema
  | [] => pure schema
  | col_name :: names =>
    match schema.column_index col_name with
    | none => throw (.primary_key_column stmt.table_name col_name)
    | some idx => add_primary_key
      { schema with
        primary_key_indices := schema.primary_key_indices ++ [UInt32.ofNat idx]
        columns := schema.columns.modify idx fun col => { col with is_primary_key := true, is_nullable := false } } names

/-- The columns and the primary key. -/
def key_schema : Except DdlErr TableSchema := do
  let columns ← stmt.columns.mapM column_def_to_column
  let inline := inline_primary_key 0 columns
  let schema : TableSchema :=
    { name := stmt.table_name, columns := columns, root_page := UInt32.ofNat INVALID_PAGE, primary_key_indices := inline,
      checks := [], foreign_keys := [], create_sql := stmt.source_text }
  if inline.length > 1 then throw (.two_primary_keys stmt.table_name)
  if stmt.table_primary_key = [] then
    if inline = [] then throw (.no_primary_key stmt.table_name) else pure schema
  else if inline ≠ [] then throw (.combined_primary_key stmt.table_name)
  else add_primary_key stmt schema stmt.table_primary_key

/-- The names of the columns. -/
def TableSchema.names_of (schema : TableSchema) (cols : List UInt32) : List Bytes :=
  cols.map fun i => ((schema.columns[i.toNat]?).map Column.name).getD []

/-- `UNIQUE (...)` names columns of the table. -/
def check_unique_group (schema : TableSchema) (group : List Bytes) : Except DdlErr Unit := do
  if group = [] then throw (.unique_no_columns stmt.table_name)
  match group.find? fun name => (schema.column_index name).isNone with
  | some name => throw (.unique_column stmt.table_name name)
  | none => pure ()

/-- Each set of columns once, and not the one of the primary key. -/
def unique_groups_to_build (pk_names : List Bytes) : List (List Bytes) → List (List Bytes) → List (List Bytes)
  | built, [] => built
  | built, group :: groups =>
    if group.isPerm pk_names || built.any fun other => group.isPerm other then unique_groups_to_build pk_names built groups
    else unique_groups_to_build pk_names (built ++ [group]) groups

def unique_groups (schema : TableSchema) : Except DdlErr (List (List Bytes)) := do
  stmt.table_unique.forM (check_unique_group stmt schema)
  let inline := (stmt.columns.filter ColumnDef.is_unique).map fun col => [col.name]
  pure (unique_groups_to_build (schema.names_of schema.primary_key_indices) [] (inline ++ stmt.table_unique))

/-- The clauses, and the inline `REFERENCES` behind them. -/
def fk_defs : List ForeignKeyDef :=
  stmt.foreign_keys ++ (stmt.columns.filter fun col => col.fk_ref_table ≠ []).map fun col =>
    ⟨[col.name], col.fk_ref_table, [col.fk_ref_column], .RESTRICT⟩

/-- The columns of a FOREIGN KEY clause, in both tables. -/
def resolve_fk_columns (schema ref_schema : TableSchema) (ref_table : Bytes) :
    List Bytes → List Bytes → Except DdlErr (List UInt32 × List UInt32)
  | name :: columns, ref_name :: ref_columns =>
    match schema.column_index name, ref_schema.column_index ref_name with
    | none, _ => throw (.foreign_key_column stmt.table_name name)
    | _, none => throw (.references_column stmt.table_name ref_name ref_table)
    | some idx, some ref_idx =>
      if (schema.columns[idx]?).map Column.type ≠ (ref_schema.columns[ref_idx]?).map Column.type then
        throw (.foreign_key_type stmt.table_name name ref_name)
      else do
        let (col_indices, ref_col_indices) ← resolve_fk_columns schema ref_schema ref_table columns ref_columns
        pure (UInt32.ofNat idx :: col_indices, UInt32.ofNat ref_idx :: ref_col_indices)
  | _, _ => pure ([], [])

/-- `get_indexes_for_table`. -/
def Catalog.get_indexes_for_table (cat : Catalog) (table_name : Bytes) : List IndexSchema :=
  (cat.indexes.entries.map Sigma.snd).filter fun idx => idx.table_name = table_name

/-- The index to look the parent up with; empty for its primary key. -/
def ref_index_name (cat : Catalog) (ref_schema : TableSchema) (fk : ForeignKeyDef) : Option Bytes :=
  if fk.ref_columns = ref_schema.names_of ref_schema.primary_key_indices then some []
  else
    ((cat.get_indexes_for_table fk.ref_table).find? fun idx => idx.is_unique && decide (idx.column_names = fk.ref_columns)).map
      IndexSchema.name

/-- `__fk_<table>_<column>...`. -/
def child_index_name (table_name : Bytes) (columns : List Bytes) : Bytes :=
  bytes "__fk_" ++ table_name ++ columns.flatMap fun col_name => bytes "_" ++ col_name

def foreign_key (cat : Catalog) (schema : TableSchema) (fk : ForeignKeyDef) : Except DdlErr ForeignKeyConstraint :=
  if fk.ref_table = stmt.table_name then throw (.self_reference stmt.table_name)
  else
    match cat.tables.lookup fk.ref_table with
    | none => throw (.unknown_parent stmt.table_name fk.ref_table)
    | some ref_schema =>
      if fk.columns = [] ∨ fk.columns.length ≠ fk.ref_columns.length then throw (.column_count stmt.table_name)
      else do
        let (col_indices, ref_col_indices) ← resolve_fk_columns stmt schema ref_schema fk.ref_table fk.columns fk.ref_columns
        match ref_index_name cat ref_schema fk with
        | none => throw (.not_a_key stmt.table_name fk.ref_table)
        | some name =>
          let constraint : ForeignKeyConstraint :=
            { column_indices := col_indices, ref_table := fk.ref_table, ref_column_indices := ref_col_indices, on_delete := fk.on_delete,
              child_index_name := child_index_name stmt.table_name fk.columns, ref_index_name := name }
          pure constraint

def compare_op_to_check_op : CompareOp → Except CheckErr CheckOp
  | .EQ => pure .EQ
  | .NEQ => pure .NEQ
  | .LT => pure .LT
  | .GT => pure .GT
  | .LTE => pure .LTE
  | .GTE => pure .GTE
  | _ => throw .operator

/-- A conjunction of comparisons with literals. -/
def flatten_check_expr (schema : TableSchema) : WhereExpr Q → Except CheckErr (List CheckConstraint)
  | .and left right => do
    let checks ← flatten_check_expr schema left
    let more ← flatten_check_expr schema right
    pure (checks ++ more)
  | .or _ _ => throw .not_a_conjunction
  | .not _ => throw .not_a_conjunction
  | .leaf (.EXISTS _) => throw .has_subquery
  | .leaf (.COMPARE cmp) =>
    if cmp.operand_column.isSome then throw .against_column
    else if cmp.column.table_name ≠ [] then throw (.qualified cmp.column.column_name)
    else
      match schema.column_index cmp.column.column_name with
      | none => throw (.unknown_column cmp.column.column_name)
      | some idx => do
        let op ← compare_op_to_check_op cmp.op
        pure [⟨UInt32.ofNat idx, op, cmp.operand⟩]

/-- The checks of the columns, then those of the table. -/
def check_constraints (schema : TableSchema) : Except DdlErr (List CheckConstraint) := do
  let exprs := stmt.columns.filterMap ColumnDef.check ++ stmt.table_checks
  let checks ← exprs.mapM fun expr => (flatten_check_expr schema expr).mapError (.check stmt.table_name)
  pure checks.flatten

/-- **What is checked before anything is created**, and the schema with the groups of UNIQUE columns. -/
def table_schema (cat : Catalog) : Except DdlErr (TableSchema × List (List Bytes)) := do
  if (cat.tables.lookup stmt.table_name).isSome then throw (.table_exists stmt.table_name)
  let schema ← key_schema stmt
  let groups ← unique_groups stmt schema
  let foreign_keys ← (fk_defs stmt).mapM (foreign_key stmt cat schema)
  let checks ← check_constraints stmt schema
  pure ({ schema with foreign_keys := foreign_keys, checks := checks }, groups)

/-- An index and its empty tree. -/
def create_index_tree (index : IndexSchema) : DdlM Unit := do
  on_catalog (CatalogManager.create_index index)
  let root ← new_tree (.index index.name)
  on_catalog (CatalogManager.update_index_root index.name root)

/-- `__unique_<table>_<column>...`. -/
def unique_index (table_name : Bytes) (group : List Bytes) : IndexSchema where
  name := bytes "__unique_" ++ table_name ++ group.flatMap fun col_name => bytes "_" ++ col_name
  table_name := table_name
  column_names := group
  root_page := UInt32.ofNat INVALID_PAGE
  is_unique := true

/-- The index on the columns of a foreign key. -/
def child_index (schema : TableSchema) (fk : ForeignKeyConstraint) : IndexSchema where
  name := fk.child_index_name
  table_name := schema.name
  column_names := schema.names_of fk.column_indices
  root_page := UInt32.ofNat INVALID_PAGE
  is_unique := false

def execute_create_table : DdlM Unit := do
  let s ← get
  let (schema, groups) ← liftE (table_schema stmt s.catalog.toCatalog)
  on_catalog (CatalogManager.create_table schema)
  let root ← new_tree (.table stmt.table_name)
  on_catalog (CatalogManager.update_table_root stmt.table_name root)
  groups.forM fun group => create_index_tree (unique_index stmt.table_name group)
  schema.foreign_keys.forM fun fk => create_index_tree (child_index schema fk)

end create_table

/-! ### DROP TABLE, DROP INDEX -/

/-- `get_foreign_keys_referencing`: the foreign keys to a table, and the tables they are of. -/
def Catalog.get_foreign_keys_referencing (cat : Catalog) (parent_table : Bytes) : List (Bytes × ForeignKeyConstraint) :=
  (cat.tables.entries.map Sigma.snd).flatMap fun schema =>
    (schema.foreign_keys.filter fun fk => fk.ref_table = parent_table).map fun fk => (schema.name, fk)

def execute_drop_table (table_name : Bytes) : DdlM Unit := do
  let s ← get
  if (s.catalog.tables.lookup table_name).isNone then throw (.table_does_not_exist table_name)
  match s.catalog.get_foreign_keys_referencing table_name with
  | (by_table, _) :: _ => throw (.still_referenced table_name by_table)
  | [] => on_catalog (CatalogManager.drop_table table_name)

/-- Whatever the index is used for. -/
def execute_drop_index (index_name : Bytes) : DdlM Unit := do
  let s ← get
  if (s.catalog.indexes.lookup index_name).isNone then throw (.index_does_not_exist index_name)
  on_catalog (CatalogManager.drop_index index_name)

/-! ### CREATE INDEX -/

/-- The indexed values and the keys of the rows without a NULL there. -/
def index_entries (schema : TableSchema) (col_indices : List ℕ) (rows : List ScanResult) : List (Key × Key) :=
  rows.filterMap fun m =>
    let indexed_value := col_indices.map fun i => m.row.getD i .null
    if indexed_value.any Value.isNull then none
    else some (indexed_value, schema.primary_key_indices.map fun i => m.row.getD i.toNat .null)

/-- `std::set<Key>`: one of two keys that neither is less than the other. -/
def has_duplicate : List Key → List Key → Bool
  | _, [] => false
  | seen_values, v :: values =>
    seen_values.any (fun seen => !seen.lt v && !Key.lt v seen) || has_duplicate (v :: seen_values) values

def execute_create_index (stmt : CreateIndexStmt) : DdlM Unit := do
  let s ← get
  match s.catalog.tables.lookup stmt.table_name with
  | none => throw (.table_does_not_exist stmt.table_name)
  | some schema =>
    if stmt.column_names = [] then throw (.index_no_columns stmt.index_name)
    match stmt.column_names.find? fun name => (schema.column_index name).isNone with
    | some name => throw (.index_column stmt.index_name name stmt.table_name)
    | none =>
      let col_indices := stmt.column_names.map fun name => (schema.column_index name).getD 0
      let (rows, _) ← on_trees schema.root_page (fun _ => 0) (Table.scan ⟨schema, []⟩ fun _ => some true)
      let entries := index_entries schema col_indices rows
      if stmt.is_unique && has_duplicate [] (entries.map Prod.fst) then throw (.index_duplicates stmt.index_name stmt.table_name)
      let index : IndexSchema := ⟨stmt.index_name, stmt.table_name, stmt.column_names, UInt32.ofNat INVALID_PAGE, stmt.is_unique⟩
      on_catalog (CatalogManager.create_index index)
      let root ← new_tree (.index stmt.index_name)
      let idx : IndexBinding := ⟨index, schema.primary_key_indices.length, col_indices⟩
      let (_, obj) ← on_trees 0 (fun _ => root) (entries.forM fun e => idx.insert_entry e.1 e.2)
      on_catalog (CatalogManager.update_index_root stmt.index_name (obj.index_root_page stmt.index_name))

/-! ### Runs -/

inductive DdlStmt (Q : Type) where
  | create_table (stmt : CreateTableStmt Q)
  | drop_table (table_name : Bytes)
  | create_index (stmt : CreateIndexStmt)
  | drop_index (index_name : Bytes)

variable {Q : Type}

def DdlStmt.execute : DdlStmt Q → DdlM Unit
  | create_table stmt => execute_create_table stmt
  | drop_table table_name => execute_drop_table table_name
  | create_index stmt => execute_create_index stmt
  | drop_index index_name => execute_drop_index index_name

/-- A statement that succeeds. -/
def DdlStmt.Succeeds (stmt : DdlStmt Q) (s s' : ExecState) : Prop := stmt.execute s = .ok () s'

/-- A new database. -/
def ExecState.new (trees : Trees) : ExecState := ⟨.new, trees⟩

/-- Names of columns, and their positions in the schema. -/
def TableSchema.At (schema : TableSchema) (names : List Bytes) (cols : List UInt32) : Prop :=
  names.map schema.column_index = cols.map fun i => some i.toNat

/-- What a foreign key is enforced with. -/
structure Catalog.Supports (cat : Catalog) (schema : TableSchema) (fk : ForeignKeyConstraint) : Prop where
  parent : ∃ ref_schema, cat.tables.lookup fk.ref_table = some ref_schema ∧
    if fk.ref_index_name = [] then fk.ref_column_indices = ref_schema.primary_key_indices
    else ∃ idx, cat.indexes.lookup fk.ref_index_name = some idx ∧ idx.table_name = fk.ref_table ∧ idx.is_unique = true ∧
      ref_schema.At idx.column_names fk.ref_column_indices
  child : ∃ idx, cat.indexes.lookup fk.child_index_name = some idx ∧ idx.table_name = schema.name ∧
    schema.At idx.column_names fk.column_indices

/-- **Every foreign key of every table has its support.** -/
def Catalog.Supported (cat : Catalog) : Prop :=
  ∀ name schema, cat.tables.lookup name = some schema → ∀ fk ∈ schema.foreign_keys, cat.Supports schema fk

/-- DROP INDEX spares the indexes that a foreign key is enforced with, and a primary key that CREATE TABLE
references is found by the names of its columns: each is the first column of its name. -/
def DdlStmt.sound : DdlStmt Q → ExecState → Prop
  | create_table stmt, s => ∀ fk ∈ fk_defs stmt, ∀ ref_schema, s.catalog.tables.lookup fk.ref_table = some ref_schema →
    fk.ref_columns = ref_schema.names_of ref_schema.primary_key_indices → ref_schema.At fk.ref_columns ref_schema.primary_key_indices
  | drop_index index_name, s => ∀ name schema, s.catalog.tables.lookup name = some schema → ∀ fk ∈ schema.foreign_keys,
    fk.child_index_name ≠ index_name ∧ fk.ref_index_name ≠ index_name
  | _, _ => True

end GSDBEngine
