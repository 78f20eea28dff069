import GSDBEngine.Spec.Schema
import GSDBEngine.Spec.Disk
import GSDBEngine.Lib.Reader
import Mathlib.Data.List.AList

/-!
# The catalog

`catalog_manager.cpp`: the schemas in memory, and all of them serialized in page 1. Every
change edits the maps first and persists them then. The order of the schemas in the page is
that of a hash table.

* `create_table`, `drop_table`, `create_index`, `drop_index`, `update_table_root`,
  `update_index_root`: the changes.
* `serialize`, `deserialize`: the bytes of the page.
* `CatalogCall`, `CatalogManager.Reachable`: **the calls, and the states they lead to, with reopenings in between.**
-/

namespace GSDBEngine

/-- `std::unordered_map` by name. -/
abbrev NameMap (α : Type) := AList fun _ : Bytes => α

/-- Erases what `p` holds of. -/
def NameMap.eraseIf {α : Type} (m : NameMap α) (p : α → Bool) : NameMap α where
  entries := m.entries.filter fun e => !p e.2
  nodupKeys := m.nodupKeys.sublist List.filter_sublist

/-! ### Bytes -/

section write

def write_uint8 (v : UInt8) : Bytes := [v]

def write_bool (b : Bool) : Bytes := [if b then 1 else 0]

def write_uint32 (v : UInt32) : Bytes := append_u32 v.toNat

/-- `static_cast<uint32_t>(size())`. -/
def write_size (n : ℕ) : Bytes := write_uint32 (UInt32.ofNat n)

def write_string (str : Bytes) : Bytes := write_size str.length ++ str

def write_value : Value → Bytes
  | .null => write_uint8 0
  | .int v => write_uint8 1 ++ write_uint32 v.toUInt32
  | .float v => write_uint8 2 ++ write_uint32 v.bits
  | .boolean v => write_uint8 3 ++ write_bool v
  | .varchar v => write_uint8 4 ++ write_string v

def ColumnType.toByte : ColumnType → UInt8
  | INT => 1
  | FLOAT => 2
  | BOOLEAN => 3
  | VARCHAR => 4

def CheckOp.toByte : CheckOp → UInt8
  | EQ => 1
  | NEQ => 2
  | LT => 3
  | GT => 4
  | LTE => 5
  | GTE => 6

def FkOnDelete.toByte : FkOnDelete → UInt8
  | RESTRICT => 1
  | CASCADE => 2

/-- A `uint32_t` count and the elements. -/
def write_list {α : Type} (write : α → Bytes) (l : List α) : Bytes := write_size l.length ++ l.flatMap write

def write_column (col : Column) : Bytes :=
  write_string col.name ++ (write_uint8 col.type.toByte ++ (write_uint32 col.max_length ++ (write_bool col.is_nullable ++
    (write_bool col.is_primary_key ++ (write_bool col.auto_increment ++ (write_bool col.has_default ++
      (if col.has_default then write_value col.default_value else [])))))))

def write_check (c : CheckConstraint) : Bytes :=
  write_uint32 c.column_index ++ (write_uint8 c.op.toByte ++ write_value c.operand)

def write_foreign_key (fk : ForeignKeyConstraint) : Bytes :=
  write_list write_uint32 fk.column_indices ++ (write_string fk.ref_table ++ (write_list write_uint32 fk.ref_column_indices ++
    (write_uint8 fk.on_delete.toByte ++ (write_string fk.child_index_name ++ write_string fk.ref_index_name))))

def write_table (schema : TableSchema) : Bytes :=
  write_string schema.name ++ (write_uint32 schema.root_page ++ (write_list write_uint32 schema.primary_key_indices ++
    (write_list write_column schema.columns ++ (write_list write_check schema.checks ++
      (write_list write_foreign_key schema.foreign_keys ++ write_string schema.create_sql)))))

def write_index (idx : IndexSchema) : Bytes :=
  write_string idx.name ++ (write_string idx.table_name ++ (write_list write_string idx.column_names ++
    (write_uint32 idx.root_page ++ write_bool idx.is_unique)))

end write

/-! ### Reading -/

section read

/-- Bytes of the page from a position on; behind its end, and for a value that no enumeration has, it is undefined. -/
abbrev PageReader := Reader UInt8

def read_uint8 : PageReader UInt8
  | [] => none
  | b :: rest => some (b, rest)

def read_bool : PageReader Bool := do
  let b ← read_uint8
  pure (b != 0)

def read_uint32 : PageReader UInt32
  | b₀ :: b₁ :: b₂ :: b₃ :: rest =>
    some (UInt32.ofNat (b₀.toNat + 2 ^ 8 * b₁.toNat + 2 ^ 16 * b₂.toNat + 2 ^ 24 * b₃.toNat), rest)
  | _ => none

def read_string : PageReader Bytes := do
  let len ← read_uint32
  fun bytes => if len.toNat ≤ bytes.length then some (bytes.take len.toNat, bytes.drop len.toNat) else none

def read_value : PageReader Value := do
  let tag ← read_uint8
  match tag with
  | 0 => pure .null
  | 1 => do
    let v ← read_uint32
    pure (.int v.toInt32)
  | 2 => do
    let bits ← read_uint32
    pure (.float ⟨bits⟩)
  | 3 => do
    let b ← read_bool
    pure (.boolean b)
  | 4 => do
    let str ← read_string
    pure (.varchar str)
  | _ => fun _ => none

def read_type : PageReader ColumnType := do
  let b ← read_uint8
  match b with
  | 1 => pure .INT
  | 2 => pure .FLOAT
  | 3 => pure .BOOLEAN
  | 4 => pure .VARCHAR
  | _ => fun _ => none

def read_op : PageReader CheckOp := do
  let b ← read_uint8
  match b with
  | 1 => pure .EQ
  | 2 => pure .NEQ
  | 3 => pure .LT
  | 4 => pure .GT
  | 5 => pure .LTE
  | 6 => pure .GTE
  | _ => fun _ => none

def read_on_delete : PageReader FkOnDelete := do
  let b ← read_uint8
  match b with
  | 1 => pure .RESTRICT
  | 2 => pure .CASCADE
  | _ => fun _ => none

def read_list {α : Type} (read : PageReader α) : PageReader (List α) := do
  let n ← read_uint32
  Reader.many read n.toNat

/-- The default value, if there is one. -/
def read_default (has_default : Bool) : PageReader { v : Value // has_default = false → v = .null } :=
  match has_default with
  | true => do
    let v ← read_value
    pure ⟨v, fun h => by cases h⟩
  | false => pure ⟨.null, fun _ => rfl⟩

def read_column : PageReader Column := do
  let name ← read_string
  let type ← read_type
  let max_length ← read_uint32
  let is_nullable ← read_bool
  let is_primary_key ← read_bool
  let auto_increment ← read_bool
  let has_default ← read_bool
  let v ← read_default has_default
  pure ⟨name, type, max_length, is_nullable, is_primary_key, auto_increment, has_default, v.1, v.2⟩

def read_check : PageReader CheckConstraint := do
  let column_index ← read_uint32
  let op ← read_op
  let operand ← read_value
  pure ⟨column_index, op, operand⟩

def read_foreign_key : PageReader ForeignKeyConstraint := do
  let column_indices ← read_list read_uint32
  let ref_table ← read_string
  let ref_column_indices ← read_list read_uint32
  let on_delete ← read_on_delete
  let child_index_name ← read_string
  let ref_index_name ← read_string
  pure ⟨column_indices, ref_table, ref_column_indices, on_delete, child_index_name, ref_index_name⟩

def read_table : PageReader TableSchema := do
  let name ← read_string
  let root_page ← read_uint32
  let primary_key_indices ← read_list read_uint32
  let columns ← read_list read_column
  let checks ← read_list read_check
  let foreign_keys ← read_list read_foreign_key
  let create_sql ← read_string
  pure ⟨name, columns, root_page, primary_key_indices, checks, foreign_keys, create_sql⟩

def read_index : PageReader IndexSchema := do
  let name ← read_string
  let table_name ← read_string
  let column_names ← read_list read_string
  let root_page ← read_uint32
  let is_unique ← read_bool
  pure ⟨name, table_name, column_names, root_page, is_unique⟩

end read

/-! ### The manager -/

/-- The maps in memory. -/
structure Catalog where
  tables : NameMap TableSchema
  indexes : NameMap IndexSchema

namespace Catalog

/-- The same schemas, in whatever order. -/
def Same (c c' : Catalog) : Prop :=
  (∀ name, c.tables.lookup name = c'.tables.lookup name) ∧ ∀ name, c.indexes.lookup name = c'.indexes.lookup name

def empty : Catalog := ⟨∅, ∅⟩

def serialize (c : Catalog) : Bytes :=
  write_list write_table (c.tables.entries.map Sigma.snd) ++ write_list write_index (c.indexes.entries.map Sigma.snd)

/-- Schemas under their names. -/
def byName {α : Type} (name : α → Bytes) (l : List α) : NameMap α := l.foldl (fun m x => m.insert (name x) x) ∅

def read_catalog : PageReader Catalog := do
  let tables ← read_list read_table
  let indexes ← read_list read_index
  pure ⟨byName TableSchema.name tables, byName IndexSchema.name indexes⟩

/-- A page that begins with four zeros is an empty catalog. -/
def deserialize (data : Bytes) : Option Catalog :=
  if data.take 4 = [0, 0, 0, 0] then some empty else (read_catalog data).map Prod.fst

end Catalog

/-- Why a change is refused. -/
inductive CatalogErr where
  | table_exists (name : Bytes)
  | no_table (name : Bytes)
  | index_exists (name : Bytes)
  | no_index (name : Bytes)
  /-- catalog exceeds one page -/
  | too_large
  deriving DecidableEq

/-- `CatalogManager`: the maps, and page 1 as the last `commit` left it. -/
structure CatalogManager extends Catalog where
  page : Bytes

abbrev CatalogM := EStateM CatalogErr CatalogManager

namespace CatalogManager

/-- A new database. -/
def new : CatalogManager where
  toCatalog := Catalog.empty
  page := List.replicate PAGE_SIZE 0

/-- Everything to page 1, through the log. -/
def persist : CatalogM Unit := do
  let s ← get
  let data := s.serialize
  if data.length > PAGE_SIZE then throw .too_large
  set { s with page := data ++ List.replicate (PAGE_SIZE - data.length) 0 }

def create_table (schema : TableSchema) : CatalogM Unit := do
  let s ← get
  if (s.tables.lookup schema.name).isSome then throw (.table_exists schema.name)
  set { s with tables := s.tables.insert schema.name schema }
  persist

/-- The table, and every index of it. -/
def drop_table (table_name : Bytes) : CatalogM Unit := do
  let s ← get
  if (s.tables.lookup table_name).isNone then throw (.no_table table_name)
  set { s with
    tables := s.tables.erase table_name
    indexes := NameMap.eraseIf s.indexes fun idx => idx.table_name = table_name }
  persist

def create_index (index : IndexSchema) : CatalogM Unit := do
  let s ← get
  if (s.indexes.lookup index.name).isSome then throw (.index_exists index.name)
  set { s with indexes := s.indexes.insert index.name index }
  persist

def drop_index (index_name : Bytes) : CatalogM Unit := do
  let s ← get
  if (s.indexes.lookup index_name).isNone then throw (.no_index index_name)
  set { s with indexes := s.indexes.erase index_name }
  persist

def update_table_root (table_name : Bytes) (new_root_page : UInt32) : CatalogM Unit := do
  let s ← get
  match s.tables.lookup table_name with
  | none => throw (.no_table table_name)
  | some schema =>
    set { s with tables := s.tables.insert table_name { schema with root_page := new_root_page } }
    persist

def update_index_root (index_name : Bytes) (new_root_page : UInt32) : CatalogM Unit := do
  let s ← get
  match s.indexes.lookup index_name with
  | none => throw (.no_index index_name)
  | some index =>
    set { s with indexes := s.indexes.insert index_name { index with root_page := new_root_page } }
    persist

end CatalogManager

/-! ### Runs -/

inductive CatalogCall where
  | create_table (schema : TableSchema)
  | drop_table (table_name : Bytes)
  | create_index (index : IndexSchema)
  | drop_index (index_name : Bytes)
  | update_table_root (table_name : Bytes) (new_root_page : UInt32)
  | update_index_root (index_name : Bytes) (new_root_page : UInt32)

def CatalogCall.body : CatalogCall → CatalogM Unit
  | create_table schema => CatalogManager.create_table schema
  | drop_table table_name => CatalogManager.drop_table table_name
  | create_index index => CatalogManager.create_index index
  | drop_index index_name => CatalogManager.drop_index index_name
  | update_table_root table_name new_root_page => CatalogManager.update_table_root table_name new_root_page
  | update_index_root index_name new_root_page => CatalogManager.update_index_root index_name new_root_page

/-- The states after calls, whichever way each ends, and after `load` in a new process. -/
inductive CatalogManager.Reachable : CatalogManager → Prop
  | new : Reachable .new
  | returned {c : CatalogCall} {s s' : CatalogManager} : Reachable s → c.body s = .ok () s' → Reachable s'
  | threw {c : CatalogCall} {s s' : CatalogManager} {e : CatalogErr} : Reachable s → c.body s = .error e s' → Reachable s'
  | load {s : CatalogManager} {cat : Catalog} : Reachable s → Catalog.deserialize s.page = some cat → Reachable { s with toCatalog := cat }

/-- **What a call should do**: nothing in memory if it throws, and if it returns, what page 1 has is what is in memory. -/
def CatalogCall.Atomic (c : CatalogCall) (s : CatalogManager) : Prop :=
  match c.body s with
  | .ok _ s' => ∃ cat, Catalog.deserialize s'.page = some cat ∧ cat.Same s'.toCatalog
  | .error _ s' => s'.toCatalog.Same s.toCatalog

end GSDBEngine
