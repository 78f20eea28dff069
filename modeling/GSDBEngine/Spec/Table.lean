import GSDBEngine.Spec.Row
import GSDBEngine.Lib.SortedMap
import GSDBEngine.Lib.Eff
import Mathlib.Logic.Function.Basic

/-!
# Tables and indexes over maps

`table.cpp` and `index.cpp`, with every B+ tree as the finite map it stands for. A tree has a
root besides its entries; which root a write leaves is not determined here.

* `btree_search`, `btree_insert`, `btree_remove`, `btree_prefix_scan`: a tree.
* `IndexBinding.insert_entry`, `IndexBinding.remove_entry`, `IndexBinding.check_unique`: an `Index`.
* `Table.insert`, `Table.update`, `Table.update_matched`, `Table.delete_row` and the rest: a `Table`.
-/

namespace GSDBEngine

open Eff

/-! ### Trees -/

abbrev KeyMap := SortedMap Key.rank Bytes

/-- A page id other than `INVALID_PAGE`. -/
abbrev Root := { p : UInt32 // p.toNat ≠ INVALID_PAGE }

structure MapTree where
  entries : KeyMap
  root : Root

/-- Whose tree it is. -/
inductive TreeName where
  | table (name : Bytes)
  | index (name : Bytes)
  deriving DecidableEq

/-- The trees, and the roots that the writes to come will leave. -/
structure Trees where
  tree : TreeName → MapTree
  roots : ℕ → Root

def Trees.write (s : Trees) (t : TreeName) (m : KeyMap) : Trees where
  tree := Function.update s.tree t ⟨m, s.roots 0⟩
  roots n := s.roots (n + 1)

/-- What `Table` and `Index` throw. -/
inductive TableErr where
  | duplicate_key
  | key_not_found
  /-- `Row::get` -/
  | column_out_of_range
  /-- `std::get` of another alternative -/
  | bad_access
  | entry_arity (index : Bytes)
  | unique_violation (index : Bytes)
  | null_key (column : Bytes)
  | duplicate_primary_key
  | primary_key_not_found
  | column_index_out_of_range (col_idx : ℕ)
  | new_key_exists
  | batch_unique (index : Bytes)
  | batch_key
  | other_table (index : Bytes)
  | unknown_column (index column : Bytes)
  | row (e : RowErr)
  /-- thrown by a predicate -/
  | predicate
  deriving DecidableEq

/-- What the methods of a `Table` change: the trees, and in the objects the roots and the counter. -/
structure TableState where
  trees : Trees
  root_page : UInt32
  index_root_page : Bytes → UInt32
  next_auto_increment : UInt32

abbrev TableM := EStateM TableErr TableState

/-- The write, and the root in the object. -/
def TableState.write (s : TableState) (t : TreeName) (m : KeyMap) : TableState :=
  match t with
  | .table _ => { s with trees := s.trees.write t m, root_page := (s.trees.roots 0).1 }
  | .index name =>
    { s with trees := s.trees.write t m, index_root_page := Function.update s.index_root_page name (s.trees.roots 0).1 }

def btree_search (t : TreeName) (key : Key) : TableM (Option Bytes) := do
  let s ← get
  pure ((s.trees.tree t).entries.find? key)

def btree_insert (t : TreeName) (key : Key) (value : Bytes) : TableM Unit := do
  let s ← get
  match h : (s.trees.tree t).entries.find? key with
  | some _ => throw .duplicate_key
  | none => set (s.write t ((s.trees.tree t).entries.insert key value h))

def btree_remove (t : TreeName) (key : Key) : TableM Unit := do
  let s ← get
  match (s.trees.tree t).entries.find? key with
  | none => throw .key_not_found
  | some _ => set (s.write t ((s.trees.tree t).entries.erase key))

def btree_scan_all (t : TreeName) : TableM (List (Key × Bytes)) := do
  let s ← get
  pure (s.trees.tree t).entries.entries

/-- `key_has_prefix`. -/
def Key.hasPrefix (key start : Key) : Bool := decide (start.length ≤ key.length) && Key.eq (key.take start.length) start

def btree_prefix_scan (t : TreeName) (start : Key) : TableM (List (Key × Bytes)) := do
  let all ← btree_scan_all t
  pure (all.filter fun e => e.1.hasPrefix start)

/-! ### Index -/

/-- An `Index` of a table, and the columns of the table that it is over. -/
structure IndexBinding where
  schema : IndexSchema
  pk_arity : ℕ
  column_indices : List ℕ

def is_indexable (indexed_value : Key) : Bool := indexed_value.all fun v => !v.isNull

namespace IndexBinding

def make_entry_key (idx : IndexBinding) (indexed_value primary_key : Key) : TableM Key := do
  if indexed_value.length ≠ idx.schema.column_names.length then throw (.entry_arity idx.schema.name)
  if primary_key.length ≠ idx.pk_arity then throw (.entry_arity idx.schema.name)
  pure (indexed_value ++ primary_key)

/-- No other row has the value. -/
def check_unique (idx : IndexBinding) (indexed_value primary_key : Key) : TableM Unit := do
  if idx.schema.is_unique then
    let existing ← btree_prefix_scan (.index idx.schema.name) indexed_value
    if existing.any fun e => !Key.eq (e.1.drop indexed_value.length) primary_key then throw (.unique_violation idx.schema.name)

/-- A value with a NULL is not entered. -/
def insert_entry (idx : IndexBinding) (indexed_value primary_key : Key) : TableM Unit := do
  if is_indexable indexed_value then
    idx.check_unique indexed_value primary_key
    let entry_key ← idx.make_entry_key indexed_value primary_key
    btree_insert (.index idx.schema.name) entry_key []

def remove_entry (idx : IndexBinding) (indexed_value primary_key : Key) : TableM Unit := do
  if is_indexable indexed_value then
    let entry_key ← idx.make_entry_key indexed_value primary_key
    btree_remove (.index idx.schema.name) entry_key

end IndexBinding

/-! ### Table -/

/-- A matched row and its key. -/
structure ScanResult where
  primary_key : Key
  row : Row

/-- A WHERE clause; `none` where it throws. -/
abbrev Predicate := Row → Option Bool

/-- `SET`: column indices and new values. -/
abbrev NewValues := List (ℕ × Value)

/-- The unchanging part of the object. -/
structure Table where
  schema : TableSchema
  indexes : List IndexBinding

/-- `is_single_int_auto_increment`: the column. -/
def TableSchema.auto_increment_column (schema : TableSchema) : Option ℕ :=
  match schema.primary_key_indices with
  | [i] =>
    match schema.columns[i.toNat]? with
    | some col => if col.type = .INT ∧ col.auto_increment then some i.toNat else none
    | none => none
  | _ => none

section extract

/-- `extract_primary_key`. -/
def TableSchema.extract_primary_key (schema : TableSchema) (row : Row) : Except TableErr Key :=
  go schema.primary_key_indices
where
  go : List UInt32 → Except TableErr Key
    | [] => pure []
    | col_idx :: rest =>
      match row[col_idx.toNat]? with
      | none => throw .column_out_of_range
      | some pk_val =>
        if pk_val.isNull then throw (.null_key ((schema.columns[col_idx.toNat]?.map Column.name).getD []))
        else do
          let key ← go rest
          pure (pk_val :: key)

/-- `extract_indexed_value`. -/
def IndexBinding.extract_indexed_value (idx : IndexBinding) (row : Row) : Except TableErr Key :=
  go idx.column_indices
where
  go : List ℕ → Except TableErr Key
    | [] => pure []
    | col_idx :: rest =>
      match row[col_idx]? with
      | none => throw .column_out_of_range
      | some v => do
        let key ← go rest
        pure (v :: key)

/-- The row with the new values in it. -/
def apply_values (row : Row) : NewValues → Except TableErr Row
  | [] => pure row
  | (col_idx, new_val) :: new_values =>
    if col_idx < row.length then apply_values (row.set col_idx new_val) new_values else throw .column_out_of_range

end extract

def serialize_row (schema : TableSchema) (row : Row) : Except TableErr Bytes :=
  (RowSerializer.serialize row schema).mapError .row

def deserialize_row (schema : TableSchema) (bytes : Bytes) : Except TableErr Row :=
  (RowSerializer.deserialize bytes schema).mapError .row

namespace Table

variable (tbl : Table)

/-- The primary tree. -/
def rows : TreeName := .table tbl.schema.name

/-- `init_auto_increment`: behind the last key. -/
def init_auto_increment : TableM Unit := do
  if tbl.schema.auto_increment_column.isSome then
    let all ← btree_scan_all tbl.rows
    match all.getLast? with
    | none => pure ()
    | some (.int v :: _, _) => modify fun s => { s with next_auto_increment := v.toUInt32 + 1 }
    | some _ => throw .bad_access

/-- The counter moves past a key. -/
def advance_auto_increment (key : Key) : TableM Unit := do
  if tbl.schema.auto_increment_column.isSome then
    match key with
    | .int v :: _ => modify fun s =>
      if v.toUInt32 ≥ s.next_auto_increment then { s with next_auto_increment := v.toUInt32 + 1 } else s
    | _ => throw .bad_access

/-- The row with its key assigned, where a NULL is left to AUTO_INCREMENT. -/
def assign_key (row : Row) : TableM Row := do
  match tbl.schema.auto_increment_column with
  | none => pure row
  | some i =>
    match row[i]? with
    | none => throw .column_out_of_range
    | some pk_val =>
      if pk_val.isNull then
        let s ← get
        pure (row.set i (.int s.next_auto_increment.toInt32))
      else pure row

def check_all_unique_constraints (row : Row) (primary_key : Key) : TableM Unit :=
  tbl.indexes.forM fun idx => do
    let indexed_value ← liftE (idx.extract_indexed_value row)
    idx.check_unique indexed_value primary_key

def write_row_and_indexes (primary_key : Key) (row : Row) (bytes : Bytes) : TableM Unit := do
  btree_insert tbl.rows primary_key bytes
  tbl.indexes.forM fun idx => do
    let indexed_value ← liftE (idx.extract_indexed_value row)
    idx.insert_entry indexed_value primary_key

def remove_row_and_indexes (primary_key : Key) (old_row : Row) : TableM Unit := do
  btree_remove tbl.rows primary_key
  tbl.indexes.forM fun idx => do
    let indexed_value ← liftE (idx.extract_indexed_value old_row)
    idx.remove_entry indexed_value primary_key

def insert (row : Row) : TableM Key := do
  let row ← tbl.assign_key row
  let primary_key ← liftE (tbl.schema.extract_primary_key row)
  let existing ← btree_search tbl.rows primary_key
  if existing.isSome then throw .duplicate_primary_key
  -- every check comes before the first write
  tbl.check_all_unique_constraints row primary_key
  let bytes ← liftE (serialize_row tbl.schema row)
  tbl.write_row_and_indexes primary_key row bytes
  tbl.advance_auto_increment primary_key
  pure primary_key

def select_by_key (key : Key) : TableM (Option Row) := do
  match ← btree_search tbl.rows key with
  | none => pure none
  | some bytes =>
    let row ← liftE (deserialize_row tbl.schema bytes)
    pure (some row)

/-- The rows that match, in the order of their keys. -/
def scan (predicate : Predicate) : TableM (List ScanResult) := do
  let all ← btree_scan_all tbl.rows
  liftE (go all)
where
  go : List (Key × Bytes) → Except TableErr (List ScanResult)
    | [] => pure []
    | (key, bytes) :: all => do
      let row ← deserialize_row tbl.schema bytes
      match predicate row with
      | none => throw .predicate
      | some found => do
        let results ← go all
        pure (if found then ⟨key, row⟩ :: results else results)

def update (primary_key : Key) (new_values : NewValues) : TableM Unit := do
  match ← btree_search tbl.rows primary_key with
  | none => throw .primary_key_not_found
  | some bytes =>
    let old_row ← liftE (deserialize_row tbl.schema bytes)
    match new_values.find? fun nv => tbl.schema.columns.length ≤ nv.1 with
    | some nv => throw (.column_index_out_of_range nv.1)
    | none =>
      let new_row ← liftE (apply_values old_row new_values)
      let new_primary_key ← liftE (tbl.schema.extract_primary_key new_row)
      let pk_changed := !Key.eq new_primary_key primary_key
      let existing ← btree_search tbl.rows new_primary_key
      if pk_changed && existing.isSome then throw .new_key_exists
      -- the old entries are still there: under the old key they are the row's own
      tbl.check_all_unique_constraints new_row primary_key
      let new_bytes ← liftE (serialize_row tbl.schema new_row)
      tbl.remove_row_and_indexes primary_key old_row
      tbl.write_row_and_indexes new_primary_key new_row new_bytes
      if pk_changed then tbl.advance_auto_increment new_primary_key

def delete_row (primary_key : Key) : TableM Unit := do
  match ← btree_search tbl.rows primary_key with
  | none => throw .primary_key_not_found
  | some bytes =>
    let old_row ← liftE (deserialize_row tbl.schema bytes)
    tbl.remove_row_and_indexes primary_key old_row

def delete_where (predicate : Predicate) : TableM ℕ := do
  let to_delete ← tbl.scan predicate
  to_delete.forM fun r => tbl.remove_row_and_indexes r.primary_key r.row
  pure to_delete.length

structure PlannedUpdate where
  old_key : Key
  new_key : Key
  old_row : Row
  new_row : Row

/-- The unique values of a row, claimed for the batch; `claimed` has one list an index. -/
def claim (row : Row) : List IndexBinding → List (List Key) → Except TableErr (List (List Key))
  | idx :: indexes, c :: claimed => do
    if idx.schema.is_unique then
      let indexed_value ← idx.extract_indexed_value row
      if is_indexable indexed_value then
        if c.any fun k => Key.eq k indexed_value then throw (.batch_unique idx.schema.name)
        let claimed ← claim row indexes claimed
        pure ((c ++ [indexed_value]) :: claimed)
      else
        let claimed ← claim row indexes claimed
        pure (c :: claimed)
    else
      let claimed ← claim row indexes claimed
      pure (c :: claimed)
  | _, claimed => pure claimed

/-- Phase 1: the new rows, each checked against the rows that are there and those claimed before. -/
def plan (new_values : NewValues) : List (List Key) → List ScanResult → TableM (List PlannedUpdate)
  | _, [] => pure []
  | claimed, m :: matched_rows => do
    let new_row ← liftE (apply_values m.row new_values)
    let new_key ← liftE (tbl.schema.extract_primary_key new_row)
    tbl.check_all_unique_constraints new_row m.primary_key
    let claimed ← liftE (claim new_row tbl.indexes claimed)
    let to_update ← plan new_values claimed matched_rows
    pure (⟨m.primary_key, new_key, m.row, new_row⟩ :: to_update)

/-- Phase 1b: no new key is there already, or twice. -/
def check_keys : List Key → List PlannedUpdate → TableM Unit
  | _, [] => pure ()
  | final_keys, u :: to_update => do
    let existing ← btree_search tbl.rows u.new_key
    if !Key.eq u.new_key u.old_key && existing.isSome then throw .new_key_exists
    if final_keys.any fun seen => Key.eq seen u.new_key then throw .batch_key
    check_keys (final_keys ++ [u.new_key]) to_update

def update_matched (matched_rows : List ScanResult) (new_values : NewValues) : TableM ℕ := do
  let to_update ← tbl.plan new_values (List.replicate tbl.indexes.length []) matched_rows
  tbl.check_keys [] to_update
  to_update.forM fun u => do
    let new_bytes ← liftE (serialize_row tbl.schema u.new_row)
    tbl.remove_row_and_indexes u.old_key u.old_row
    tbl.write_row_and_indexes u.new_key u.new_row new_bytes
  to_update.forM fun u =>
    if Key.eq u.new_key u.old_key then pure () else tbl.advance_auto_increment u.new_key
  pure to_update.length

def update_where (predicate : Predicate) (new_values : NewValues) : TableM ℕ := do
  let matched_rows ← tbl.scan predicate
  tbl.update_matched matched_rows new_values

end Table

end GSDBEngine
