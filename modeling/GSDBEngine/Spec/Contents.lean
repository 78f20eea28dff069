import GSDBEngine.Spec.Table
import Mathlib.Data.Set.Insert

/-!
# What a table holds

A table is a set of rows under their keys, and every index the image of it. This is what the
trees of a table are for; `Table.Represents` says that they are.

* `Table.contents`: the rows that are read. `Table.Represents`: they are the contents, and the indexes agree.
* `Contents.Sound`: the rows fit the schema, and no two have one key, or one value of a unique index.
* `TableCall`: the calls, with what each does to the contents, and when it is accepted.
-/

namespace GSDBEngine

/-- Rows, under their keys. -/
abbrev Contents := Set (Key × Row)

/-- The rows that are read. -/
def Table.contents (tbl : Table) (trees : Trees) : Contents :=
  { e | ∃ bytes, (e.1, bytes) ∈ (trees.tree tbl.rows).entries.entries ∧ deserialize_row tbl.schema bytes = .ok e.2 }

/-- The indexed columns of a row. -/
def IndexBinding.value (idx : IndexBinding) (row : Row) : Key := idx.column_indices.map fun i => (row[i]?).getD .null

/-- `Index` objects as `open_indexes` builds them: each name once, made for keys and columns of this table. -/
structure Table.Bound (tbl : Table) : Prop where
  names : (tbl.indexes.map fun idx => idx.schema.name).Nodup
  pk_arity : ∀ idx ∈ tbl.indexes, idx.pk_arity = tbl.schema.primary_key_indices.length
  columns : ∀ idx ∈ tbl.indexes, idx.column_indices.length = idx.schema.column_names.length

/-- A row that can be stored under a key. -/
structure Table.Fits (tbl : Table) (e : Key × Row) : Prop where
  key : tbl.schema.extract_primary_key e.2 = .ok e.1
  serial : ∃ bytes, serialize_row tbl.schema e.2 = .ok bytes
  values : ∀ idx ∈ tbl.indexes, idx.extract_indexed_value e.2 = .ok (idx.value e.2)
  numbers : ∀ v ∈ e.2, v.isNaN = false

/-- Two rows that a unique index keeps apart. -/
def IndexBinding.Conflict (idx : IndexBinding) (row row' : Row) : Prop :=
  idx.schema.is_unique = true ∧ is_indexable (idx.value row) = true ∧ (idx.value row).rank = (idx.value row').rank

/-- **The contents of a table.** Keys and values that compare equal are the same. -/
structure Table.Sound (tbl : Table) (S : Contents) : Prop where
  fits : ∀ e ∈ S, tbl.Fits e
  one : ∀ e ∈ S, ∀ e' ∈ S, e.1.rank = e'.1.rank → e = e'
  unique : ∀ idx ∈ tbl.indexes, ∀ e ∈ S, ∀ e' ∈ S, idx.Conflict e.2 e'.2 → e = e'

/-- The keys of an index's tree: the values with no NULL, with the keys of their rows behind them. -/
def IndexBinding.Image (idx : IndexBinding) (S : Contents) (m : KeyMap) : Prop :=
  ∀ key v, (key, v) ∈ m.entries ↔ v = [] ∧ ∃ e ∈ S, is_indexable (idx.value e.2) = true ∧ key = idx.value e.2 ++ e.1

/-- The primary tree has bytes of every row under its key, an index the image of the rows. -/
structure Table.Holds (tbl : Table) (bytes_of : Row → Bytes → Prop) (trees : Trees) (S : Contents) : Prop where
  rows : ∀ k bytes, (k, bytes) ∈ (trees.tree tbl.rows).entries.entries → ∃ row, (k, row) ∈ S ∧ bytes_of row bytes
  stored : ∀ e ∈ S, ∃ bytes, (e.1, bytes) ∈ (trees.tree tbl.rows).entries.entries ∧ bytes_of e.2 bytes
  indexes : ∀ idx ∈ tbl.indexes, idx.Image S (trees.tree (.index idx.schema.name)).entries

/-- **The rows that are read are the contents.** -/
abbrev Table.Represents (tbl : Table) : Trees → Contents → Prop :=
  tbl.Holds fun row bytes => deserialize_row tbl.schema bytes = .ok row

/-- Bytes that a row was read from, or written as. -/
abbrev Table.Stores (tbl : Table) : Trees → Contents → Prop :=
  tbl.Holds fun row bytes => deserialize_row tbl.schema bytes = .ok row ∨ serialize_row tbl.schema row = .ok bytes

/-- The strings of every row are short. -/
def Contents.Short (S : Contents) : Prop := ∀ e ∈ S, Row.Short e.2

/-- A row that nothing in the contents conflicts with. -/
structure Table.New (tbl : Table) (S : Contents) (new : Key × Row) : Prop where
  fits : tbl.Fits new
  key : ∀ e ∈ S, e.1.rank ≠ new.1.rank
  unique : ∀ idx ∈ tbl.indexes, ∀ e ∈ S, ¬ idx.Conflict e.2 new.2

/-- The row to insert: a NULL that is left to AUTO_INCREMENT is the next key. -/
def Table.assigned (tbl : Table) (next_auto_increment : UInt32) (row : Row) : Row :=
  match tbl.schema.auto_increment_column with
  | none => row
  | some i => if (row[i]?).any Value.isNull then row.set i (.int next_auto_increment.toInt32) else row

/-- A row under its key gets new values, and is `new` then. -/
structure Table.Becomes (tbl : Table) (new_values : NewValues) (old new : Key × Row) : Prop where
  applied : apply_values old.2 new_values = .ok new.2
  key : tbl.schema.extract_primary_key new.2 = .ok new.1

/-- **When rows can all get new values at once**: each stays clear of the other rows, and of what they become. -/
structure Table.Replaceable (tbl : Table) (S : Contents) (new_values : NewValues) (M : Contents) : Prop where
  each : ∀ old ∈ M, ∃ new, tbl.Becomes new_values old new ∧ tbl.New (S \ {old}) new
  apart : ∀ old ∈ M, ∀ old' ∈ M, old ≠ old' → ∀ new new', tbl.Becomes new_values old new → tbl.Becomes new_values old' new' →
    new.1.rank ≠ new'.1.rank ∧ ∀ idx ∈ tbl.indexes, ¬ idx.Conflict new.2 new'.2

/-- A matched row as a row under its key. -/
def ScanResult.entry (m : ScanResult) : Key × Row := (m.primary_key, m.row)

/-! ### Calls -/

/-- The calls that change a table. -/
inductive TableCall where
  | insert (row : Row)
  | update (primary_key : Key) (new_values : NewValues)
  | update_where (predicate : Predicate) (new_values : NewValues)
  | update_matched (matched_rows : List ScanResult) (new_values : NewValues)
  | delete_row (primary_key : Key)
  | delete_where (predicate : Predicate)

namespace TableCall

variable (tbl : Table) (next_auto_increment : UInt32) (S : Contents)

def run (tbl : Table) : TableCall → TableM Unit
  | insert row => do
    let _ ← tbl.insert row
  | update primary_key new_values => tbl.update primary_key new_values
  | update_where predicate new_values => do
    let _ ← tbl.update_where predicate new_values
  | update_matched matched_rows new_values => do
    let _ ← tbl.update_matched matched_rows new_values
  | delete_row primary_key => tbl.delete_row primary_key
  | delete_where predicate => do
    let _ ← tbl.delete_where predicate

/-- The values that a call brings. -/
def values : TableCall → List Value
  | insert row => row
  | update _ new_values | update_where _ new_values | update_matched _ new_values => new_values.map Prod.snd
  | delete_row _ | delete_where _ => []

/-- The rows that a call is about. -/
def selected : TableCall → Contents
  | insert _ => ∅
  | update key _ | delete_row key => { e | e ∈ S ∧ e.1.rank = key.rank }
  | update_where predicate _ | delete_where predicate => { e | e ∈ S ∧ predicate e.2 = some true }
  | update_matched matched_rows _ => { e | ∃ m ∈ matched_rows, e = m.entry }

/-- The rows that a call writes. -/
def written (c : TableCall) : Contents :=
  match c with
  | insert row => { e | e.2 = tbl.assigned next_auto_increment row ∧ tbl.schema.extract_primary_key e.2 = .ok e.1 }
  | update _ new_values | update_where _ new_values | update_matched _ new_values =>
    { e | ∃ old ∈ c.selected S, tbl.Becomes new_values old e }
  | delete_row _ | delete_where _ => ∅

/-- **The contents after a call.** -/
def effect (c : TableCall) : Contents := (S \ c.selected S) ∪ c.written tbl next_auto_increment S

/-- The rows given to `update_matched` are rows of the table. -/
def Matched : TableCall → Prop
  | update_matched matched_rows _ => ∀ m ∈ matched_rows, m.entry ∈ S
  | _ => True

/-- **When a call is accepted.** -/
def Accepted (c : TableCall) : Prop :=
  match c with
  | insert row => ∃ key, tbl.New S (key, tbl.assigned next_auto_increment row)
  | update _ new_values => (c.selected S).Nonempty ∧ tbl.Replaceable S new_values (c.selected S)
  | update_where predicate new_values =>
    (∀ e ∈ S, (predicate e.2).isSome = true) ∧ tbl.Replaceable S new_values (c.selected S)
  | update_matched matched_rows new_values =>
    (matched_rows.map ScanResult.entry).Nodup ∧ tbl.Replaceable S new_values (c.selected S)
  | delete_row _ => (c.selected S).Nonempty
  | delete_where predicate => ∀ e ∈ S, (predicate e.2).isSome = true

/-- Two rows that one call replaces, in this order. -/
def Both (c : TableCall) (old old' : Key × Row) : Prop :=
  match c with
  | update_matched matched_rows _ => List.Sublist [old, old'] (matched_rows.map ScanResult.entry)
  | _ => old ∈ c.selected S ∧ old' ∈ c.selected S ∧ old ≠ old'

/-- **A call would break a unique index**: what a row is to become conflicts with another row, or with what another one becomes. -/
def Collides (c : TableCall) (idx : IndexBinding) : Prop :=
  match c with
  | insert _ => ∃ new ∈ c.written tbl next_auto_increment S, ∃ e ∈ S, idx.Conflict e.2 new.2
  | update _ new_values | update_where _ new_values | update_matched _ new_values =>
    ∃ old ∈ c.selected S, ∃ new, tbl.Becomes new_values old new ∧
      ((∃ e ∈ S, e ≠ old ∧ idx.Conflict e.2 new.2) ∨
        ∃ old' new', c.Both S old' old ∧ tbl.Becomes new_values old' new' ∧ idx.Conflict new'.2 new.2)
  | delete_row _ | delete_where _ => False

end TableCall

/-- The unique index that an error is about. -/
def TableErr.unique_index : TableErr → Option Bytes
  | unique_violation index => some index
  | batch_unique index => some index
  | _ => none

/-- The trees of a table. -/
def Table.Owns (tbl : Table) (t : TreeName) : Prop := t = tbl.rows ∨ ∃ idx ∈ tbl.indexes, t = .index idx.schema.name

end GSDBEngine
