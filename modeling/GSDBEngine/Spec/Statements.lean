import GSDBEngine.Spec.Dml
import GSDBEngine.Lib.References
import GSDBEngine.Lib.Run

/-!
# Runs of statements

A database is the rows of its tables, and what a schema declares of them: the types, NOT NULL, CHECK, the keys, the unique indexes and
the foreign keys. That is what the statements are to keep, whichever way each ends.

* `ExecState.contents`: the rows that are read.
* `ExecState.Consistent`: **every row is what its schema declares.** `ExecState.RootsRecorded`: every tree is found again.
* `Stmt.Step`: a statement. `Stmt.plain`: what it is given.
-/

namespace GSDBEngine

/-- The rows that are read, of every table. -/
def ExecState.contents (s : ExecState) : AllContents := fun name =>
  match s.catalog.tables.lookup name with
  | none => ∅
  | some schema => Table.contents ⟨schema, []⟩ s.trees

/-- The counter of a `Table` that is opened: behind the last key. -/
def Table.next_key (tbl : Table) (trees : Trees) : UInt32 :=
  if tbl.schema.auto_increment_column.isSome then
    match (trees.tree tbl.rows).entries.entries.getLast? with
    | some (.int v :: _, _) => v.toUInt32 + 1
    | _ => 1
  else 1

/-! ### What a schema declares -/

/-- A value of the column's type, that is not too long; NULL where it is allowed. -/
def Column.Admits (col : Column) (v : Value) : Prop :=
  if v.isNull then col.is_nullable = true
  else value_matches_type v col.type = true ∧ ∀ str, v = .varchar str → str.length ≤ col.max_length.toNat

/-- A value under a CHECK constraint: it is NULL, or the comparison is true. -/
def CheckConstraint.Met (c : CheckConstraint) (row : Row) : Prop :=
  ∃ v, row[c.column_index.toNat]? = some v ∧ (v.isNull = true ∨ compare_values v (check_op_to_compare_op c.op) c.operand = true)

/-- A row in itself. -/
structure TableSchema.Admits (schema : TableSchema) (row : Row) : Prop where
  typed : List.Forall₂ Column.Admits schema.columns row
  checked : ∀ c ∈ schema.checks, c.Met row

/-- The references of a row lead to rows. -/
def TableSchema.ReferencesMet (schema : TableSchema) (C : AllContents) (row : Row) : Prop :=
  ∀ fk ∈ schema.foreign_keys, is_indexable (row.values fk.column_indices) = true → ∃ parent ∈ C fk.ref_table, fk.References row parent.2

/-- The columns of a constraint have a value. -/
def Catalog.Asks (cat : Catalog) (child : TableRow) (fk : ForeignKeyConstraint) : Prop :=
  (∃ schema, cat.tables.lookup child.1 = some schema ∧ fk ∈ schema.foreign_keys) ∧ is_indexable (child.2.2.values fk.column_indices) = true

/-- The rows of the tables of the catalog. -/
def Catalog.all_rows (cat : Catalog) (C : AllContents) : Set TableRow := { r | (cat.tables.lookup r.1).isSome = true ∧ r.2 ∈ C r.1 }

/-- **Every row is what its schema declares**, and so are the rows together. -/
structure ExecState.Consistent (s : ExecState) (C : AllContents) : Prop where
  /-- the indexes are the images of the rows; keys and unique values are there once -/
  represents : s.Represents C
  admits : ∀ name schema, s.catalog.tables.lookup name = some schema → ∀ e ∈ C name, schema.Admits e.2
  /-- a reference leads to a row -/
  foreign_keys : References.Met s.catalog.Asks (fun child fk parent => s.catalog.RowRefers child parent fk) (s.catalog.all_rows C)

/-- **The catalog has the root of every tree**, in memory and on page 1. -/
structure ExecState.RootsRecorded (s : ExecState) : Prop where
  tables : ∀ name schema, s.catalog.tables.lookup name = some schema → schema.root_page = (s.trees.tree (.table name)).root.1
  indexes : ∀ name idx, s.catalog.indexes.lookup name = some idx → idx.root_page = (s.trees.tree (.index name)).root.1
  page : ∃ cat, Catalog.deserialize s.catalog.page = some cat ∧ cat.Same s.catalog.toCatalog

/-! ### Statements -/

inductive Stmt (Q : Type) where
  | ddl (stmt : DdlStmt Q)
  | insert (stmt : InsertStmt)
  | update (stmt : UpdateStmt Q)
  /-- with the depth at which the recursion is cut off -/
  | delete (fuel : ℕ) (stmt : DeleteStmt Q)

variable {Q : Type}

/-- A statement, and the number of rows. -/
def Stmt.execute (sub : Subqueries Q) : Stmt Q → DmlM ℕ
  | ddl stmt => do
    on_exec stmt.execute
    pure 0
  | insert stmt => do
    execute_insert stmt
    pure 1
  | update stmt => execute_update sub stmt
  | delete fuel stmt => execute_delete sub fuel stmt

/-- INSERT, UPDATE and DELETE may end in any way; a CREATE or DROP that fails half-way is not followed. -/
def Stmt.Step (sub : Subqueries Q) (stmt : Stmt Q) (s s' : ExecState) : Prop :=
  (∃ n, stmt.execute sub s = .ok n s') ∨ (∀ d, stmt ≠ ddl d) ∧ ∃ e, stmt.execute sub s = .error e s'

/-- A key that INSERT leaves to AUTO_INCREMENT is given after CHECK and FOREIGN KEY: neither is on its column. -/
def TableSchema.KeyUnchecked (schema : TableSchema) (row : Row) : Prop :=
  ∀ i, schema.auto_increment_column = some i → row[i]? = some .null →
    (∀ c ∈ schema.checks, c.column_index.toNat ≠ i) ∧ ∀ fk ∈ schema.foreign_keys, ∀ col ∈ fk.column_indices, col.toNat ≠ i

/-- **What a statement is given**: numbers, and strings that a row can have; DDL is sound for the foreign keys. -/
def Stmt.plain : Stmt Q → ExecState → Prop
  | ddl stmt, s => stmt.sound s
  | insert stmt, s => ∀ schema, s.catalog.tables.lookup stmt.table_name = some schema → ∀ row, insert_row schema stmt = .ok row →
    (∀ v ∈ row, v.isNaN = false) ∧ Row.Short row ∧ schema.KeyUnchecked row
  | update stmt, s => ∀ schema, s.catalog.tables.lookup stmt.table_name = some schema → ∀ new_values,
    set_values schema stmt.assignments = .ok new_values → (∀ p ∈ new_values, p.2.isNaN = false) ∧ Row.Short (new_values.map Prod.snd)
  | delete _ _, _ => True

end GSDBEngine
