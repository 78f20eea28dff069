import GSDBEngine.Spec.Cascade
import GSDBEngine.Spec.Check
import GSDBEngine.Spec.Access

/-!
# INSERT, UPDATE and DELETE

`executor.cpp`: the statements that change rows. The row, or each row that WHERE finds, is made first, and tested against CHECK and
FOREIGN KEY; the table is written then, and the roots that the writes have left go to the catalog.

* `insert_row`, `set_values`: the values of a statement, with the DEFAULTs of the schema.
* `check_foreign_keys_on_write`: a row whose references are met.
* `execute_insert`, `execute_update`, `execute_delete`.
-/

namespace GSDBEngine

open Eff

/-! ### Statements -/

structure InsertStmt where
  table_name : Bytes
  /-- empty if the values are in schema order -/
  columns : List Bytes
  values : List Value
  /-- the places of the keyword DEFAULT; it may be shorter than `values` -/
  value_is_default : List Bool

structure SetClause where
  column_name : Bytes
  value : Value
  is_default : Bool

structure UpdateStmt (Q : Type) where
  table_name : Bytes
  assignments : List SetClause
  where_ : Option (WhereExpr Q)

structure DeleteStmt (Q : Type) where
  table_name : Bytes
  where_ : Option (WhereExpr Q)

/-- A statement without success, by a result or by an exception. -/
inductive DmlErr where
  | value_count (values columns : ℕ)
  | list_lengths
  | unknown_column (column : Bytes)
  | check_violated (column : Bytes) (op : CheckOp) (operand : Value)
  /-- no row of the table matches the columns -/
  | foreign_key (ref_table : Bytes) (columns : List Bytes) (values : Key)
  /-- the value is referenced by a table -/
  | referenced (child_table : Bytes)
  | scan (e : ScanErr)
  | exec (e : ExecErr)
  | ddl (e : DdlErr)
  deriving DecidableEq

abbrev DmlM := EStateM DmlErr ExecState

/-- A call that a statement shares with others. -/
def on_exec {α : Type} (m : DdlM α) : DmlM α := fun s =>
  match m s with
  | .ok a s' => .ok a s'
  | .error e s' => .error (.ddl e) s'

/-- A later call of a `Table` that is open: with the roots and the counter that it has, on the trees as they are. -/
def resume {α : Type} (obj : TableState) (m : TableM α) : DdlM (α × TableState) := fun s =>
  match m { obj with trees := s.trees } with
  | .ok a obj => .ok (a, obj) { s with trees := obj.trees }
  | .error e obj => .error (.table e) { s with trees := obj.trees }

/-- How the subqueries of WHERE are run on the rows there are. -/
structure Subqueries (Q : Type) where
  precompute : ExecState → WhereExpr Q → Except ExecErr (SubqueryCache Q)
  runner : ExecState → SubqueryRunner Q

/-- `precompute_subqueries`, where there is a condition. -/
def Subqueries.cache {Q : Type} (sub : Subqueries Q) (s : ExecState) : Option (WhereExpr Q) → Except ExecErr (SubqueryCache Q)
  | none => pure ⟨fun _ => .missing, fun _ => .missing⟩
  | some expr => sub.precompute s expr

/-! ### Values -/

section values

variable (schema : TableSchema)

/-- `INSERT INTO t VALUES (v1, v2, ...)`; none where the schema default is used. -/
def positional_values (values : List Value) (value_is_default : List Bool) : List (Option Value) :=
  values.mapIdx fun i v => if value_is_default.getD i false then none else some v

/-- `INSERT INTO t (col1, col2) VALUES (v1, v2)`, from the `i`-th column on. -/
def named_values (value_is_default : List Bool) : ℕ → List (Bytes × Value) → List (Option Value) → Except DmlErr (List (Option Value))
  | _, [], provided => pure provided
  | i, (col_name, v) :: rest, provided =>
    match schema.column_index col_name with
    | none => throw (.unknown_column col_name)
    | some idx =>
      named_values value_is_default (i + 1) rest (if value_is_default.getD i false then provided else provided.set idx (some v))

/-- A column that is not provided has its DEFAULT, or NULL. -/
def resolve_defaults (provided : List (Option Value)) : Row :=
  List.zipWith (fun col v => v.getD (if col.has_default then col.default_value else .null)) schema.columns provided

/-- **The row of an INSERT.** -/
def insert_row (stmt : InsertStmt) : Except DmlErr Row :=
  if stmt.columns = [] then
    if stmt.values.length ≠ schema.columns.length then throw (.value_count stmt.values.length schema.columns.length)
    else pure (resolve_defaults schema (positional_values stmt.values stmt.value_is_default))
  else if stmt.columns.length ≠ stmt.values.length then throw .list_lengths
  else do
    let provided ← named_values schema stmt.value_is_default 0 (stmt.columns.zip stmt.values) (List.replicate schema.columns.length none)
    pure (resolve_defaults schema provided)

/-- **The new values of an UPDATE**, in the order of SET. -/
def set_values : List SetClause → Except DmlErr NewValues
  | [] => pure []
  | asgn :: assignments =>
    match schema.column_index asgn.column_name with
    | none => throw (.unknown_column asgn.column_name)
    | some idx => do
      let col := schema.columns[idx]?
      let value := if asgn.is_default then (col.bind fun col => if col.has_default then some col.default_value else none).getD .null else asgn.value
      let new_values ← set_values assignments
      pure ((idx, value) :: new_values)

end values

/-! ### CHECK -/

/-- The error names the constraint. -/
def check_row (schema : TableSchema) (row : Row) : Except DmlErr Unit := do
  match ← (find_violated_check schema row).mapError DmlErr.exec with
  | none => pure ()
  | some violated =>
    match schema.checks[violated]? with
    | none => pure ()
    | some c => throw (.check_violated (((schema.columns[c.column_index.toNat]?).map Column.name).getD []) c.op c.operand)

/-! ### FOREIGN KEY -/

/-- Whether a row of the parent has the values. -/
def parent_exists (fk : ForeignKeyConstraint) (child_values : Key) : DdlM Bool :=
  if fk.ref_index_name = [] then do
    let ref_schema ← get_table fk.ref_table
    let (row, _) ← on_table ref_schema [] fun ref_tbl => ref_tbl.select_by_key child_values
    pure row.isSome
  else do
    let ref_ischema ← get_index fk.ref_index_name
    let _ ← get_table fk.ref_table
    let ref_pks ← index_find ref_ischema child_values
    pure !ref_pks.isEmpty

/-- A NULL in the columns of a constraint is no reference. -/
def check_foreign_keys (schema : TableSchema) (row : Row) : List ForeignKeyConstraint → DmlM Unit
  | [] => pure ()
  | fk :: fks => do
    match ← liftE ((referenced_values row fk.column_indices).mapError fun e => DmlErr.ddl (.table e)) with
    | none => check_foreign_keys schema row fks
    | some child_values => do
      let found ← on_exec (parent_exists fk child_values)
      if found then check_foreign_keys schema row fks
      else throw (.foreign_key fk.ref_table (schema.names_of fk.column_indices) child_values)

def check_foreign_keys_on_write (schema : TableSchema) (row : Row) : DmlM Unit := check_foreign_keys schema row schema.foreign_keys

/-- Whether a new value changes a column that a foreign key of another table is to. -/
def touches_referenced_column (inbound_fks : List (Bytes × ForeignKeyConstraint)) (row : Row) : NewValues → Except ExecErr Bool
  | [] => pure false
  | (idx, val) :: new_values => do
    let old ← row.get idx
    let touched := !old.eq val && inbound_fks.any fun ref => ref.2.ref_column_indices.contains (UInt32.ofNat idx)
    let more ← touches_referenced_column inbound_fks row new_values
    pure (touched || more)

/-! ### INSERT -/

/-- The indexes that the catalog has for a table. -/
def ExecState.indexes_of (s : ExecState) (schema : TableSchema) : List IndexSchema := s.catalog.get_indexes_for_table schema.name

def execute_insert (stmt : InsertStmt) : DmlM Unit := do
  let schema ← on_exec (get_table stmt.table_name)
  let row ← liftE (insert_row schema stmt)
  liftE (check_row schema row)
  check_foreign_keys_on_write schema row
  let s ← get
  let (_, tbl, obj) ← on_exec (on_table schema (s.indexes_of schema) fun tbl => tbl.insert row)
  on_exec (persist_roots schema tbl obj)

/-! ### Rows that WHERE finds -/

section where_

variable {Q : Type} (sub : Subqueries Q)

/-- `build_predicate` and `scan_with_index`. -/
def find_matched (tbl : Table) (where_ : Option (WhereExpr Q)) (obj : TableState) : DmlM (List ScanResult) := do
  let s ← get
  let cache ← liftE ((sub.cache s where_).mapError DmlErr.exec)
  liftE ((scan_with_index tbl where_ (build_predicate tbl where_ [] (sub.runner s) cache) [] none obj).mapError DmlErr.scan)

end where_

/-! ### UPDATE -/

section update

variable (schema : TableSchema) (new_values : NewValues)

/-- The row with the new values in it. -/
def candidate (row : Row) : Except DmlErr Row := (apply_values row new_values).mapError fun e => DmlErr.ddl (.table e)

/-- CHECK of every new row, before the first one is written. -/
def check_matched (matched : List ScanResult) : DmlM Unit :=
  matched.forM fun m => do
    let row ← liftE (candidate new_values m.row)
    liftE (check_row schema row)

/-- FOREIGN KEY of every new row, and of the rows that reference an old one: a referenced value stays. -/
def check_matched_references (inbound_fks : List (Bytes × ForeignKeyConstraint)) (matched : List ScanResult) : DmlM Unit :=
  matched.forM fun m => do
    let row ← liftE (candidate new_values m.row)
    if schema.foreign_keys ≠ [] then check_foreign_keys_on_write schema row
    if inbound_fks ≠ [] then
      let touched ← liftE ((touches_referenced_column inbound_fks m.row new_values).mapError DmlErr.exec)
      if touched then
        let children ← on_exec (find_referencing_children m.row inbound_fks)
        match children with
        | [] => pure ()
        | child :: _ => throw (.referenced child.child_table)

end update

variable {Q : Type} (sub : Subqueries Q)

def execute_update (stmt : UpdateStmt Q) : DmlM ℕ := do
  let schema ← on_exec (get_table stmt.table_name)
  let new_values ← liftE (set_values schema stmt.assignments)
  let s ← get
  let (_, tbl, obj) ← on_exec (on_table schema (s.indexes_of schema) fun _ => pure ())
  let matched ← find_matched sub tbl stmt.where_ obj
  if schema.checks ≠ [] then check_matched schema new_values matched
  let s ← get
  let inbound_fks := s.catalog.get_foreign_keys_referencing schema.name
  if schema.foreign_keys ≠ [] ∨ inbound_fks ≠ [] then check_matched_references schema new_values inbound_fks matched
  let (count, obj) ← on_exec (resume obj (tbl.update_matched matched new_values))
  on_exec (persist_roots schema tbl obj)
  pure count

/-! ### DELETE -/

/-- Each row with what references it; the ones that an earlier one took along are not counted. -/
def delete_matched (fuel : ℕ) (table_name : Bytes) : List Key → DdlM ℕ
  | [] => pure 0
  | pk :: pks => do
    let found ← delete_row_cascading fuel table_name pk
    let count ← delete_matched fuel table_name pks
    pure (count + if found then 1 else 0)

/-- The keys are gathered before the first row is deleted. -/
def execute_delete (fuel : ℕ) (stmt : DeleteStmt Q) : DmlM ℕ := do
  let schema ← on_exec (get_table stmt.table_name)
  let (_, _, obj) ← on_exec (on_table schema [] fun _ => pure ())
  let s ← get
  let matched ← find_matched sub ⟨schema, (s.indexes_of schema).map (IndexSchema.binding schema)⟩ stmt.where_ obj
  on_exec (delete_matched fuel stmt.table_name (matched.map ScanResult.primary_key))

end GSDBEngine
