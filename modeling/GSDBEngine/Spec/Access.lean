import GSDBEngine.Spec.Query
import GSDBEngine.Spec.Contents

/-!
# Scans with the help of an index

`executor.cpp`: which index a WHERE clause can use, the rows that are fetched through it, and the rows that are rebuilt
from its entries alone.

* `find_index_prefix`: the index with the longest usable run of columns. `IndexMatch`: what it is searched for.
* `scan_with_index`: the rows of the keys that it finds. `scan_covering`: rows made of its entries.
* `project_row`: the row that a SELECT prints. `Agree`: **what the places of a JOIN that resolve a column promise**.
* `CoveringRight`: **what a covering read promises**, and `CoversIndex`, `CoversKey`: when it keeps that.
-/

namespace GSDBEngine

/-! ### Constraints -/

/-- The whole number that a float is. -/
def whole_number (x : Single) : Option ℤ :=
  let exponent := x.magnitude / 2 ^ 23
  let fraction := x.magnitude % 2 ^ 23
  let significand := if exponent = 0 then fraction else 2 ^ 23 + fraction
  if exponent = 255 then none
  else if 150 ≤ exponent then
    let n : ℕ := significand * 2 ^ (exponent - 150)
    some (if x.isNegative then -(n : ℤ) else n)
  else if significand % 2 ^ (150 - max 1 exponent) = 0 then
    let n : ℕ := significand / 2 ^ (150 - max 1 exponent)
    some (if x.isNegative then -(n : ℤ) else n)
  else none

/-- The value as the column stores it; none if no stored value is equal to it. -/
def coerce_equality_value (v : Value) (col_type : ColumnType) : Option Value :=
  match col_type, v with
  | .FLOAT, .int n => some (.float (Single.ofInt n.toInt))
  | .INT, .float f =>
    match whole_number f with
    | none => none
    -- the upper end is `static_cast<float>` of `INT32_MAX`, which is above it
    | some n => if -2 ^ 31 ≤ n ∧ n ≤ 2 ^ 31 then some (.int (Int32.ofInt n)) else none
  | _, v => some v

/-- What WHERE asks of one column. -/
structure ColumnConstraint where
  eq : Option Value
  lo : Option Value
  lo_inclusive : Bool
  hi : Option Value
  hi_inclusive : Bool

def ColumnConstraint.empty : ColumnConstraint := ⟨none, none, false, none, false⟩

/-- By column name. -/
abbrev Constraints := Bytes → Option ColumnConstraint

/-- The last condition of its kind is kept. -/
def ColumnConstraint.add (cc : ColumnConstraint) (op : CompareOp) (seed_value : Value) : ColumnConstraint :=
  match op with
  | .EQ => { cc with eq := some seed_value }
  | .GT => { cc with lo := some seed_value, lo_inclusive := false }
  | .GTE => { cc with lo := some seed_value, lo_inclusive := true }
  | .LT => { cc with hi := some seed_value, hi_inclusive := false }
  | .LTE => { cc with hi := some seed_value, hi_inclusive := true }
  | _ => cc

/-- Only these narrow a column to a point or an interval. -/
def CompareOp.narrows : CompareOp → Bool
  | .EQ | .LT | .GT | .LTE | .GTE => true
  | _ => false

section collect

variable {Q : Type} (schema : TableSchema) (table_alias : Bytes) (outer : Option OuterContext)

/-- The value to search for: a literal, or a column of the outer row. -/
def CompareExpr.seed_value (c : CompareExpr Q) : Except ExecErr (Option Value) :=
  match c.operand_column with
  | none => pure (if c.operand.isNull then none else some c.operand)
  | some ref =>
    if (try_resolve_column ref schema table_alias).isSome then pure none
    else
      match outer with
      | none => pure none
      | some outer => do
        match ← outer.toScope.try_resolve ref with
        | none => pure none
        | some outer_idx => do
          let seed_value ← outer.row.get outer_idx
          pure (if seed_value.isNull then none else some seed_value)

def collect_compare (c : CompareExpr Q) (out : Constraints) : Except ExecErr Constraints :=
  if !c.op.narrows || c.subquery.isSome then pure out
  else if c.column.table_name ≠ [] && !table_name_matches c.column.table_name schema table_alias then pure out
  else do
    match ← c.seed_value schema table_alias outer with
    | none => pure out
    | some seed_value =>
      let cc := (out c.column.column_name).getD .empty
      pure (Function.update out c.column.column_name (some (cc.add c.op seed_value)))

/-- The conditions that every matching row satisfies: those joined by AND. -/
def collect_and_constraints : WhereExpr Q → Constraints → Except ExecErr Constraints
  | .leaf (.COMPARE c), out => collect_compare schema table_alias outer c out
  | .leaf (.EXISTS _), out => pure out
  | .and left right, out => do
    let out ← collect_and_constraints left out
    collect_and_constraints right out
  | .or _ _, out | .not _, out => pure out

end collect

/-! ### The index -/

/-- A usable index: the values of its first columns, and perhaps a range of the next one. -/
structure IndexMatch where
  index : IndexBinding
  fixed : Key
  range : ColumnConstraint

def ColumnConstraint.is_range (range : ColumnConstraint) : Bool := range.lo.isSome || range.hi.isSome

def IndexMatch.effective_len (m : IndexMatch) : ℕ := m.fixed.length + if m.range.is_range then 1 else 0

/-- The bounds of a column, as it stores them. -/
def ColumnConstraint.coerce (cc : ColumnConstraint) (col_type : ColumnType) : ColumnConstraint :=
  let range_lo := cc.lo.bind fun v => coerce_equality_value v col_type
  let range_hi := cc.hi.bind fun v => coerce_equality_value v col_type
  ⟨none, range_lo, range_lo.isSome && cc.lo_inclusive, range_hi, range_hi.isSome && cc.hi_inclusive⟩

/-- The leftmost columns with an equality, and the range behind them. -/
def match_columns (constraints : Constraints) (schema : TableSchema) : List Bytes → Key × ColumnConstraint
  | [] => ([], .empty)
  | col_name :: column_names =>
    match constraints col_name, schema.column_index col_name with
    | some cc, some col_idx =>
      let col_type := (schema.columns[col_idx]?.map Column.type).getD .INT
      match cc.eq with
      | some v =>
        match coerce_equality_value v col_type with
        | none => ([], .empty)
        | some coerced =>
          let rest := match_columns constraints schema column_names
          (coerced :: rest.1, rest.2)
      -- a range is usable as the last condition only
      | none => ([], cc.coerce col_type)
    | _, _ => ([], .empty)

def IndexBinding.matched (idx : IndexBinding) (constraints : Constraints) (schema : TableSchema) : IndexMatch :=
  let columns := match_columns constraints schema idx.schema.column_names
  ⟨idx, columns.1, columns.2⟩

/-- The first of the longest matches. -/
def best_match (constraints : Constraints) (schema : TableSchema) (indexes : List IndexBinding) : Option IndexMatch :=
  indexes.foldl (fun best idx =>
    let m := idx.matched constraints schema
    if (best.map IndexMatch.effective_len).getD 0 < m.effective_len then some m else best) none

/-- `find_index_prefix`; `tbl.indexes` are the indexes that the catalog has for the table. -/
def find_index_prefix {Q : Type} (tbl : Table) (where_ : Option (WhereExpr Q)) (table_alias : Bytes) (outer : Option OuterContext) :
    Except ExecErr (Option IndexMatch) :=
  match where_ with
  | none => pure none
  | some expr => do
    let constraints ← collect_and_constraints tbl.schema table_alias outer expr fun _ => none
    pure (best_match constraints tbl.schema tbl.indexes)

/-! ### The entries -/

inductive ScanErr where
  | exec (e : ExecErr)
  /-- `Index`, of what it is searched for -/
  | search_arity (index : Bytes)
  | no_bound (index : Bytes)
  | no_range_column (index : Bytes)
  /-- `operator[]` behind the end of a key -/
  | out_of_bounds
  deriving DecidableEq

/-- The bounds that the range column is compared with. -/
def ColumnConstraint.admits (range : ColumnConstraint) (range_val : Value) : Bool :=
  !(range.lo.any fun lo => range_val.lt lo || !range.lo_inclusive && range_val.eq lo) &&
    !(range.hi.any fun hi => hi.lt range_val || !range.hi_inclusive && range_val.eq hi)

/-- A key that a scan returns. -/
def IndexMatch.selects (m : IndexMatch) (key : Key) : Bool :=
  key.hasPrefix m.fixed && (!m.range.is_range || (key[m.fixed.length]?).any m.range.admits)

namespace IndexMatch

variable (m : IndexMatch) (s : TableState)

/-- `prefix_scan` or `bounded_scan`. -/
def scan_keys : List Key :=
  ((s.trees.tree (.index m.index.schema.name)).entries.entries.map Prod.fst).filter m.selects

/-- The checks of the searches by prefix, and the scan. -/
def find_keys : Except ScanErr (List Key) :=
  if is_indexable m.fixed = false then pure []
  else if m.fixed.length > m.index.schema.column_names.length then throw (.search_arity m.index.schema.name)
  else pure (m.scan_keys s)

/-- The checks of the searches by range, and the scan. -/
def find_range_keys : Except ScanErr (List Key) :=
  if m.range.lo.isNone && m.range.hi.isNone then throw (.no_bound m.index.schema.name)
  else if m.fixed.length ≥ m.index.schema.column_names.length then throw (.no_range_column m.index.schema.name)
  else if is_indexable m.fixed = false then pure []
  else if m.range.lo.any Value.isNull || m.range.hi.any Value.isNull then pure []
  else pure (m.scan_keys s)

/-- `find_with_values` or `find_range_with_values`; the second cuts behind the range column. -/
def lookup_with_values : Except ScanErr (List (Key × Key)) := do
  if m.range.is_range then
    let keys ← m.find_range_keys s
    let split := m.fixed.length + 1
    pure (keys.map fun key => (key.take split, key.drop split))
  else
    let keys ← m.find_keys s
    let split := m.index.schema.column_names.length
    pure (keys.map fun key => (key.take split, key.drop split))

/-- `index_lookup`. -/
def index_lookup : Except ScanErr (List Key) := do
  let entries ← m.lookup_with_values s
  pure (entries.map Prod.snd)

end IndexMatch

/-! ### Rows -/

/-- A call that only reads. -/
def run_query {α : Type} (m : TableM α) (s : TableState) : Except ScanErr α :=
  match m s with
  | .ok a _ => pure a
  | .error e _ => throw (.exec (.table e))

def lift_exec {α : Type} (x : Except ExecErr α) : Except ScanErr α := x.mapError .exec

/-- The rows under the keys, as far as they are there and match. -/
def fetch_rows (tbl : Table) (pred : Row → Except ExecErr Bool) (s : TableState) : List Key → Except ScanErr (List ScanResult)
  | [] => pure []
  | pk :: pks => do
    match ← run_query (tbl.select_by_key pk) s with
    | none => fetch_rows tbl pred s pks
    | some row => do
      let found ← lift_exec (pred row)
      let results ← fetch_rows tbl pred s pks
      pure (if found then ⟨pk, row⟩ :: results else results)

section where_

variable {Q : Type} (tbl : Table) (where_ : Option (WhereExpr Q)) (pred : Row → Except ExecErr Bool) (table_alias : Bytes)

def scan_with_index (outer : Option OuterContext) (s : TableState) : Except ScanErr (List ScanResult) := do
  match ← lift_exec ( find_index_prefix tbl where_ table_alias outer) with
  | none => run_query (tbl.scan fun row => (pred row).toOption) s
  | some index_match => do
    let pks ← index_match.index_lookup s
    fetch_rows tbl pred s pks

/-! ### Covering reads -/

/-- A column of the table, by a name that is covered. -/
def ref_is_covered (schema : TableSchema) (covered : List Bytes) (ref : ColumnRef) : Bool :=
  !(ref.table_name ≠ [] && !table_name_matches ref.table_name schema table_alias) && covered.contains ref.column_name

def where_is_coverable (schema : TableSchema) (covered : List Bytes) : WhereExpr Q → Bool
  | .leaf (.EXISTS _) => false
  | .leaf (.COMPARE c) =>
    !c.subquery.isSome && ref_is_covered table_alias schema covered c.column &&
      c.operand_column.all (ref_is_covered table_alias schema covered)
  | .and left right | .or left right => where_is_coverable schema covered left && where_is_coverable schema covered right
  | .not left => where_is_coverable schema covered left

structure OrderByClause where
  operand : SelectColumn
  ascending : Bool

variable (columns : List SelectColumn) (order_by : List OrderByClause)

def is_select_coverable (schema : TableSchema) (covered : List Bytes) : Bool :=
  columns.all (fun sc => !sc.is_star && (sc.is_literal || sc.aggregate = .NONE && ref_is_covered table_alias schema covered sc.column)) &&
    order_by.all (fun ob => ob.operand.aggregate = .NONE && ref_is_covered table_alias schema covered ob.operand.column) &&
    where_.all (where_is_coverable table_alias schema covered)

/-- The names of the index's columns, and of those of the primary key. -/
def covered_names (schema : TableSchema) (index : IndexSchema) : List Bytes :=
  index.column_names ++ schema.primary_key_indices.map fun pk_idx => (schema.columns[pk_idx.toNat]?.map Column.name).getD []

/-- The values at their columns. -/
def fill_index_columns (schema : TableSchema) (index_key : Key) : ℕ → List Bytes → Row → Except ScanErr Row
  | _, [], row => pure row
  | i, col_name :: column_names, row => do
    match schema.column_index col_name with
    | none => fill_index_columns schema index_key (i + 1) column_names row
    | some col_idx =>
      match index_key[i]? with
      | none => throw .out_of_bounds
      | some v => fill_index_columns schema index_key (i + 1) column_names (row.set col_idx v)

def fill_key_columns (pk : Key) : ℕ → List UInt32 → Row → Except ScanErr Row
  | _, [], row => pure row
  | i, pk_idx :: primary_key_indices, row =>
    match pk[i]? with
    | none => throw .out_of_bounds
    | some v => fill_key_columns pk (i + 1) primary_key_indices (row.set pk_idx.toNat v)

/-- A row of an entry: every other column is NULL. -/
def covering_row (schema : TableSchema) (index : IndexSchema) (index_key pk : Key) : Except ScanErr Row := do
  let row ← fill_index_columns schema index_key 0 index.column_names (List.replicate schema.columns.length .null)
  fill_key_columns pk 0 schema.primary_key_indices row

def covering_rows (schema : TableSchema) (index : IndexSchema) : List (Key × Key) → Except ScanErr (List ScanResult)
  | [] => pure []
  | (index_key, pk) :: entries => do
    let row ← covering_row schema index index_key pk
    let found ← lift_exec (pred row)
    let results ← covering_rows schema index entries
    pure (if found then ⟨pk, row⟩ :: results else results)

def scan_covering (s : TableState) : Except ScanErr (Option (List ScanResult)) := do
  match ← lift_exec ( find_index_prefix tbl where_ table_alias none) with
  | none => pure none
  | some index_match =>
    let ischema := index_match.index.schema
    if is_select_coverable where_ table_alias columns order_by tbl.schema (covered_names tbl.schema ischema) then do
      let entries ← index_match.lookup_with_values s
      let results ← covering_rows pred tbl.schema ischema entries
      pure (some results)
    else pure none

end where_

/-! ### Projection -/

/-- Decimal digits. -/
def digits (n : ℕ) : Bytes := (Nat.toDigits 10 n).map fun c => UInt8.ofNat c.toNat

/-- `std::to_string` of a float: six digits behind the point, the last one rounded to even. -/
def float_to_string (x : Single) : Bytes :=
  let exponent := x.magnitude / 2 ^ 23
  let fraction := x.magnitude % 2 ^ 23
  let scaled := (if exponent = 0 then fraction else 2 ^ 23 + fraction) * 10 ^ 6
  let n := if 150 ≤ exponent then scaled * 2 ^ (exponent - 150) else Single.roundShift scaled (150 - max 1 exponent)
  let text :=
    if exponent = 255 then if fraction = 0 then [105, 110, 102] else [110, 97, 110]
    else digits (n / 10 ^ 6) ++ [46] ++ (digits (n % 10 ^ 6)).leftpad 6 48
  if x.isNegative then 45 :: text else text

def value_to_string : Value → Bytes
  | .null => [78, 85, 76, 76]
  | .int v => if v < 0 then 45 :: digits v.toInt.natAbs else digits v.toInt.natAbs
  | .float v => float_to_string v
  | .boolean v => if v then [116, 114, 117, 101] else [102, 97, 108, 115, 101]
  | .varchar v => v

example : [⟨0x3FC00000⟩, ⟨0x80000000⟩, ⟨0x3DCCCCCD⟩, ⟨0x35000000⟩].map float_to_string =
    [[49, 46, 53, 48, 48, 48, 48, 48], [45, 48, 46, 48, 48, 48, 48, 48, 48], [48, 46, 49, 48, 48, 48, 48, 48],
      [48, 46, 48, 48, 48, 48, 48, 48]] := by decide

/-- A printed column, in the two schemas of a JOIN; an unqualified name is the left table's if it has one. -/
def project_column (ref : ColumnRef) (row : Row) (schema : TableSchema) (joined_schema : Option TableSchema) (left_alias right_alias : Bytes) :
    Except ExecErr Bytes := do
  let left_width := schema.columns.length
  let right_idx := joined_schema.bind fun joined_schema => (joined_schema.column_index ref.column_name).map (left_width + ·)
  if ref.table_name ≠ [] then
    if table_name_matches ref.table_name schema left_alias then
      match schema.column_index ref.column_name with
      | none => throw (.unknown_column ref)
      | some idx => do
        let v ← row.get idx
        pure (value_to_string v)
    else if joined_schema.any fun joined_schema => table_name_matches ref.table_name joined_schema right_alias then
      match right_idx with
      | none => throw (.unknown_column ref)
      | some combined_idx => do
        let v ← row.get combined_idx
        pure (value_to_string v)
    else throw (.unknown_table ref.table_name)
  else
    match schema.column_index ref.column_name <|> right_idx with
    | none => throw (.unknown_column ref)
    | some idx => do
      let v ← row.get idx
      pure (value_to_string v)

/-- With a `*` the whole row is printed. -/
def project_row (select_cols : List SelectColumn) (row : Row) (schema : TableSchema) (joined_schema : Option TableSchema)
    (left_alias right_alias : Bytes) : Except ExecErr (List Bytes) :=
  if select_cols.any SelectColumn.is_star then pure (row.map value_to_string)
  else select_cols.mapM fun sc =>
    if sc.is_literal then pure (value_to_string sc.literal)
    else project_column sc.column row schema joined_schema left_alias right_alias

/-! ### What a covering read promises -/

section covering

variable {Q : Type} (tbl : Table) (where_ : Option (WhereExpr Q)) (pred : Row → Except ExecErr Bool) (table_alias : Bytes)
  (columns : List SelectColumn) (order_by : List OrderByClause)

/-- `build_predicate`, with the results of the subqueries. -/
def build_predicate (runner : SubqueryRunner Q) (cache : SubqueryCache Q) (row : Row) : Except ExecErr Bool :=
  evaluate_where runner (some cache) row ⟨tbl.schema, none, table_alias, []⟩ none where_

def where_refs : WhereExpr Q → List ColumnRef
  | .leaf (.COMPARE c) => c.column :: c.operand_column.toList
  | .leaf (.EXISTS _) => []
  | .and left right | .or left right => where_refs left ++ where_refs right
  | .not left => where_refs left

/-- The columns that WHERE, the SELECT list and ORDER BY name. -/
def read_refs : List ColumnRef :=
  where_.toList.flatMap where_refs ++ (columns.filter fun sc => !sc.is_literal).map SelectColumn.column ++
    order_by.map fun ob => ob.operand.column

/-- A column of the table that is read. -/
def ReadsColumn (col_idx : ℕ) : Prop := ∃ ref ∈ read_refs where_ columns order_by, try_resolve_column ref tbl.schema table_alias = some col_idx

/-- The stored rows of the entries. -/
def stored_rows (m : IndexMatch) (s : TableState) : Except ScanErr (List ScanResult) :=
  fetch_rows tbl pred s ((m.scan_keys s).map fun key => key.drop m.index.schema.column_names.length)

/-- **What a covering read promises**: no key is read behind its end, a row that is made of an entry has what the stored row has in
every column that is read, and what is printed is what the stored rows would give. -/
structure CoveringRight (m : IndexMatch) (S : Contents) (s : TableState) : Prop where
  in_bounds : ∀ entries, m.lookup_with_values s = .ok entries → ∀ e ∈ entries,
    m.index.schema.column_names.length ≤ e.1.length ∧ tbl.schema.primary_key_indices.length ≤ e.2.length
  agrees : ∀ entries, m.lookup_with_values s = .ok entries → ∀ e ∈ entries,
    ∀ row, covering_row tbl.schema m.index.schema e.1 e.2 = .ok row → ∀ stored ∈ S, stored.1 = e.2 →
      ∀ col_idx, ReadsColumn tbl where_ table_alias columns order_by col_idx → row[col_idx]? = stored.2[col_idx]?
  same : ∀ results, scan_covering tbl where_ pred table_alias columns order_by s = .ok (some results) →
    ∃ stored, stored_rows tbl pred m s = .ok stored ∧
      (results.map fun sr => project_row columns sr.row tbl.schema none table_alias []).Perm
        (stored.map fun sr => project_row columns sr.row tbl.schema none table_alias [])

/-- A row whose entry is scanned. -/
def IndexMatch.Scans (m : IndexMatch) (S : Contents) (e : Key × Row) : Prop :=
  e ∈ S ∧ is_indexable (m.index.value e.2) = true ∧ m.selects (m.index.value e.2 ++ e.1) = true

/-- **A range is over the last column of the index**, or there is nothing to read. -/
def CoversIndex (m : IndexMatch) (S : Contents) : Prop :=
  m.range.is_range = true → m.fixed.length + 1 = m.index.schema.column_names.length ∨ ∀ e, ¬ m.Scans S e

/-- **A name that is read is that of an entry's column**, not of another one that comes first in the table; such a one is NULL. -/
def CoversKey (m : IndexMatch) (S : Contents) : Prop :=
  ∀ col_idx, ReadsColumn tbl where_ table_alias columns order_by col_idx → col_idx ∈ m.index.column_indices ∨
    col_idx ∈ tbl.schema.primary_key_indices.map UInt32.toNat ∨ ∀ e, m.Scans S e → e.2[col_idx]? = some .null

end covering

/-! ### What a JOIN promises -/

section join

variable (ref : ColumnRef) (left_schema right_schema : TableSchema) (left_alias right_alias : Bytes)

/-- `SELECT ref`. -/
def printed (row : Row) : Except ExecErr (List Bytes) :=
  project_row [⟨false, false, .null, ref, .NONE⟩] row left_schema (some right_schema) left_alias right_alias

/-- `ref` in WHERE. -/
def compared (row : Row) : Except ExecErr Value := resolve_value ref row ⟨left_schema, some right_schema, left_alias, right_alias⟩ none

/-- `ref` in ORDER BY and GROUP BY. -/
def grouped : Except ExecErr ℕ := resolve_column_join ref left_schema right_schema left_alias right_alias

/-- Every place picks the column at `idx` of the combined row. -/
structure Picked (idx : ℕ) : Prop where
  grouped : grouped ref left_schema right_schema left_alias right_alias = .ok idx
  compared : ∀ row, compared ref left_schema right_schema left_alias right_alias row = row.get idx
  printed : ∀ row, printed ref left_schema right_schema left_alias right_alias row = (row.get idx).map fun v => [value_to_string v]

/-- Every place raises an error, on every row. -/
structure Rejected : Prop where
  grouped : ∃ e, grouped ref left_schema right_schema left_alias right_alias = .error e
  compared : ∀ row, ∃ e, compared ref left_schema right_schema left_alias right_alias row = .error e
  printed : ∀ row, ∃ e, printed ref left_schema right_schema left_alias right_alias row = .error e

/-- **All places of a JOIN resolve a column alike.** -/
def Agree : Prop :=
  (∃ idx, Picked ref left_schema right_schema left_alias right_alias idx) ∨ Rejected ref left_schema right_schema left_alias right_alias

/-- An unqualified name of both tables. -/
def Ambiguous : Prop :=
  ref.table_name = [] ∧ (left_schema.column_index ref.column_name).isSome = true ∧ (right_schema.column_index ref.column_name).isSome = true

/-- The position of a qualified name, and otherwise that in the left table first. -/
def first_position : Option ℕ :=
  if ref.table_name ≠ [] then
    if table_name_matches ref.table_name left_schema left_alias then left_schema.column_index ref.column_name
    else if table_name_matches ref.table_name right_schema right_alias then
      (right_schema.column_index ref.column_name).map (left_schema.columns.length + ·)
    else none
  else left_schema.column_index ref.column_name <|> (right_schema.column_index ref.column_name).map (left_schema.columns.length + ·)

end join

end GSDBEngine
