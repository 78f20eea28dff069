import GSDBEngine.Spec.BTree
import GSDBEngine.Spec.Table
import GSDBEngine.Lib.Scan

/-!
# Scans of an index tree

The keys of an index tree are the indexed values with the primary key behind them, and nothing between.

* `BTree.rangeScan`, `BTree.prefixScan`, `BTree.boundedScan`: `btree.cpp`, the scans that start at a leaf and stop at an entry.
* `Index.find`, `Index.find_range` and the two with values: `index.cpp`, what is cut from the keys.
* `IndexEntry.InRange`: the entries that a search is for.
-/

namespace GSDBEngine

/-- A value that is no NaN. -/
abbrev SqlValue := { v : Value // v.isNaN = false }

/-- The ends of a range; an end that is missing is open. -/
structure RangeBounds where
  lo : Option SqlValue
  lo_inclusive : Bool
  hi : Option SqlValue
  hi_inclusive : Bool

/-- `start.push_back(*lo)`. -/
def SqlKey.push (key : SqlKey) (v : SqlValue) : SqlKey := ⟨key.1 ++ [v.1], by
  rw [Key.hasNaN, List.any_append, Bool.or_eq_false_iff]
  exact ⟨key.2, by rw [List.any_cons, List.any_nil, Bool.or_false]; exact v.2⟩⟩

namespace BTree

/-- The loop of the scans: `next_leaf` by `next_leaf`, until a verdict ends it. -/
def scanWhile (verdict : SqlKey → Option Scan.Verdict) : ℕ → PageId → M SqlKey (List (LeafEntry SqlKey))
  | 0, _ => throw .no_fuel
  | fuel + 1, current => do
    if current = INVALID_PAGE then pure []
    else
      let node ← fetchNode current
      let entries ← node.leafEntries
      match Scan.run (fun e => verdict e.key) entries with
      | none => throw .undefined
      | some (result, done) =>
        if done then pure result
        else
          let rest ← scanWhile verdict fuel node.next_leaf
          pure (result ++ rest)

def rangeVerdict (start «end» key : SqlKey) : Option Scan.Verdict :=
  if KeyOps.lt key start then some .skip
  else if KeyOps.lt «end» key then some .stop
  else some .push

/-- `range_scan`: the keys from `start` to `end`. -/
def rangeScan (start «end» : SqlKey) : M SqlKey (List (LeafEntry SqlKey)) := do
  let current ← findLeafPage start
  let s ← get
  scanWhile (rangeVerdict start «end») (s.total_pages + 1) current

def prefixVerdict (fixed key : SqlKey) : Option Scan.Verdict :=
  if KeyOps.lt key fixed then some .skip
  else if key.1.hasPrefix fixed.1 = false then some .stop
  else some .push

/-- `prefix_scan`: the keys that begin with `fixed`. -/
def prefixScan (fixed : SqlKey) : M SqlKey (List (LeafEntry SqlKey)) := do
  let current ← findLeafPage fixed
  let s ← get
  scanWhile (prefixVerdict fixed) (s.total_pages + 1) current

/-- A key without the prefix is before or behind those that have it; of the others the next element counts. -/
def boundedVerdict (fixed : SqlKey) (b : RangeBounds) (key : SqlKey) : Option Scan.Verdict :=
  if key.1.hasPrefix fixed.1 = false then
    if Key.lt (key.1.take (min fixed.1.length key.1.length)) fixed.1 then some .skip else some .stop
  else
    match key.1[fixed.1.length]? with
    | none => none
    | some range_val =>
      if b.lo.any fun lo => range_val.lt lo.1 then some .skip
      else if !b.lo_inclusive && b.lo.any fun lo => range_val.eq lo.1 then some .skip
      else if b.hi.any fun hi => hi.1.lt range_val then some .stop
      else if !b.hi_inclusive && b.hi.any fun hi => range_val.eq hi.1 then some .stop
      else some .push

/-- Where `bounded_scan` starts. -/
def boundedStart (fixed : SqlKey) (lo : Option SqlValue) : M SqlKey PageId :=
  match lo with
  | some lo => findLeafPage (fixed.push lo)
  | none => if fixed.1 = [] then findLeftmostLeaf else findLeafPage fixed

/-- `bounded_scan`: of the keys that begin with `fixed`, those whose next element is in the range. -/
def boundedScan (fixed : SqlKey) (b : RangeBounds) : M SqlKey (List (LeafEntry SqlKey)) := do
  if b.lo.isNone && b.hi.isNone then prefixScan fixed
  else
    let current ← boundedStart fixed b.lo
    let s ← get
    scanWhile (boundedVerdict fixed b) (s.total_pages + 1) current

end BTree

/-! ### Index -/

/-- `Index`, over the tree of the store. -/
structure Index where
  schema : IndexSchema
  pk_arity : ℕ

inductive IndexErr where
  /-- more columns to search for than there are -/
  | search_arity (index : Bytes)
  | no_bound (index : Bytes)
  /-- no column is left to range over -/
  | no_range_column (index : Bytes)
  | tree (e : Err SqlKey)

abbrev IndexM := EStateM IndexErr (Store SqlKey)

/-- A call of the `BTree`. -/
def on_tree {α : Type} (m : M SqlKey α) : IndexM α := fun s =>
  match m s with
  | .ok a s' => .ok a s'
  | .error e s' => .error (.tree e) s'

namespace Index

variable (idx : Index)

def width : ℕ := idx.schema.column_names.length

/-- The check of `find` and `find_with_values`, and the scan. -/
def scan_prefix (indexed_value : SqlKey) : IndexM (List (LeafEntry SqlKey)) := do
  if is_indexable indexed_value.1 = false then pure []
  else if indexed_value.1.length > idx.width then throw (.search_arity idx.schema.name)
  else on_tree (BTree.prefixScan indexed_value)

def find (indexed_value : SqlKey) : IndexM (List Key) := do
  let entries ← idx.scan_prefix indexed_value
  pure (entries.map fun e => e.key.1.drop idx.width)

def find_with_values (indexed_value : SqlKey) : IndexM (List (Key × Key)) := do
  let entries ← idx.scan_prefix indexed_value
  pure (entries.map fun e => (e.key.1.take idx.width, e.key.1.drop idx.width))

/-- The checks of `find_range` and `find_range_with_values`, and the scan. -/
def scan_range (fixed : SqlKey) (b : RangeBounds) : IndexM (List (LeafEntry SqlKey)) := do
  if b.lo.isNone && b.hi.isNone then throw (.no_bound idx.schema.name)
  else if fixed.1.length ≥ idx.width then throw (.no_range_column idx.schema.name)
  else if is_indexable fixed.1 = false then pure []
  else if (b.lo.any fun lo => lo.1.isNull) || (b.hi.any fun hi => hi.1.isNull) then pure []
  else on_tree (BTree.boundedScan fixed b)

/-- Cut behind the fixed columns and the one range column. -/
def find_range (fixed : SqlKey) (b : RangeBounds) : IndexM (List Key) := do
  let entries ← idx.scan_range fixed b
  pure (entries.map fun e => e.key.1.drop (fixed.1.length + 1))

def find_range_with_values (fixed : SqlKey) (b : RangeBounds) : IndexM (List (Key × Key)) := do
  let entries ← idx.scan_range fixed b
  let split := fixed.1.length + 1
  pure (entries.map fun e => (e.key.1.take split, e.key.1.drop split))

end Index

/-! ### Entries -/

/-- An entry of an index: a value for every column, none of them NULL (`insert_entry` enters no other), and a primary key. -/
structure IndexEntry (idx : Index) where
  value : SqlKey
  primary_key : SqlKey
  width : value.1.length = idx.width
  arity : primary_key.1.length = idx.pk_arity
  indexable : is_indexable value.1 = true

/-- `v ++ pk`. -/
def IndexEntry.key {idx : Index} (e : IndexEntry idx) : Key := e.value.1 ++ e.primary_key.1

/-- A value that satisfies each bound there is. -/
def RangeBounds.Admits (b : RangeBounds) (v : Value) : Prop :=
  (∀ lo ∈ b.lo, lo.1.rank < v.rank ∨ b.lo_inclusive = true ∧ lo.1.rank = v.rank) ∧
    ∀ hi ∈ b.hi, v.rank < hi.1.rank ∨ b.hi_inclusive = true ∧ v.rank = hi.1.rank

instance (b : RangeBounds) (v : Value) : Decidable (b.Admits v) := inferInstanceAs (Decidable (_ ∧ _))

/-- A value within the bounds; nothing is above or below a NULL. -/
def RangeBounds.Within (b : RangeBounds) (v : Value) : Prop :=
  (∀ lo ∈ b.lo, lo.1.isNull = false ∧ (lo.1.rank < v.rank ∨ b.lo_inclusive = true ∧ lo.1.rank = v.rank)) ∧
    ∀ hi ∈ b.hi, hi.1.isNull = false ∧ (v.rank < hi.1.rank ∨ b.hi_inclusive = true ∧ v.rank = hi.1.rank)

instance (b : RangeBounds) (v : Value) : Decidable (b.Within v) := inferInstanceAs (Decidable (_ ∧ _))

/-- The value begins with `fixed`. -/
def IndexEntry.Begins {idx : Index} (e : IndexEntry idx) (fixed : SqlKey) : Prop := fixed.1.rank <+: e.value.1.rank

instance {idx : Index} (e : IndexEntry idx) (fixed : SqlKey) : Decidable (e.Begins fixed) := inferInstanceAs (Decidable (_ <+: _))

/-- The value begins with `fixed`, and the next column is within the bounds. -/
def IndexEntry.InRange {idx : Index} (e : IndexEntry idx) (fixed : SqlKey) (b : RangeBounds) : Prop :=
  e.Begins fixed ∧ ∃ v ∈ e.value.1[fixed.1.length]?, b.Within v

instance {idx : Index} (e : IndexEntry idx) (fixed : SqlKey) (b : RangeBounds) : Decidable (e.InRange fixed b) :=
  inferInstanceAs (Decidable (_ ∧ _))

namespace Index

variable {idx : Index} (s : Store SqlKey) (S : List (IndexEntry idx)) (fixed : SqlKey) (b : RangeBounds)

/-- The two searches by prefix return of each entry that begins with it the whole primary key, and the whole value. -/
def FindsPrefix : Prop :=
  idx.find fixed s = .ok ((S.filter fun e => decide (e.Begins fixed)).map fun e => e.primary_key.1) s ∧
    idx.find_with_values fixed s = .ok ((S.filter fun e => decide (e.Begins fixed)).map fun e => (e.value.1, e.primary_key.1)) s

/-- The same of the two searches by range. -/
def FindsRange : Prop :=
  idx.find_range fixed b s = .ok ((S.filter fun e => decide (e.InRange fixed b)).map fun e => e.primary_key.1) s ∧
    idx.find_range_with_values fixed b s =
      .ok ((S.filter fun e => decide (e.InRange fixed b)).map fun e => (e.value.1, e.primary_key.1)) s

end Index

end GSDBEngine
