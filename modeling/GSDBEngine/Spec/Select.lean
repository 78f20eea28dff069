import GSDBEngine.Spec.Query
import GSDBEngine.Lib.StableSort

/-!
# ORDER BY and GROUP BY

`executor.cpp`: the order of the rows of a SELECT and the groups of GROUP BY. What `std::stable_sort`
promises is asked of its comparator; the sort here is the stable insertion sort.

* `order_by_less`: the comparator of both sorts. `sort_by_column`, `sort_groups`: the sorts.
* `OrderedBy`: **what ORDER BY promises**.
-/

namespace GSDBEngine

/-! ### ORDER BY -/

/-- NULLs sort last, regardless of direction. -/
def order_by_less (ascending : Bool) (va vb : Value) : Bool :=
  if va.isNull && vb.isNull then false
  else if va.isNull then false
  else if vb.isNull then true
  else
    let less_than := value_less_than va vb
    if ascending then less_than else !less_than

section order_by

variable {α : Type}

/-- The value of the ORDER BY column. -/
def sort_key (col_idx : ℕ) (get_row : α → Row) (a : α) : Value := (get_row a).getD col_idx .null

def sort_by_column (col_idx : ℕ) (ascending : Bool) (get_row : α → Row) (vec : List α) : Except ExecErr (List α) := do
  -- the comparator reads the column of each row, once there are two
  if 2 ≤ vec.length then
    vec.forM fun a => discard ((get_row a).get col_idx)
  pure (StableSort.sort (fun a b => order_by_less ascending (sort_key col_idx get_row a) (sort_key col_idx get_row b)) vec)

/-- The rows of the groups, each with its order key. -/
def sort_groups (ascending : Bool) (output_rows : List (Value × List Bytes)) : List (Value × List Bytes) :=
  StableSort.sort (fun a b => order_by_less ascending a.1 b.1) output_rows

/-- **What ORDER BY promises** of the rows of `vec`: NULLs last, the other values in the direction asked for, and equal ones in the
order they had. -/
structure OrderedBy (ascending : Bool) (key : α → Value) (vec sorted : List α) : Prop where
  perm : sorted.Perm vec
  nulls_last : sorted.Pairwise fun a b => (key a).isNull = true → (key b).isNull = true
  monotone : sorted.Pairwise fun a b => (key a).isNull = false → (key b).isNull = false →
    if ascending then value_less_than (key b) (key a) = false else value_less_than (key a) (key b) = false
  stable : ∀ v, sorted.filter (fun a => (key a).eq v) = vec.filter fun a => (key a).eq v

/-- The values are those of one column: NULL, or of the column's type. -/
def OneType (vals : List Value) : Prop := ∃ type, ∀ v ∈ vals, v = .null ∨ v.index = type

/-- Where the comparator is a strict weak order: NULLs only, or **ascending and all comparable** (a NaN is equal to any other value). -/
def Sortable (ascending : Bool) (vals : List Value) : Prop :=
  (∀ v ∈ vals, v = .null) ∨
    ascending = true ∧ ((∃ v ∈ vals, v.isNaN = true) → ∀ v ∈ vals, ∀ w ∈ vals, value_less_than v w = false)

end order_by

end GSDBEngine
