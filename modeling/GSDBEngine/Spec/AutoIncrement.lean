import GSDBEngine.Spec.Contents
import GSDBEngine.Lib.Run

/-!
# Runs of a table with AUTO_INCREMENT

The counter is a `uint32_t` and the keys are `int32_t`: a key moves it by its bits.

* `TableStep`, `Table.Step`: the calls, and the table made anew from its tree.
* `Table.Follows`: **a new key is on the side of zero where the counter is, or above all others.**
-/

namespace GSDBEngine

/-- A call, or the object made anew. -/
inductive TableStep where
  | call (c : TableCall)
  | reopen

namespace Table

variable (tbl : Table)

/-- However a call ends. -/
def Step : TableStep → TableState → TableState → Prop
  | .call c, s, s' => c.run tbl s = .ok () s' ∨ ∃ e, c.run tbl s = .error e s'
  | .reopen, s, s' => tbl.init_auto_increment { s with next_auto_increment := 1 } = .ok () s'

/-- The counter is behind `INT32_MAX`. -/
def Exhausted (s : TableState) : Prop := s.next_auto_increment.toNat = 2 ^ 31

/-- **A key that keeps the counter ahead** of the keys of `S`: as long as no negative key has moved it, one that is not negative, or
that no other is above; and a negative one from then on. -/
def Follows (next : UInt32) (S : Contents) (v : Int32) : Prop :=
  if next.toNat ≤ 2 ^ 31 then 0 ≤ v ∨ ∀ e ∈ S, ∀ w, e.1 = [.int w] → w ≤ v else v < 0

/-- A row whose key is left to AUTO_INCREMENT. -/
def LeavesKey (c : TableCall) : Prop :=
  ∃ row i, c = .insert row ∧ tbl.schema.auto_increment_column = some i ∧ row[i]? = some .null

/-- **The condition**: every new key follows, and no key is left to a counter that is behind `INT32_MAX`. -/
def StepFollows : TableStep → TableState → Prop
  | .call c, s =>
    (∀ new ∈ c.written tbl s.next_auto_increment (tbl.contents s.trees), ∀ v, new.1 = [.int v] →
      (∀ e ∈ tbl.contents s.trees, e.1 ≠ [.int v]) →
      Follows s.next_auto_increment (tbl.contents s.trees \ c.selected (tbl.contents s.trees)) v) ∧
    (tbl.LeavesKey c → ¬ Exhausted s)
  | .reopen, _ => True

/-- What a statement gives a call: numbers, strings that fit a page, and rows of the table. -/
def StepPlain : TableStep → TableState → Prop
  | .call c, s => (∀ v ∈ c.values, v.isNaN = false) ∧ Row.Short c.values ∧ c.Matched (tbl.contents s.trees)
  | .reopen, _ => True

/-- A row that passes the constraints other than its key's: it can be stored, and the unique indexes are free. -/
def PassesOthers (S : Contents) (new : Key × Row) : Prop :=
  tbl.Fits new ∧ ∀ idx ∈ tbl.indexes, ∀ e ∈ S, ¬ idx.Conflict e.2 new.2

end Table

end GSDBEngine
