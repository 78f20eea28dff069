import Mathlib.Data.List.Basic
import Mathlib.Algebra.Order.Ring.Nat
import Mathlib.Tactic.Common

/-!
# Readers of a list of symbols

A reader takes symbols off the front of a list. `Takes r w x`: `r` takes exactly `w` and
returns `x`, whatever is behind.

* `Takes.bind`: one reader after the other.
* `Takes.many`: as many as there are elements, one after the other.
-/

abbrev Reader (B α : Type) := StateT (List B) Option α

namespace Reader

variable {B α β : Type}

/-- `n` times. -/
def many (r : Reader B α) : ℕ → Reader B (List α)
  | 0 => pure []
  | n + 1 => do
    let x ← r
    let xs ← many r n
    pure (x :: xs)

def Takes (r : Reader B α) (w : List B) (x : α) : Prop := ∀ rest, r (w ++ rest) = some (x, rest)

theorem Takes.pure (x : α) : Takes (Pure.pure x : Reader B α) [] x := fun _ => rfl

theorem Takes.bind {r : Reader B α} {f : α → Reader B β} {w w' : List B} {x : α} {y : β} (h : Takes r w x) (h' : Takes (f x) w' y) :
    Takes (r >>= f) (w ++ w') y := by
  intro rest
  show (r (w ++ w' ++ rest)).bind (fun p => f p.1 p.2) = _
  rw [List.append_assoc, h]
  exact h' rest

/-- The last reader, whose result is used. -/
theorem Takes.map {r : Reader B α} {f : α → β} {w : List B} {x : α} (h : Takes r w x) : Takes (do Pure.pure (f (← r))) w (f x) := by
  have := h.bind (f := fun a => (Pure.pure (f a) : Reader B β)) (Takes.pure (f x))
  rwa [List.append_nil] at this

theorem Takes.many {r : Reader B α} {write : α → List B} : ∀ {l : List α}, (∀ x ∈ l, Takes r (write x) x) →
    Takes (Reader.many r l.length) (l.flatMap write) l := by
  intro l
  induction l with
  | nil => intro _; exact Takes.pure []
  | cons x xs ih =>
    intro h
    exact (h x (by simp)).bind ((ih fun y hy => h y (by simp [hy])).map)

end Reader

/-! ### Lengths -/

theorem List.length_le_flatMap {α β : Type} {f : α → List β} {l : List α} {x : α} (h : x ∈ l) : (f x).length ≤ (l.flatMap f).length := by
  induction l with
  | nil => cases h
  | cons y l ih =>
    rw [List.flatMap_cons, List.length_append]
    rcases List.mem_cons.1 h with rfl | h
    · exact Nat.le_add_right ..
    · exact Nat.le_trans (ih h) (Nat.le_add_left ..)

/-- There are as many symbols as elements. -/
theorem List.length_le_length_flatMap {α β : Type} {f : α → List β} (h : ∀ x, 1 ≤ (f x).length) (l : List α) :
    l.length ≤ (l.flatMap f).length := by
  induction l with
  | nil => exact Nat.le_refl 0
  | cons x l ih =>
    rw [List.flatMap_cons, List.length_append, List.length_cons]
    have := h x
    omega
