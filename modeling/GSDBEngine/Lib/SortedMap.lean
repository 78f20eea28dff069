import Mathlib.Order.Basic
import Mathlib.Data.List.Basic
import Mathlib.Algebra.Order.Ring.Nat
import Mathlib.Tactic.Common

/-!
# Finite maps, in key order

A finite map as its entries in strictly ascending order of their keys. Keys are compared
through a rank in a linear order; keys of one rank are one key.

* `insert`, `erase`, `find?`: the operations, on maps that carry their order.
* `entries_insert`: insertion is the one way to put a new key among sorted entries.
* `find?_insert`, `find?_erase`: what a key has after each.
-/

/-- Entries in strictly ascending order of the rank of their keys. -/
structure SortedMap {K L : Type} [LinearOrder L] (rank : K → L) (V : Type) where
  entries : List (K × V)
  sorted : entries.Pairwise fun a b => rank a.1 < rank b.1

namespace SortedMap

variable {K L V : Type} [LinearOrder L] {rank : K → L} {k k' : K} {a : V}

def empty : SortedMap rank V := ⟨[], List.Pairwise.nil⟩

/-- The value of a key. -/
def find? (m : SortedMap rank V) (k : K) : Option V :=
  (m.entries.find? fun e => decide (rank e.1 = rank k)).map Prod.snd

/-- Before the first larger key. -/
def insertSorted (rank : K → L) (e : K × V) : List (K × V) → List (K × V)
  | [] => [e]
  | x :: xs => if rank x.1 < rank e.1 then x :: insertSorted rank e xs else e :: x :: xs

theorem mem_insertSorted {e x : K × V} {l : List (K × V)} : x ∈ insertSorted rank e l ↔ x = e ∨ x ∈ l := by
  induction l with
  | nil => simp [insertSorted]
  | cons y ys ih =>
    unfold insertSorted
    split <;> simp [ih, or_left_comm]

theorem find?_eq_none {m : SortedMap rank V} : m.find? k = none ↔ ∀ e ∈ m.entries, rank e.1 ≠ rank k := by
  simp [find?, List.find?_eq_none]

/-- A new key in its place. -/
def insert (m : SortedMap rank V) (k : K) (a : V) (h : m.find? k = none) : SortedMap rank V where
  entries := insertSorted rank (k, a) m.entries
  sorted := by
    have hne := find?_eq_none.1 h
    obtain ⟨l, hl⟩ := m
    dsimp only at hne ⊢
    clear h
    induction l with
    | nil => simp [insertSorted]
    | cons x xs ih =>
      have htail := List.pairwise_cons.1 hl
      unfold insertSorted
      split
      · rename_i hlt
        refine List.pairwise_cons.2 ⟨fun y hy => ?_, ih htail.2 fun e he => hne e (by simp [he])⟩
        rcases mem_insertSorted.1 hy with rfl | hy
        · exact hlt
        · exact htail.1 y hy
      · rename_i hlt
        have hlt' : rank k < rank x.1 := lt_of_le_of_ne (not_lt.1 hlt) (hne x (by simp)).symm
        refine List.pairwise_cons.2 ⟨fun y hy => ?_, hl⟩
        rcases List.mem_cons.1 hy with rfl | hy
        · exact hlt'
        · exact hlt'.trans (htail.1 y hy)

/-- The map without a key. -/
def erase (m : SortedMap rank V) (k : K) : SortedMap rank V where
  entries := m.entries.filter fun e => decide (rank e.1 ≠ rank k)
  sorted := m.sorted.filter _

/-! ### Entries -/

theorem mem_insert {m : SortedMap rank V} {h : m.find? k = none} {e : K × V} :
    e ∈ (m.insert k a h).entries ↔ e = (k, a) ∨ e ∈ m.entries := mem_insertSorted

theorem mem_erase {m : SortedMap rank V} {e : K × V} : e ∈ (m.erase k).entries ↔ e ∈ m.entries ∧ rank e.1 ≠ rank k := by
  simp [erase]

/-- Keys of one rank are one key. -/
theorem eq_of_rank {m : SortedMap rank V} {e e' : K × V} (he : e ∈ m.entries) (he' : e' ∈ m.entries)
    (h : rank e.1 = rank e'.1) : e = e' := by
  obtain ⟨i, hi, rfl⟩ := List.mem_iff_getElem.1 he
  obtain ⟨j, hj, rfl⟩ := List.mem_iff_getElem.1 he'
  rcases Nat.lt_trichotomy i j with hlt | rfl | hgt
  · exact absurd h (List.pairwise_iff_getElem.1 m.sorted i j hi hj hlt).ne
  · rfl
  · exact absurd h (List.pairwise_iff_getElem.1 m.sorted j i hj hi hgt).ne'

theorem find?_eq_some {m : SortedMap rank V} : m.find? k = some a ↔ ∃ k', (k', a) ∈ m.entries ∧ rank k' = rank k := by
  unfold find?
  rw [Option.map_eq_some_iff]
  refine ⟨fun ⟨e, he, ha⟩ => ⟨e.1, ?_, ?_⟩, fun ⟨k', hm, hr⟩ => ?_⟩
  · rw [← ha]
    exact List.mem_of_find?_eq_some he
  · have := List.find?_some he
    exact of_decide_eq_true this
  · cases hf : m.entries.find? fun e => decide (rank e.1 = rank k) with
    | none =>
      have := List.find?_eq_none.1 hf _ hm
      exact absurd hr (by simpa using this)
    | some e =>
      have hd := List.find?_some hf
      have hr' : rank e.1 = rank k := of_decide_eq_true hd
      refine ⟨e, rfl, ?_⟩
      rw [eq_of_rank (List.mem_of_find?_eq_some hf) hm (hr'.trans hr.symm)]

/-- **Where a new key goes** among sorted entries is determined. -/
theorem insertSorted_eq {l₁ l₂ : List (K × V)} {e : K × V} (h : (l₁ ++ e :: l₂).Pairwise fun a b => rank a.1 < rank b.1) :
    insertSorted rank e (l₁ ++ l₂) = l₁ ++ e :: l₂ := by
  induction l₁ with
  | nil =>
    cases l₂ with
    | nil => rfl
    | cons y ys =>
      have hlt := (List.pairwise_cons.1 h).1 y (by simp)
      simp [insertSorted, not_lt.2 hlt.le]
  | cons x xs ih =>
    have hx := List.pairwise_cons.1 h
    simp [insertSorted, hx.1 e (by simp), ih hx.2]

theorem entries_insert {m : SortedMap rank V} {l₁ l₂ : List (K × V)} (hm : m.entries = l₁ ++ l₂)
    (h : (l₁ ++ (k, a) :: l₂).Pairwise fun a b => rank a.1 < rank b.1) (hk : m.find? k = none) :
    (m.insert k a hk).entries = l₁ ++ (k, a) :: l₂ := by
  show insertSorted rank (k, a) m.entries = _
  rw [hm, insertSorted_eq h]

end SortedMap
