import Mathlib.Data.List.Lex
import Mathlib.Algebra.Order.Ring.Nat
import Mathlib.Tactic.Common

/-!
# Scans of sorted tuples

A scan goes through sorted elements and says of each whether it is skipped, taken, or the end.

* `Scan.run_eq_filter`: where no element behind an end would be taken, **a scan is a filter**.
* `Scan.prefix_of_between`: in lexicographic order, what lies between a tuple and one that begins with it begins with it.
-/

namespace Scan

inductive Verdict where
  | skip
  | push
  | stop
  deriving DecidableEq

section run

variable {α : Type} {verdict : α → Option Verdict} {l l' : List α}

/-- The elements taken, and whether the end was found; none if there is no verdict. -/
def run (verdict : α → Option Verdict) : List α → Option (List α × Bool)
  | [] => some ([], false)
  | a :: l =>
    match verdict a with
    | none => none
    | some .skip => run verdict l
    | some .stop => some ([], true)
    | some .push => (run verdict l).map fun r => (a :: r.1, r.2)

/-- Nothing behind an end would be taken. -/
def Ends (verdict : α → Option Verdict) (l : List α) : Prop :=
  l.Pairwise fun a b => verdict a = some .stop → verdict b ≠ some .push

theorem filter_eq_nil_of_stop {a : α} (ha : verdict a = some .stop) (h : ∀ b ∈ l, verdict a = some .stop → verdict b ≠ some .push) :
    l.filter (fun b => decide (verdict b = some .push)) = [] :=
  List.filter_eq_nil_iff.2 fun b hb => by
    rw [decide_eq_true_eq]
    exact h b hb ha

/-- **A scan is a filter**, and it has found an end if it says so. -/
theorem run_eq_filter (hv : ∀ a ∈ l, (verdict a).isSome = true) (h : Ends verdict l) :
    ∃ done, run verdict l = some (l.filter (fun a => decide (verdict a = some .push)), done) ∧
      (done = true → ∃ a ∈ l, verdict a = some .stop) := by
  induction l with
  | nil => exact ⟨false, rfl, fun hd => by cases hd⟩
  | cons a l ih =>
    obtain ⟨hhead, htail⟩ := List.pairwise_cons.1 h
    obtain ⟨done, hrun, hdone⟩ := ih (fun b hb => hv b (List.mem_cons_of_mem _ hb)) htail
    have hrest : done = true → ∃ b ∈ a :: l, verdict b = some .stop := by
      intro hd
      obtain ⟨b, hb, hstop⟩ := hdone hd
      exact ⟨b, List.mem_cons_of_mem _ hb, hstop⟩
    have hsome := hv a List.mem_cons_self
    unfold run
    cases ha : verdict a with
    | none =>
      rw [ha] at hsome
      cases hsome
    | some w =>
      cases w with
      | skip =>
        refine ⟨done, ?_, hrest⟩
        rw [List.filter_cons_of_neg (by rw [ha]; decide)]
        exact hrun
      | push =>
        refine ⟨done, ?_, hrest⟩
        rw [List.filter_cons_of_pos (by rw [ha]; rfl), hrun]
        rfl
      | stop =>
        refine ⟨true, ?_, fun _ => ⟨a, List.mem_cons_self, ha⟩⟩
        rw [List.filter_cons_of_neg (by rw [ha]; decide), filter_eq_nil_of_stop ha hhead]

/-- A scan of two parts ends in the first, or goes on with the second. -/
theorem filter_append_of_stop (h : Ends verdict (l ++ l')) {a : α} (ha : a ∈ l) (hstop : verdict a = some .stop) :
    (l ++ l').filter (fun b => decide (verdict b = some .push)) = l.filter fun b => decide (verdict b = some .push) := by
  rw [List.filter_append, filter_eq_nil_of_stop hstop fun b hb => (List.pairwise_append.1 h).2.2 a ha b hb, List.append_nil]

end run

/-! ### Tuples -/

section tuples

variable {α : Type} [LinearOrder α] {p a b x y : List α} {r r' : α}

theorem cons_le_cons : r :: a ≤ r' :: b ↔ r < r' ∨ r = r' ∧ a ≤ b := by
  rw [← not_lt, List.cons_lt_cons_iff, not_or, not_and, not_lt, not_lt]
  constructor
  · rintro ⟨hle, himp⟩
    rcases hle.lt_or_eq with hlt | heq
    · exact Or.inl hlt
    · exact Or.inr ⟨heq, himp heq.symm⟩
  · rintro (hlt | ⟨rfl, hle⟩)
    · exact ⟨hlt.le, fun heq => absurd heq hlt.ne'⟩
    · exact ⟨le_rfl, fun _ => hle⟩

theorem nil_le : [] ≤ a := not_lt.1 (List.not_lt_nil a)

theorem append_le_append : p ++ a ≤ p ++ b ↔ a ≤ b := by
  induction p with
  | nil => rfl
  | cons r p ih =>
    rw [List.cons_append, List.cons_append, cons_le_cons, ih]
    exact ⟨fun h => (h.resolve_left (lt_irrefl r)).2, fun h => Or.inr ⟨rfl, h⟩⟩

theorem append_lt_append : p ++ a < p ++ b ↔ a < b := by
  rw [← not_le, append_le_append, not_le]

/-- A tuple comes before those that begin with it. -/
theorem le_of_prefix (h : p <+: a) : p ≤ a := by
  obtain ⟨x, rfl⟩ := h
  have hle := append_le_append (p := p).2 (nil_le (a := x))
  rwa [List.append_nil] at hle

theorem prefix_of_between (hpa : p ≤ a) (hab : a ≤ b) (hpb : p <+: b) : p <+: a := by
  obtain ⟨x, rfl⟩ := hpb
  induction p generalizing a with
  | nil => exact List.nil_prefix
  | cons r p ih =>
    cases a with
    | nil => exact absurd hpa (not_le.2 (List.nil_lt_cons r p))
    | cons r' a =>
      rw [cons_le_cons] at hpa
      rw [List.cons_append, cons_le_cons] at hab
      rcases hpa with hlt | ⟨rfl, hpa⟩
      · rcases hab with hlt' | ⟨heq, -⟩
        · exact absurd hlt hlt'.asymm
        · exact absurd heq hlt.ne'
      · have hab := (hab.resolve_left (lt_irrefl r)).2
        exact List.cons_prefix_cons.2 ⟨rfl, ih hpa hab⟩

/-- Behind a common beginning, the next elements are in order. -/
theorem le_of_append_cons (h : p ++ r :: x ≤ p ++ r' :: y) : r ≤ r' := by
  rcases cons_le_cons.1 (append_le_append.1 h) with hlt | ⟨rfl, -⟩
  · exact hlt.le
  · exact le_rfl

/-- What comes before `p ++ [r']` and begins with `p` goes on below `r'`. -/
theorem lt_of_append_cons (h : p ++ r :: x < p ++ [r']) : r < r' := by
  rcases List.cons_lt_cons_iff.1 (append_lt_append.1 h) with hlt | ⟨-, hnil⟩
  · exact hlt
  · exact absurd hnil (List.not_lt_nil x)

end tuples

end Scan
