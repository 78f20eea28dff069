import Mathlib.Data.List.Lex
import Mathlib.Algebra.Order.Ring.Nat
import Mathlib.Tactic.Common

/-!
# Lexicographic comparison through a rank

`lexLt` and `lexEq` compare two sequences element by element with given
comparison functions. When the element comparisons agree with a rank in a linear
order, the sequences compare as their lists of ranks do (`lexLt_iff`,
`lexEq_iff`).
-/

namespace Lex

variable {α R : Type}

/-- `a` comes before `b`: at the first place where the elements are ordered either
way, or because `a` ends first. -/
def lexLt (lt : α → α → Bool) : List α → List α → Bool
  | _, [] => false
  | [], _ :: _ => true
  | a :: as, b :: bs => lt a b || (!lt b a && lexLt lt as bs)

/-- Same length, and equal place by place. -/
def lexEq (eq : α → α → Bool) : List α → List α → Bool
  | [], [] => true
  | a :: as, b :: bs => eq a b && lexEq eq as bs
  | _, _ => false

variable [LinearOrder R] {P : α → Prop} {rank : α → R} {lt eq : α → α → Bool}

theorem lexLt_iff (h : ∀ a b, P a → P b → (lt a b = true ↔ rank a < rank b)) :
    ∀ as bs : List α, (∀ a ∈ as, P a) → (∀ b ∈ bs, P b) →
      (lexLt lt as bs = true ↔ as.map rank < bs.map rank) := by
  intro as
  induction as with
  | nil => intro bs _ _; cases bs <;> simp [lexLt]
  | cons a as ih =>
    intro bs ha hb
    cases bs with
    | nil => simp [lexLt]
    | cons b bs =>
      have hPa := ha a (by simp)
      have hPb := hb b (by simp)
      have hlt := h a b hPa hPb
      have hgt : lt b a = false ↔ rank a ≤ rank b := by
        rw [← Bool.not_eq_true, h b a hPb hPa, not_lt]
      simp only [lexLt, List.map_cons, List.cons_lt_cons_iff, Bool.or_eq_true, Bool.and_eq_true,
        Bool.not_eq_true', hlt, hgt, ih bs (fun x hx => ha x (by simp [hx])) (fun x hx => hb x (by simp [hx]))]
      constructor
      · rintro (hl | ⟨hle, hr⟩)
        · exact Or.inl hl
        · exact hle.lt_or_eq.imp id fun he => ⟨he, hr⟩
      · rintro (hl | ⟨he, hr⟩)
        · exact Or.inl hl
        · exact Or.inr ⟨he.le, hr⟩

omit [LinearOrder R] in
theorem lexEq_iff (h : ∀ a b, P a → P b → (eq a b = true ↔ rank a = rank b)) :
    ∀ as bs : List α, (∀ a ∈ as, P a) → (∀ b ∈ bs, P b) →
      (lexEq eq as bs = true ↔ as.map rank = bs.map rank) := by
  intro as
  induction as with
  | nil => intro bs _ _; cases bs <;> simp [lexEq]
  | cons a as ih =>
    intro bs ha hb
    cases bs with
    | nil => simp [lexEq]
    | cons b bs =>
      simp only [lexEq, List.map_cons, List.cons.injEq, Bool.and_eq_true,
        h a b (ha a (by simp)) (hb b (by simp)),
        ih bs (fun x hx => ha x (by simp [hx])) (fun x hx => hb x (by simp [hx]))]

end Lex
