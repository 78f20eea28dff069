import Mathlib.Algebra.Order.Ring.Nat
import Mathlib.Tactic.Common

/-!
# Three-valued conditions, and a two-valued evaluator

Formulas over leaves with AND, OR and NOT. `Formula.truth` gives them Kleene's truth values;
`Formula.eval` evaluates them with booleans, from the left and no further than it must, as
`&&` and `||` do.

* `eval_of_truth`: **an evaluator that takes an UNKNOWN leaf for false is right wherever the formula
  is not UNKNOWN, and returns true on an UNKNOWN formula exactly where it is `Lifted`.**
* `not_lifted_of_notFree`: without NOT nothing is lifted.
-/

/-- Kleene's truth values. -/
inductive Truth where
  | true
  | false
  | unknown
  deriving DecidableEq

namespace Truth

def ofBool (b : Bool) : Truth := if b then .true else .false

def not : Truth → Truth
  | .true => .false
  | .false => .true
  | .unknown => .unknown

def and : Truth → Truth → Truth
  | .true, t => t
  | .false, _ => .false
  | .unknown, .false => .false
  | .unknown, _ => .unknown

def or : Truth → Truth → Truth
  | .true, _ => .true
  | .false, t => t
  | .unknown, .true => .true
  | .unknown, _ => .unknown

end Truth

/-- A condition over leaves. -/
inductive Formula (α : Type) where
  | leaf (a : α)
  | and (left right : Formula α)
  | or (left right : Formula α)
  | not (left : Formula α)
  deriving DecidableEq

namespace Formula

variable {α ε : Type} {leaf : α → Except ε Bool} {v : α → Option Truth} {f g : Formula α} {t : Truth}

/-- `&&`, `||` and `!`. -/
def eval (leaf : α → Except ε Bool) : Formula α → Except ε Bool
  | .leaf a => leaf a
  | and left right => do
    if ← eval leaf left then eval leaf right else pure false
  | or left right => do
    if ← eval leaf left then pure true else eval leaf right
  | not left => do
    let b ← eval leaf left
    pure !b

/-- Kleene's tables; none where a leaf has no truth value. -/
def truth (v : α → Option Truth) : Formula α → Option Truth
  | .leaf a => v a
  | and left right => do
    let t ← truth v left
    let t' ← truth v right
    pure (t.and t')
  | or left right => do
    let t ← truth v left
    let t' ← truth v right
    pure (t.or t')
  | not left => do
    let t ← truth v left
    pure t.not

/-- **An UNKNOWN formula that comes out true**: a NOT turns an UNKNOWN that came out false into true,
and AND and OR of UNKNOWN operands pass on what these come out as. -/
def Lifted (v : α → Option Truth) : Formula α → Prop
  | .leaf _ => False
  | and left right => truth v (and left right) = some .unknown ∧
      (truth v left = some .unknown → Lifted v left) ∧ (truth v right = some .unknown → Lifted v right)
  | or left right => truth v (or left right) = some .unknown ∧
      ((truth v left = some .unknown ∧ Lifted v left) ∨ (truth v right = some .unknown ∧ Lifted v right))
  | not left => truth v left = some .unknown ∧ ¬ Lifted v left

/-- No NOT. -/
def NotFree : Formula α → Prop
  | .leaf _ => True
  | and left right => NotFree left ∧ NotFree right
  | or left right => NotFree left ∧ NotFree right
  | not _ => False

theorem not_lifted_of_notFree : ∀ {f : Formula α}, f.NotFree → ¬ f.Lifted v
  | .leaf _, _ => id
  | and left right, h => by
    obtain ⟨hl, hr⟩ := h
    rintro ⟨ht, hleft, hright⟩
    -- one of the operands is UNKNOWN
    by_cases hu : truth v left = some .unknown
    · exact not_lifted_of_notFree hl (hleft hu)
    · refine not_lifted_of_notFree hr (hright ?_)
      unfold truth at ht
      cases htl : truth v left with
      | none => rw [htl] at ht; cases ht
      | some tl =>
        cases htr : truth v right with
        | none => rw [htl, htr] at ht; cases ht
        | some tr =>
          rw [htl, htr] at ht
          have hand : tl.and tr = .unknown := Option.some.inj ht
          cases tl <;> cases tr <;> simp_all [Truth.and]
  | or left right, h => by
    rintro ⟨-, ⟨-, hl⟩ | ⟨-, hr⟩⟩
    · exact not_lifted_of_notFree h.1 hl
    · exact not_lifted_of_notFree h.2 hr
  | not _, h => h.elim

/-- What an evaluator returns on a formula of truth value `t`. -/
structure Rounds (v : α → Option Truth) (f : Formula α) (t : Truth) (b : Bool) : Prop where
  of_true : t = .true → b = true
  of_false : t = .false → b = false
  of_unknown : t = .unknown → (b = true ↔ f.Lifted v)

theorem eval_of_truth (hleaf : ∀ a t, v a = some t → leaf a = .ok (decide (t = .true))) :
    ∀ {f : Formula α} {t : Truth}, f.truth v = some t → ∃ b, f.eval leaf = .ok b ∧ Rounds v f t b
  | .leaf a, t, h => by
    refine ⟨_, hleaf a t h, fun ht => by rw [ht]; rfl, fun ht => by rw [ht]; rfl, fun ht => ?_⟩
    rw [ht]
    exact ⟨nofun, False.elim⟩
  | and left right, t, h => by
    have h₀ := h
    unfold truth at h
    obtain ⟨tl, hl, h⟩ := Option.bind_eq_some_iff.1 h
    obtain ⟨tr, hr, h⟩ := Option.bind_eq_some_iff.1 h
    obtain rfl := Option.some.inj h
    obtain ⟨bl, hbl, hrl⟩ := eval_of_truth hleaf hl
    obtain ⟨br, hbr, hrr⟩ := eval_of_truth hleaf hr
    refine ⟨bl && br, ?_, ?_⟩
    · unfold eval
      rw [hbl, hbr]
      cases bl <;> rfl
    · obtain ⟨hlt, hlf, hlu⟩ := hrl
      obtain ⟨hrt, hrf, hru⟩ := hrr
      constructor <;> intro ht
      all_goals cases tl <;> cases tr <;> simp_all [Truth.and, Lifted]
  | or left right, t, h => by
    have h₀ := h
    unfold truth at h
    obtain ⟨tl, hl, h⟩ := Option.bind_eq_some_iff.1 h
    obtain ⟨tr, hr, h⟩ := Option.bind_eq_some_iff.1 h
    obtain rfl := Option.some.inj h
    obtain ⟨bl, hbl, hrl⟩ := eval_of_truth hleaf hl
    obtain ⟨br, hbr, hrr⟩ := eval_of_truth hleaf hr
    refine ⟨bl || br, ?_, ?_⟩
    · unfold eval
      rw [hbl, hbr]
      cases bl <;> rfl
    · obtain ⟨hlt, hlf, hlu⟩ := hrl
      obtain ⟨hrt, hrf, hru⟩ := hrr
      constructor <;> intro ht
      all_goals cases tl <;> cases tr <;> simp_all [Truth.or, Lifted]
  | not left, t, h => by
    unfold truth at h
    obtain ⟨tl, hl, h⟩ := Option.bind_eq_some_iff.1 h
    obtain rfl := Option.some.inj h
    obtain ⟨bl, hbl, hlt, hlf, hlu⟩ := eval_of_truth hleaf hl
    refine ⟨!bl, ?_, ?_⟩
    · unfold eval
      rw [hbl]
      rfl
    · constructor <;> intro ht
      all_goals cases tl <;> simp_all [Truth.not, Lifted, ← Bool.not_eq_true]

/-- **The evaluator returns true exactly on TRUE, unless an UNKNOWN is lifted.** -/
theorem eval_iff (hleaf : ∀ a t, v a = some t → leaf a = .ok (decide (t = .true))) (h : f.truth v = some t) :
    f.eval leaf = .ok (decide (t = .true)) ↔ ¬ (t = .unknown ∧ f.Lifted v) := by
  obtain ⟨b, hb, hr⟩ := eval_of_truth hleaf h
  rw [hb, Except.ok.injEq]
  cases t with
  | true => simp [hr.of_true rfl]
  | false => simp [hr.of_false rfl]
  | unknown =>
    have hu := hr.of_unknown rfl
    simp [← hu]

end Formula
