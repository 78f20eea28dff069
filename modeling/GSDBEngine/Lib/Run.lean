import Mathlib.Tactic.Common

/-!
# Runs under a condition

Runs of a step relation in which every step meets a condition on the state before it, and
the rule that carries an invariant along them.

* `RunWhere.invariant`: what holds at the start and is kept by the allowed steps holds throughout.
-/

/-- A run from `s`, every step of which is allowed. -/
inductive RunWhere {E S : Type} (step : E → S → S → Prop) (ok : E → S → Prop) (s : S) : S → Prop
  | refl : RunWhere step ok s s
  | step {e : E} {t u : S} : RunWhere step ok s t → ok e t → step e t u → RunWhere step ok s u

namespace RunWhere

variable {E S : Type} {step : E → S → S → Prop} {ok : E → S → Prop} {s t : S} {I : S → Prop}

theorem invariant (h : RunWhere step ok s t) (h₀ : I s) (hstep : ∀ e t u, I t → ok e t → step e t u → I u) : I t := by
  induction h with
  | refl => exact h₀
  | step _ hok hs ih => exact hstep _ _ _ ih hok hs

theorem trans {u : S} (h : RunWhere step ok s t) (h' : RunWhere step ok t u) : RunWhere step ok s u := by
  induction h' with
  | refl => exact h
  | step _ hok hs ih => exact .step ih hok hs

theorem mono {ok' : E → S → Prop} (h : RunWhere step ok s t) (hok : ∀ e t, ok e t → ok' e t) : RunWhere step ok' s t := by
  induction h with
  | refl => exact .refl
  | step _ he hs ih => exact .step ih (hok _ _ he) hs

end RunWhere
