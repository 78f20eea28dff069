import GSDBEngine.Lib.Eff
import GSDBEngine.Lib.Kleene

/-!
# Two computations, side by side

`x` is less defined than `y` if `y` returns what `x` returns, wherever `x` returns; `x` may throw where `y` does not, or throw something else.
`x` and `y` are alike if they throw the same, or both return, and what they return is related.

* `LessDefined.bind`, `Alike.bind`: sequencing keeps either, part by part. `Alike.mapM`: a loop over lists that are related.
* `Formula.eval_lessDefined`: so does the evaluation of a formula, leaf by leaf. `Formula.eval_congr`: equal leaves.
-/

namespace Eff

variable {ε ε' α β : Type} {x y z : Except ε α}

theorem except_ok_bind (a : α) (f : α → Except ε β) : ((Except.ok a : Except ε α) >>= f) = f a := rfl

theorem except_error_bind (e : ε) (f : α → Except ε β) : ((Except.error e : Except ε α) >>= f) = .error e := rfl

/-- Whatever `x` returns, `y` returns. -/
def LessDefined (x y : Except ε α) : Prop := ∀ a, x = .ok a → y = .ok a

namespace LessDefined

theorem refl (x : Except ε α) : LessDefined x x := fun _ h => h

theorem of_eq (h : x = y) : LessDefined x y := h ▸ refl x

theorem trans (h : LessDefined x y) (h' : LessDefined y z) : LessDefined x z := fun a ha => h' a (h a ha)

theorem throw (e : ε) : LessDefined (.error e) y := fun _ h => by cases h

theorem bind {f g : α → Except ε β} (h : LessDefined x y) (hfg : ∀ a, LessDefined (f a) (g a)) : LessDefined (x >>= f) (y >>= g) := by
  intro b hb
  obtain ⟨a, ha, hb⟩ := except_bind_ok hb
  have hy := h a ha
  rw [hy]
  exact hfg a b hb

theorem mapError (f : ε → ε') (h : LessDefined x y) : LessDefined (x.mapError f) (y.mapError f) := by
  intro a ha
  cases hx : x with
  | error e =>
    rw [hx] at ha
    cases ha
  | ok b =>
    rw [hx] at ha
    rw [h b hx]
    exact ha

theorem toOption {a : α} (h : LessDefined x y) (ha : x.toOption = some a) : y.toOption = some a := by
  cases hx : x with
  | error e =>
    rw [hx] at ha
    cases ha
  | ok b =>
    rw [hx] at ha
    rw [h b hx]
    exact ha

end LessDefined

/-- Both return, what they return is related, or both throw, the same. -/
def Alike {α β : Type} (R : α → β → Prop) (x : Except ε α) (y : Except ε β) : Prop :=
  (∃ a b, x = .ok a ∧ y = .ok b ∧ R a b) ∨ ∃ e, x = .error e ∧ y = .error e

namespace Alike

variable {γ δ : Type} {R : α → γ → Prop} {R' : β → δ → Prop} {u : Except ε γ}

theorem ok {a : α} {c : γ} (h : R a c) : Alike R (.ok a : Except ε α) (.ok c) := .inl ⟨a, c, rfl, rfl, h⟩

theorem of_eq (h : x = y) : Alike (· = ·) x y := by
  subst h
  cases x with
  | error e => exact .inr ⟨e, rfl, rfl⟩
  | ok a => exact ok rfl

theorem eq (h : Alike (· = ·) x y) : x = y := by
  rcases h with ⟨a, b, rfl, rfl, rfl⟩ | ⟨e, rfl, rfl⟩
  · rfl
  · rfl

theorem bind {f : α → Except ε β} {g : γ → Except ε δ} (h : Alike R x u) (hfg : ∀ a c, R a c → Alike R' (f a) (g c)) :
    Alike R' (x >>= f) (u >>= g) := by
  rcases h with ⟨a, c, rfl, rfl, hac⟩ | ⟨e, rfl, rfl⟩
  · exact hfg a c hac
  · exact .inr ⟨e, rfl, rfl⟩

theorem mapError (f : ε → ε') (h : Alike R x u) : Alike R (x.mapError f) (u.mapError f) := by
  rcases h with ⟨a, c, rfl, rfl, hac⟩ | ⟨e, rfl, rfl⟩
  · exact .inl ⟨a, c, rfl, rfl, hac⟩
  · exact .inr ⟨f e, rfl, rfl⟩

/-- A loop over lists that are related, element by element. -/
theorem mapM {f : α → Except ε β} {g : γ → Except ε δ} (hfg : ∀ a c, R a c → Alike R' (f a) (g c)) :
    ∀ {l : List α} {l' : List γ}, List.Forall₂ R l l' → Alike (List.Forall₂ R') (l.mapM f) (l'.mapM g)
  | _, _, .nil => ok .nil
  | a :: _, c :: _, .cons h hrest => by
    rw [List.mapM_cons, List.mapM_cons]
    exact (hfg a c h).bind fun b d hbd => (mapM hfg hrest).bind fun bs ds hbs => ok (.cons hbd hbs)

theorem forM {f : α → Except ε Unit} {g : γ → Except ε Unit} (hfg : ∀ a c, R a c → f a = g c) :
    ∀ {l : List α} {l' : List γ}, List.Forall₂ R l l' → l.forM f = l'.forM g
  | _, _, .nil => rfl
  | a :: l, c :: l', .cons h hrest => by
    show (f a >>= fun _ => l.forM f) = (g c >>= fun _ => l'.forM g)
    rw [hfg a c h, forM hfg hrest]

end Alike

end Eff

namespace Formula

open Eff

variable {α ε : Type} {leaf leaf' : α → Except ε Bool}

/-- Every leaf. -/
def Every (P : α → Prop) : Formula α → Prop
  | .leaf a => P a
  | and left right => Every P left ∧ Every P right
  | or left right => Every P left ∧ Every P right
  | not left => Every P left

theorem every_of {P : α → Prop} (h : ∀ a, P a) : ∀ f : Formula α, f.Every P
  | .leaf a => h a
  | and left right => ⟨every_of h left, every_of h right⟩
  | or left right => ⟨every_of h left, every_of h right⟩
  | not left => every_of h left

theorem Every.imp {P P' : α → Prop} (h : ∀ a, P a → P' a) : ∀ {f : Formula α}, f.Every P → f.Every P'
  | .leaf a, hf => h a hf
  | and _ _, hf => ⟨Every.imp h hf.1, Every.imp h hf.2⟩
  | or _ _, hf => ⟨Every.imp h hf.1, Every.imp h hf.2⟩
  | not left, hf => @Every.imp _ _ h left hf

theorem eval_congr : ∀ {f : Formula α}, f.Every (fun a => leaf a = leaf' a) → f.eval leaf = f.eval leaf'
  | .leaf _, h => h
  | and left right, h => by
    unfold eval
    rw [eval_congr h.1, eval_congr h.2]
  | or left right, h => by
    unfold eval
    rw [eval_congr h.1, eval_congr h.2]
  | not left, h => by
    unfold eval
    rw [@eval_congr left h]

/-- **More defined leaves, a more defined formula.** -/
theorem eval_lessDefined : ∀ {f : Formula α}, f.Every (fun a => LessDefined (leaf a) (leaf' a)) → LessDefined (f.eval leaf) (f.eval leaf')
  | .leaf _, h => h
  | and left right, h => by
    refine (eval_lessDefined h.1).bind fun b => ?_
    cases b with
    | true => exact eval_lessDefined h.2
    | false => exact .refl _
  | or left right, h => by
    refine (eval_lessDefined h.1).bind fun b => ?_
    cases b with
    | true => exact .refl _
    | false => exact eval_lessDefined h.2
  | not left, h => (@eval_lessDefined left h).bind fun _ => .refl _

end Formula
