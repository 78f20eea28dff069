import GSDBEngine.Lib.Eff

/-!
# Computations that are cut off

A recursion with fuel throws one error when it runs out. More fuel changes nothing but that.

* `Eff.Below`: the second computation does what the first one does, unless that is cut off.
* `Eff.Below.bind`, `Eff.Below.forM`: sequences and loops. `Eff.Below.le`: any amount of fuel more.
-/

namespace Eff

variable {ε σ α β : Type} {cut : ε} {m m' m'' : EStateM ε σ α} {s : σ}

/-- A run ends before it is cut off. -/
def Ends (cut : ε) (m : EStateM ε σ α) (s : σ) : Prop := ∀ s', m s ≠ .error cut s'

/-- Where `m` ends, `m'` does the same. -/
def Below (cut : ε) (m m' : EStateM ε σ α) : Prop := ∀ s, Ends cut m s → m' s = m s

theorem ends_of_wp {E : ε → σ → Prop} {Q : α → σ → Prop} (h : wp m E Q s) (hE : ∀ s', ¬ E cut s') : Ends cut m s :=
  fun s' hm => hE s' (wp_error h hm)

namespace Below

theorem refl (m : EStateM ε σ α) : Below cut m m := fun _ _ => rfl

theorem trans (h : Below cut m m') (h' : Below cut m' m'') : Below cut m m'' := by
  intro s hm
  have h₁ := h s hm
  have hm' : Ends cut m' s := fun s' he => hm s' (h₁.symm.trans he)
  exact (h' s hm').trans h₁

theorem bind {m m' : EStateM ε σ β} {f f' : β → EStateM ε σ α} (h : Below cut m m') (hf : ∀ b, Below cut (f b) (f' b)) :
    Below cut (m >>= f) (m' >>= f') := by
  intro s hm
  show EStateM.bind m' f' s = EStateM.bind m f s
  unfold Ends at hm
  change ∀ s', EStateM.bind m f s ≠ _ at hm
  unfold EStateM.bind at hm ⊢
  cases hms : m s with
  | error e s₁ =>
    have hends : Ends cut m s := fun s' he => by
      rw [he] at hm
      exact hm s' rfl
    rw [h s hends, hms]
  | ok b s₁ =>
    have hends : Ends cut m s := fun s' he => by
      rw [hms] at he
      cases he
    rw [h s hends, hms]
    rw [hms] at hm
    exact hf b s₁ hm

theorem forM {γ : Type} {f f' : γ → EStateM ε σ PUnit} (hf : ∀ x, Below cut (f x) (f' x)) (l : List γ) :
    Below cut (l.forM f) (l.forM f') := by
  induction l with
  | nil => exact refl _
  | cons x l ih => exact (hf x).bind fun _ => ih

/-- One more step of fuel changes nothing, so none does. -/
theorem le {m : ℕ → EStateM ε σ α} (h : ∀ n, Below cut (m n) (m (n + 1))) {n k : ℕ} (hk : n ≤ k) : Below cut (m n) (m k) := by
  induction hk with
  | refl => exact refl _
  | step _ ih => exact ih.trans (h _)

end Below

end Eff
