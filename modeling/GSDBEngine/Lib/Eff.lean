import Mathlib.Tactic.Common

/-!
# Weakest preconditions for stateful code that throws

`wp m E Q s`: from `s`, a run of `m` that returns `a` in `s'` satisfies `Q a s'`,
and one that throws `e` in `s'` satisfies `E e s'`. A throw keeps the state it
was reached in, as a C++ exception does.

* `wp_bind`, `wp_pure`, `wp_throw`, `wp_ite`: the rules a straight-line body is
  walked with.
* `wp_mono`: a callee's specification is used through it.
* `wp_forM`: a loop over a list, by an invariant on the elements still to come.
* `Upholds`: what holds before a piece of code and after it, whichever way it ends.
-/

namespace Eff

variable {ε σ α β : Type}

/-- The weakest precondition of `m` for the two postconditions. -/
def wp (m : EStateM ε σ α) (E : ε → σ → Prop) (Q : α → σ → Prop) (s : σ) : Prop :=
  match m s with
  | .ok a s' => Q a s'
  | .error e s' => E e s'

variable {E E' : ε → σ → Prop} {Q Q' : α → σ → Prop} {s : σ}

theorem wp_ok {m : EStateM ε σ α} {a : α} {s' : σ} (h : wp m E Q s) (hm : m s = .ok a s') : Q a s' := by
  unfold wp at h; rw [hm] at h; exact h

theorem wp_error {m : EStateM ε σ α} {e : ε} {s' : σ} (h : wp m E Q s) (hm : m s = .error e s') :
    E e s' := by
  unfold wp at h; rw [hm] at h; exact h

theorem wp_mono {m : EStateM ε σ α} (h : wp m E Q s) (hQ : ∀ a s', Q a s' → Q' a s')
    (hE : ∀ e s', E e s' → E' e s') : wp m E' Q' s := by
  unfold wp at h ⊢
  cases hm : m s with
  | ok a s' => rw [hm] at h; exact hQ a s' h
  | error e s' => rw [hm] at h; exact hE e s' h

theorem wp_post {m : EStateM ε σ α} (h : wp m E Q s) (hQ : ∀ a s', Q a s' → Q' a s') : wp m E Q' s :=
  wp_mono h hQ fun _ _ he => he

/-- The run itself. -/
theorem wp_self (m : EStateM ε σ α) (s : σ) : wp m (fun e s' => m s = .error e s') (fun a s' => m s = .ok a s') s := by
  unfold wp
  cases hm : m s with
  | ok a s' => exact rfl
  | error e s' => exact rfl

theorem wp_of_forall {m : EStateM ε σ α} (hE : ∀ e s', E e s') (hQ : ∀ a s', Q a s') : wp m E Q s := by
  unfold wp
  cases m s with
  | ok a s' => exact hQ a s'
  | error e s' => exact hE e s'

/-- A sequence goes on with what its first part returned. -/
theorem bind_of_ok {m : EStateM ε σ β} {f : β → EStateM ε σ α} {b : β} {s' : σ} (h : m s = .ok b s') : (m >>= f) s = f b s' := by
  show EStateM.bind m f s = f b s'
  unfold EStateM.bind
  rw [h]

/-- A sequence that returned. -/
theorem bind_ok {m : EStateM ε σ β} {f : β → EStateM ε σ α} {b : α} {s' : σ} (h : (m >>= f) s = .ok b s') :
    ∃ a s₁, m s = .ok a s₁ ∧ f a s₁ = .ok b s' := by
  have hb : EStateM.bind m f s = .ok b s' := h
  unfold EStateM.bind at hb
  cases hm : m s with
  | ok a s₁ =>
    rw [hm] at hb
    exact ⟨a, s₁, rfl, hb⟩
  | error e s₁ =>
    rw [hm] at hb
    cases hb

/-- The same without a state. -/
theorem except_bind_ok {m : Except ε β} {f : β → Except ε α} {b : α} (h : (m >>= f) = .ok b) : ∃ a, m = .ok a ∧ f a = .ok b := by
  cases m with
  | error e => cases h
  | ok a => exact ⟨a, rfl, h⟩

/-- Either part of a sequence throws. -/
theorem except_bind_error {m : Except ε β} {f : β → Except ε α} {e : ε} (h : (m >>= f) = .error e) :
    m = .error e ∨ ∃ a, m = .ok a ∧ f a = .error e := by
  cases m with
  | error e' =>
    cases h
    exact .inl rfl
  | ok a => exact .inr ⟨a, rfl, h⟩

theorem except_mapM_ok {f : β → Except ε α} : ∀ {l : List β} {out : List α}, l.mapM f = .ok out →
    List.Forall₂ (fun x y => f x = .ok y) l out
  | [], out, h => by
    rw [List.mapM_nil] at h
    obtain rfl := Except.ok.inj h
    exact List.Forall₂.nil
  | x :: l, out, h => by
    rw [List.mapM_cons] at h
    obtain ⟨y, hy, h⟩ := except_bind_ok h
    obtain ⟨rest, hrest, h⟩ := except_bind_ok h
    obtain rfl := Except.ok.inj h
    exact List.Forall₂.cons hy (except_mapM_ok hrest)

theorem except_mapM_mem {f : β → Except ε α} {l : List β} {out : List α} (h : l.mapM f = .ok out) {y : α} (hy : y ∈ out) :
    ∃ x ∈ l, f x = .ok y := by
  have hall := except_mapM_ok h
  clear h
  induction hall with
  | nil => exact absurd hy List.not_mem_nil
  | cons hx _ ih =>
    rcases List.mem_cons.1 hy with rfl | hy
    · exact ⟨_, List.mem_cons_self, hx⟩
    · obtain ⟨x, hmem, hx⟩ := ih hy
      exact ⟨x, List.mem_cons_of_mem _ hmem, hx⟩

/-- A traversal that returned did so at every element. -/
theorem except_forM_ok {f : β → Except ε Unit} : ∀ {l : List β} {u : Unit}, l.forM f = .ok u → ∀ x ∈ l, f x = .ok ()
  | [], _, _, x, hx => absurd hx List.not_mem_nil
  | y :: l, _, h, x, hx => by
    obtain ⟨_, hy, hrest⟩ := except_bind_ok (show (f y >>= fun _ => l.forM f) = _ from h)
    rcases List.mem_cons.1 hx with rfl | hx
    · exact hy
    · exact except_forM_ok hrest x hx

theorem eq_ok_of_wp {m : EStateM ε σ PUnit} {t : σ} (h : wp m (fun _ _ => False) (fun _ s' => s' = t) s) : m s = .ok ⟨⟩ t := by
  cases hm : m s with
  | ok a s' => rw [wp_ok h hm]
  | error e s' => exact (wp_error h hm).elim

theorem error_of_wp {m : EStateM ε σ α} {t : σ} (h : wp m (fun _ s' => s' = t) (fun _ _ => False) s) : ∃ e, m s = .error e t := by
  cases hm : m s with
  | ok a s' => exact (wp_ok h hm).elim
  | error e s' => exact ⟨e, by rw [wp_error h hm]⟩

theorem ok_of_wp {m : EStateM ε σ PUnit} {Q : PUnit → σ → Prop} (h : wp m (fun _ _ => False) Q s) : ∃ s', m s = .ok ⟨⟩ s' ∧ Q ⟨⟩ s' := by
  cases hm : m s with
  | ok a s' => exact ⟨s', rfl, wp_ok h hm⟩
  | error e s' => exact (wp_error h hm).elim

/-- A computation without a state. -/
def liftE : Except ε α → EStateM ε σ α
  | .ok a => pure a
  | .error e => throw e

/-- Either way it ends, the state is what it was. -/
theorem wp_liftE {x : Except ε α} (hQ : ∀ a, x = .ok a → Q a s) (hE : ∀ e, x = .error e → E e s) :
    wp (liftE x) E Q s := by
  cases x with
  | ok a => exact hQ a rfl
  | error e => exact hE e rfl

theorem wp_and {m : EStateM ε σ α} (h : wp m E Q s) (h' : wp m E' Q' s) :
    wp m (fun e s' => E e s' ∧ E' e s') (fun a s' => Q a s' ∧ Q' a s') s := by
  unfold wp at h h' ⊢
  cases hm : m s with
  | ok a s' => rw [hm] at h h'; exact ⟨h, h'⟩
  | error e s' => rw [hm] at h h'; exact ⟨h, h'⟩

@[simp] theorem wp_pure (a : α) : wp (pure a : EStateM ε σ α) E Q s ↔ Q a s := Iff.rfl

@[simp] theorem wp_bind (m : EStateM ε σ β) (f : β → EStateM ε σ α) :
    wp (m >>= f) E Q s ↔ wp m E (fun b s' => wp (f b) E Q s') s := by
  show (match EStateM.bind m f s with | .ok a s' => Q a s' | .error e s' => E e s') ↔ _
  unfold wp EStateM.bind
  cases m s <;> rfl

@[simp] theorem wp_throw (e : ε) : wp (throw e : EStateM ε σ α) E Q s ↔ E e s := Iff.rfl

@[simp] theorem wp_get {Q : σ → σ → Prop} : wp (get : EStateM ε σ σ) E Q s ↔ Q s s := Iff.rfl

@[simp] theorem wp_set {Q : PUnit → σ → Prop} (t : σ) : wp (set t : EStateM ε σ PUnit) E Q s ↔ Q ⟨⟩ t := Iff.rfl

@[simp] theorem wp_modify {Q : PUnit → σ → Prop} (f : σ → σ) :
    wp (modify f : EStateM ε σ PUnit) E Q s ↔ Q ⟨⟩ (f s) := Iff.rfl

/-- What is caught keeps the state it was thrown in. -/
@[simp] theorem wp_tryCatch (m : EStateM ε σ α) (h : ε → EStateM ε σ α) :
    wp (tryCatch m h) E Q s ↔ wp m (fun e s' => wp (h e) E Q s') Q s := by
  show (match EStateM.tryCatch m h s with | .ok a s' => Q a s' | .error e s' => E e s') ↔ _
  unfold wp EStateM.tryCatch
  cases m s <;> rfl

@[simp] theorem wp_ite {c : Prop} [Decidable c] (m m' : EStateM ε σ α) :
    wp (if c then m else m') E Q s ↔ (c → wp m E Q s) ∧ (¬ c → wp m' E Q s) := by
  by_cases h : c <;> simp [h]

/-- A loop over a list: `I` speaks of the elements still to come. -/
theorem wp_forM {γ : Type} {f : γ → EStateM ε σ PUnit} {I : List γ → σ → Prop}
    (hstep : ∀ x xs s, I (x :: xs) s → wp (f x) E (fun _ s' => I xs s') s) :
    ∀ (l : List γ) (s : σ), I l s → wp (l.forM f) E (fun _ s' => I [] s') s := by
  intro l
  induction l with
  | nil => intro s h; exact h
  | cons x xs ih =>
    intro s h
    show wp (f x >>= fun _ => xs.forM f) E _ s
    rw [wp_bind]
    exact wp_post (hstep x xs s h) fun _ s' hs' => ih s' hs'

/-- A loop of tests, each of which leaves the state as it is. -/
theorem wp_forM_test {γ : Type} {f : γ → EStateM ε σ PUnit} {P : γ → Prop} : ∀ {l : List γ},
    (∀ x ∈ l, wp (f x) (fun _ s' => s' = s ∧ ¬ P x) (fun _ s' => s' = s ∧ P x) s) →
    wp (l.forM f) (fun _ s' => s' = s ∧ ∃ x ∈ l, ¬ P x) (fun _ s' => s' = s ∧ ∀ x ∈ l, P x) s
  | [], _ => ⟨rfl, fun _ hmem => absurd hmem List.not_mem_nil⟩
  | x :: l, h => by
    have ih := @wp_forM_test γ f P l fun y hy => h y (List.mem_cons_of_mem _ hy)
    show wp (f x >>= fun _ => l.forM f) _ _ s
    rw [wp_bind]
    refine wp_mono (h x List.mem_cons_self) (fun _ s' hs => ?_) fun _ s' hs => ⟨hs.1, x, List.mem_cons_self, hs.2⟩
    obtain ⟨rfl, hx⟩ := hs
    refine wp_mono ih (fun _ s'' h' => ⟨h'.1, fun y hy => ?_⟩) fun _ s'' h' => ⟨h'.1, ?_⟩
    · rcases List.mem_cons.1 hy with rfl | hy
      · exact hx
      · exact h'.2 y hy
    · obtain ⟨y, hy, hno⟩ := h'.2
      exact ⟨y, List.mem_cons_of_mem _ hy, hno⟩

/-! ### Invariants -/

/-- The code keeps an invariant of the state. -/
def Upholds (I : σ → Prop) (m : EStateM ε σ α) : Prop := ∀ s, I s → wp m (fun _ s' => I s') (fun _ s' => I s') s

namespace Upholds

variable {I : σ → Prop}

theorem bind {m : EStateM ε σ β} {f : β → EStateM ε σ α} (hm : Upholds I m) (hf : ∀ b, Upholds I (f b)) : Upholds I (m >>= f) := by
  intro s hs
  rw [wp_bind]
  exact wp_post (hm s hs) fun b s' hs' => hf b s' hs'

theorem pure (a : α) : Upholds I (Pure.pure a : EStateM ε σ α) := fun _ hs => hs

theorem throw (e : ε) : Upholds I (MonadExcept.throw e : EStateM ε σ α) := fun _ hs => hs

theorem get : Upholds I (MonadState.get : EStateM ε σ σ) := fun _ hs => hs

theorem liftE (x : Except ε α) : Upholds I (liftE x : EStateM ε σ α) := by
  intro s hs
  exact wp_liftE (fun _ _ => hs) fun _ _ => hs

theorem modify {f : σ → σ} (hf : ∀ s, I s → I (f s)) : Upholds I (modify f : EStateM ε σ PUnit) := fun s hs => hf s hs

theorem ite {c : Prop} [Decidable c] {m m' : EStateM ε σ α} (hm : c → Upholds I m) (hm' : ¬ c → Upholds I m') : Upholds I (if c then m else m') := by
  by_cases hc : c
  · rw [if_pos hc]
    exact hm hc
  · rw [if_neg hc]
    exact hm' hc

theorem forM {γ : Type} {f : γ → EStateM ε σ PUnit} : ∀ {l : List γ}, (∀ x ∈ l, Upholds I (f x)) → Upholds I (l.forM f)
  | [], _ => pure _
  | x :: _, h => bind (h x List.mem_cons_self) fun _ => forM fun y hy => h y (List.mem_cons_of_mem _ hy)

end Upholds

end Eff
