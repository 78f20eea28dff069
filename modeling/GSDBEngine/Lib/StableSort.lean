import Mathlib.Data.List.Perm.Basic
import Mathlib.Algebra.Order.Ring.Nat
import Mathlib.Tactic.Common

/-!
# Stable sorting

Elements are placed one by one, the last of the list first, each before those that are not smaller.

* `StableSort.sort_perm`, `StableSort.sort_filter`: the same elements, and **those that are not smaller than each other in the order
  they had**.
* `StableSort.sort_sorted`: where the comparison is a strict weak order of the elements, **none is behind a larger one**.
-/

namespace StableSort

variable {α : Type} {less : α → α → Bool} {a b c : α} {l : List α}

/-- What a sort asks of a comparison, for the elements of a list. -/
structure StrictWeak (less : α → α → Bool) (l : List α) : Prop where
  irrefl : ∀ a ∈ l, less a a = false
  trans : ∀ a ∈ l, ∀ b ∈ l, ∀ c ∈ l, less a b = true → less b c = true → less a c = true
  /-- being neither smaller nor larger carries over -/
  incomp : ∀ a ∈ l, ∀ b ∈ l, ∀ c ∈ l, less a b = false → less b a = false → less b c = false → less c b = false → less a c = false

namespace StrictWeak

theorem asymm (h : StrictWeak less l) (ha : a ∈ l) (hb : b ∈ l) (hab : less a b = true) : less b a = false := by
  by_contra hba
  rw [Bool.not_eq_false] at hba
  have haa := h.trans a ha b hb a ha hab hba
  rw [h.irrefl a ha] at haa
  cases haa

theorem not_less_trans (h : StrictWeak less l) (ha : a ∈ l) (hb : b ∈ l) (hc : c ∈ l) (hab : less a b = false)
    (hbc : less b c = false) : less a c = false := by
  by_contra hac
  rw [Bool.not_eq_false] at hac
  have hba : less b a = false := by
    by_contra hba
    rw [Bool.not_eq_false] at hba
    rw [h.trans b hb a ha c hc hba hac] at hbc
    cases hbc
  have hcb : less c b = false := by
    by_contra hcb
    rw [Bool.not_eq_false] at hcb
    rw [h.trans a ha c hc b hb hac hcb] at hab
    cases hab
  rw [h.incomp a ha b hb c hc hab hba hbc hcb] at hac
  cases hac

/-- The order of a rank. -/
theorem of_rank {β : Type} [LinearOrder β] (rank : α → β) (h : ∀ a ∈ l, ∀ b ∈ l, less a b = true ↔ rank a < rank b) :
    StrictWeak less l := by
  have hnot : ∀ a ∈ l, ∀ b ∈ l, less a b = false ↔ rank b ≤ rank a := fun a ha b hb => by
    rw [← Bool.not_eq_true, h a ha b hb, not_lt]
  refine ⟨fun a ha => (hnot a ha a ha).2 le_rfl, fun a ha b hb c hc hab hbc => ?_, fun a ha b hb c hc hab _ hbc _ => ?_⟩
  · exact (h a ha c hc).2 (((h a ha b hb).1 hab).trans ((h b hb c hc).1 hbc))
  · exact (hnot a ha c hc).2 (((hnot b hb c hc).1 hbc).trans ((hnot a ha b hb).1 hab))

/-- Elements compared by a key. -/
theorem comap {β : Type} {less : β → β → Bool} {key : α → β} (h : StrictWeak less (l.map key)) :
    StrictWeak (fun a b => less (key a) (key b)) l where
  irrefl _ ha := h.irrefl _ (List.mem_map_of_mem ha)
  trans _ ha _ hb _ hc := h.trans _ (List.mem_map_of_mem ha) _ (List.mem_map_of_mem hb) _ (List.mem_map_of_mem hc)
  incomp _ ha _ hb _ hc := h.incomp _ (List.mem_map_of_mem ha) _ (List.mem_map_of_mem hb) _ (List.mem_map_of_mem hc)

end StrictWeak

/-- Before the first element that is not smaller. -/
def place (less : α → α → Bool) (a : α) : List α → List α
  | [] => [a]
  | b :: l => if less b a then b :: place less a l else a :: b :: l

def sort (less : α → α → Bool) (l : List α) : List α := l.foldr (place less) []

theorem place_perm (l : List α) : (place less a l).Perm (a :: l) := by
  induction l with
  | nil => exact List.Perm.refl _
  | cons b l ih =>
    unfold place
    split
    · exact (ih.cons b).trans (List.Perm.swap a b l)
    · exact List.Perm.refl _

theorem sort_perm (l : List α) : (sort less l).Perm l := by
  induction l with
  | nil => exact List.Perm.refl _
  | cons a l ih => exact (place_perm _).trans (ih.cons a)

theorem place_sorted {L : List α} (h : StrictWeak less L) (ha : a ∈ L) (hl : ∀ b ∈ l, b ∈ L)
    (hs : l.Pairwise fun a b => less b a = false) : (place less a l).Pairwise fun a b => less b a = false := by
  induction l with
  | nil => exact List.pairwise_singleton _ _
  | cons b l ih =>
    obtain ⟨hb, hs'⟩ := List.pairwise_cons.1 hs
    have hbL := hl b List.mem_cons_self
    have hl' : ∀ c ∈ l, c ∈ L := fun c hc => hl c (List.mem_cons_of_mem _ hc)
    unfold place
    split
    · rename_i hba
      refine List.pairwise_cons.2 ⟨fun c hc => ?_, ih hl' hs'⟩
      rcases List.mem_cons.1 ((place_perm l).subset hc) with rfl | hc
      · exact h.asymm hbL ha hba
      · exact hb c hc
    · rename_i hba
      rw [Bool.not_eq_true] at hba
      refine List.pairwise_cons.2 ⟨fun c hc => ?_, hs⟩
      rcases List.mem_cons.1 hc with rfl | hc
      · exact hba
      · exact h.not_less_trans (hl' c hc) hbL ha (hb c hc) hba

/-- **Sorted**: no element is behind a larger one. -/
theorem sort_sorted (h : StrictWeak less l) : (sort less l).Pairwise fun a b => less b a = false := by
  suffices hsub : ∀ l', (∀ a ∈ l', a ∈ l) → (sort less l').Pairwise fun a b => less b a = false from hsub l fun _ ha => ha
  intro l' hl'
  induction l' with
  | nil => exact List.Pairwise.nil
  | cons a l' ih =>
    refine place_sorted h (hl' a List.mem_cons_self) (fun b hb => ?_) (ih fun b hb => hl' b (List.mem_cons_of_mem _ hb))
    exact hl' b (List.mem_cons_of_mem _ ((sort_perm l').subset hb))

theorem place_filter {p : α → Bool} (hp : ∀ b ∈ l, p a = true → p b = true → less b a = false) :
    (place less a l).filter p = (a :: l).filter p := by
  induction l with
  | nil => rfl
  | cons b l ih =>
    have ih := ih fun c hc => hp c (List.mem_cons_of_mem _ hc)
    unfold place
    split
    · rename_i hba
      -- `a` goes behind `b`, so one of the two is not asked for
      rw [List.filter_cons, ih]
      by_cases ha : p a = true
      · have hb : p b = false := by
          by_contra hb
          rw [Bool.not_eq_false] at hb
          rw [hp b List.mem_cons_self ha hb] at hba
          cases hba
        simp [List.filter_cons, hb]
      · simp [List.filter_cons, ha]
    · rfl

/-- **Stable**: elements none of which is smaller than another stay in the order they had. -/
theorem sort_filter {p : α → Bool} (hp : ∀ a ∈ l, ∀ b ∈ l, p a = true → p b = true → less a b = false) :
    (sort less l).filter p = l.filter p := by
  induction l with
  | nil => rfl
  | cons a l ih =>
    have ih := ih fun b hb c hc => hp b (List.mem_cons_of_mem _ hb) c (List.mem_cons_of_mem _ hc)
    have hplace : (place less a (sort less l)).filter p = (a :: sort less l).filter p :=
      place_filter fun b hb hpa hpb =>
        hp b (List.mem_cons_of_mem _ ((sort_perm l).subset hb)) a List.mem_cons_self hpb hpa
    show (place less a (sort less l)).filter p = _
    rw [hplace, List.filter_cons, ih, List.filter_cons]

/-! ### Two lists -/

section related

variable {β : Type} {R : α → β → Prop} {less' : β → β → Bool} {l' : List β}

theorem place_forall₂ (h : ∀ a b a' b', R a a' → R b b' → less a b = less' a' b') {a' : β} (ha : R a a') (hl : List.Forall₂ R l l') :
    List.Forall₂ R (place less a l) (place less' a' l') := by
  induction hl with
  | nil => exact .cons ha .nil
  | @cons b b' l l' hb hrest ih =>
    unfold place
    rw [h b a b' a' hb ha]
    split
    · exact .cons hb ih
    · exact .cons ha (.cons hb hrest)

/-- Lists that are related, and compare alike, are sorted alike. -/
theorem sort_forall₂ (h : ∀ a b a' b', R a a' → R b b' → less a b = less' a' b') (hl : List.Forall₂ R l l') :
    List.Forall₂ R (sort less l) (sort less' l') := by
  induction hl with
  | nil => exact .nil
  | cons ha _ ih => exact place_forall₂ h ha ih

end related

end StableSort
