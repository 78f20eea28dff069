import Mathlib.Data.Multiset.Bind
import Mathlib.Algebra.Order.Ring.Nat
import Mathlib.Tactic.Abel

/-!
# Outer joins of multisets

The pairs of two multisets that a relation holds of, and the elements of either side without a partner.

* `output_cons_left`, `output_cons_right`: a join that keeps one side at most is built element by element.
* `output_inj`: **a join whose pairs can be told apart, from one another and from the padded rows, determines its relation.**
-/

namespace OuterJoin

variable {α β γ : Type} (p : α → β → Bool) (pair : α → β → γ) (padLeft : β → γ) (padRight : α → γ)

/-- Each pair, as often as it is there. -/
def inner (L : Multiset α) (R : Multiset β) : Multiset γ := L.bind fun a => R.bind fun b => if p a b then {pair a b} else 0

def lonelyLeft (L : Multiset α) (R : Multiset β) : Multiset α := L.filter fun a => ∀ b ∈ R, p a b = false

def lonelyRight (L : Multiset α) (R : Multiset β) : Multiset β := R.filter fun b => ∀ a ∈ L, p a b = false

/-- The pairs, and where it is asked for the rest of a side, padded. -/
def output (keepLeft keepRight : Bool) (L : Multiset α) (R : Multiset β) : Multiset γ :=
  inner p pair L R + (if keepLeft then (lonelyLeft p L R).map padRight else 0) +
    (if keepRight then (lonelyRight p L R).map padLeft else 0)

variable {p pair padLeft padRight} {q : α → β → Bool} {L : Multiset α} {R : Multiset β} {a : α} {b : β} {keepLeft keepRight : Bool}

theorem bind_if (s : Multiset β) (f : β → Bool) (g : β → γ) :
    (s.bind fun b => if f b then {g b} else 0) = (s.filter fun b => f b = true).map g := by
  induction s using Multiset.induction_on with
  | empty => rfl
  | cons b s ih =>
    rw [Multiset.cons_bind, ih]
    by_cases hb : f b = true
    · rw [if_pos hb, Multiset.filter_cons_of_pos (p := fun b => f b = true) s hb, Multiset.map_cons, Multiset.singleton_add]
    · rw [if_neg hb, Multiset.filter_cons_of_neg (p := fun b => f b = true) s hb, zero_add]

theorem inner_cons_left : inner p pair (a ::ₘ L) R = (R.filter fun b => p a b = true).map (pair a) + inner p pair L R := by
  unfold inner
  rw [Multiset.cons_bind, bind_if R (p a)]

theorem inner_cons_right :
    inner p pair L (b ::ₘ R) = (L.filter fun a => p a b = true).map (fun a => pair a b) + inner p pair L R := by
  unfold inner
  rw [Multiset.bind_bind, Multiset.cons_bind, Multiset.bind_bind R L, bind_if L fun a => p a b]

/-- An element of the left side: its pairs, or itself. -/
theorem output_cons_left : output p pair padLeft padRight keepLeft false (a ::ₘ L) R =
    ((R.filter fun b => p a b = true).map (pair a) + if keepLeft ∧ ∀ b ∈ R, p a b = false then {padRight a} else 0) +
      output p pair padLeft padRight keepLeft false L R := by
  unfold output
  rw [inner_cons_left]
  cases keepLeft with
  | false => simp only [Bool.false_eq_true, false_and, if_false, add_zero]
  | true =>
    by_cases h : ∀ b ∈ R, p a b = false
    · have hlonely : lonelyLeft p (a ::ₘ L) R = a ::ₘ lonelyLeft p L R := Multiset.filter_cons_of_pos _ h
      rw [hlonely, Multiset.map_cons, ← Multiset.singleton_add (padRight a)]
      simp only [if_true, true_and, if_pos h, Bool.false_eq_true, if_false]
      abel
    · have hlonely : lonelyLeft p (a ::ₘ L) R = lonelyLeft p L R := Multiset.filter_cons_of_neg _ h
      simp only [hlonely, if_true, true_and, if_neg h, add_zero, Bool.false_eq_true, if_false, add_assoc]

theorem output_cons_right : output p pair padLeft padRight false keepRight L (b ::ₘ R) =
    ((L.filter fun a => p a b = true).map (fun a => pair a b) + if keepRight ∧ ∀ a ∈ L, p a b = false then {padLeft b} else 0) +
      output p pair padLeft padRight false keepRight L R := by
  unfold output
  rw [inner_cons_right]
  cases keepRight with
  | false => simp only [Bool.false_eq_true, false_and, if_false, add_zero]
  | true =>
    by_cases h : ∀ a ∈ L, p a b = false
    · have hlonely : lonelyRight p L (b ::ₘ R) = b ::ₘ lonelyRight p L R := Multiset.filter_cons_of_pos _ h
      rw [hlonely, Multiset.map_cons, ← Multiset.singleton_add (padLeft b)]
      simp only [if_true, true_and, if_pos h, Bool.false_eq_true, if_false]
      abel
    · have hlonely : lonelyRight p L (b ::ₘ R) = lonelyRight p L R := Multiset.filter_cons_of_neg _ h
      simp only [hlonely, if_true, true_and, if_neg h, add_zero, Bool.false_eq_true, if_false, add_assoc]

theorem output_zero_left : output p pair padLeft padRight keepLeft false 0 R = 0 := by
  cases keepLeft <;> rfl

theorem output_zero_right : output p pair padLeft padRight false keepRight L 0 = 0 := by
  unfold output inner lonelyRight
  cases keepRight <;> simp

theorem mem_inner {c : γ} : c ∈ inner p pair L R ↔ ∃ a ∈ L, ∃ b ∈ R, p a b = true ∧ pair a b = c := by
  unfold inner
  simp only [Multiset.mem_bind]
  constructor
  · rintro ⟨a, ha, b, hb, hc⟩
    split at hc
    · rename_i hp
      exact ⟨a, ha, b, hb, hp, (Multiset.mem_singleton.1 hc).symm⟩
    · exact absurd hc (Multiset.notMem_zero c)
  · rintro ⟨a, ha, b, hb, hp, rfl⟩
    refine ⟨a, ha, b, hb, ?_⟩
    rw [if_pos hp]
    exact Multiset.mem_singleton_self _

theorem output_congr (h : ∀ a ∈ L, ∀ b ∈ R, p a b = q a b) :
    output p pair padLeft padRight keepLeft keepRight L R = output q pair padLeft padRight keepLeft keepRight L R := by
  have hinner : inner p pair L R = inner q pair L R :=
    Multiset.bind_congr fun a ha => Multiset.bind_congr fun b hb => by rw [h a ha b hb]
  have hleft : lonelyLeft p L R = lonelyLeft q L R :=
    Multiset.filter_congr fun a ha => forall₂_congr fun b hb => by rw [h a ha b hb]
  have hright : lonelyRight p L R = lonelyRight q L R :=
    Multiset.filter_congr fun b hb => forall₂_congr fun a ha => by rw [h a ha b hb]
  unfold output
  rw [hinner, hleft, hright]

/-- A pair that is not one of the padded rows shows whether it was joined. -/
theorem pair_mem_output (hpair : ∀ a ∈ L, ∀ b ∈ R, ∀ a' ∈ L, ∀ b' ∈ R, pair a b = pair a' b' → a = a' ∧ b = b')
    (hleft : ∀ a ∈ L, ∀ b ∈ R, ∀ a' ∈ L, pair a b ≠ padRight a') (hright : ∀ a ∈ L, ∀ b ∈ R, ∀ b' ∈ R, pair a b ≠ padLeft b')
    (ha : a ∈ L) (hb : b ∈ R) : pair a b ∈ output p pair padLeft padRight keepLeft keepRight L R ↔ p a b = true := by
  have hl : pair a b ∉ (if keepLeft then (lonelyLeft p L R).map padRight else 0) := by
    split
    · rintro hm
      obtain ⟨a', ha', he⟩ := Multiset.mem_map.1 hm
      exact hleft a ha b hb a' (Multiset.mem_of_mem_filter ha') he.symm
    · exact Multiset.notMem_zero _
  have hr : pair a b ∉ (if keepRight then (lonelyRight p L R).map padLeft else 0) := by
    split
    · rintro hm
      obtain ⟨b', hb', he⟩ := Multiset.mem_map.1 hm
      exact hright a ha b hb b' (Multiset.mem_of_mem_filter hb') he.symm
    · exact Multiset.notMem_zero _
  unfold output
  rw [Multiset.mem_add, Multiset.mem_add, or_iff_left hr, or_iff_left hl, mem_inner]
  constructor
  · rintro ⟨a', ha', b', hb', hp, he⟩
    obtain ⟨rfl, rfl⟩ := hpair a' ha' b' hb' a ha b hb he
    exact hp
  · exact fun hp => ⟨a, ha, b, hb, hp, rfl⟩

theorem output_inj (hpair : ∀ a ∈ L, ∀ b ∈ R, ∀ a' ∈ L, ∀ b' ∈ R, pair a b = pair a' b' → a = a' ∧ b = b')
    (hleft : ∀ a ∈ L, ∀ b ∈ R, ∀ a' ∈ L, pair a b ≠ padRight a') (hright : ∀ a ∈ L, ∀ b ∈ R, ∀ b' ∈ R, pair a b ≠ padLeft b') :
    output p pair padLeft padRight keepLeft keepRight L R = output q pair padLeft padRight keepLeft keepRight L R ↔
      ∀ a ∈ L, ∀ b ∈ R, p a b = q a b := by
  refine ⟨fun h a ha b hb => Bool.eq_iff_iff.2 ?_, output_congr⟩
  rw [← pair_mem_output hpair hleft hright ha hb, h, pair_mem_output hpair hleft hright ha hb]

end OuterJoin
