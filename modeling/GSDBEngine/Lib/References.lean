import Mathlib.Data.Set.Basic

/-!
# References that are met

Things of a set ask for others: `asks a i` is a demand, and `meets a i b` says that `b` is what it asks for. The set is closed if
every demand is met in it.

* `Met.replace`: some are taken out and others put in, all at once.
* `Met.shrink`: **what is taken out was not asked for** by what stays.
-/

namespace References

variable {α ι : Type} {asks : α → ι → Prop} {meets : α → ι → α → Prop} {S S' M T : Set α}

/-- Every demand is met in the set. -/
def Met (asks : α → ι → Prop) (meets : α → ι → α → Prop) (S : Set α) : Prop := ∀ a ∈ S, ∀ i, asks a i → ∃ b ∈ S, meets a i b

theorem Met.empty : Met asks meets (∅ : Set α) := fun _ h => h.elim

/-- What is put in finds what it asks for, and whoever asked for what is taken out finds it, or another one. -/
theorem Met.replace (h : Met asks meets S) (hnew : ∀ a ∈ T, ∀ i, asks a i → ∃ b ∈ (S \ M) ∪ T, meets a i b)
    (hkept : ∀ a ∈ S \ M, ∀ i, asks a i → ∀ b ∈ S, b ∈ M → meets a i b → ∃ b' ∈ (S \ M) ∪ T, meets a i b') :
    Met asks meets ((S \ M) ∪ T) := by
  intro a ha i hi
  rcases ha with ha | ha
  · obtain ⟨b, hb, hmeets⟩ := h a ha.1 i hi
    by_cases hM : b ∈ M
    · exact hkept a ha i hi b hb hM hmeets
    · exact ⟨b, Or.inl ⟨hb, hM⟩, hmeets⟩
  · exact hnew a ha i hi

/-- **Nothing that is asked for is taken out.** -/
theorem Met.shrink (h : Met asks meets S) (hs : S' ⊆ S) (hclosed : ∀ a ∈ S', ∀ i, asks a i → ∀ b ∈ S, meets a i b → b ∈ S') :
    Met asks meets S' := by
  intro a ha i hi
  obtain ⟨b, hb, hmeets⟩ := h a (hs ha) i hi
  exact ⟨b, hclosed a ha i hi b hb hmeets, hmeets⟩

end References
