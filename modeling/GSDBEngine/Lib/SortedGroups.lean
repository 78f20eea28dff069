import Mathlib.Data.List.Induction
import Mathlib.Data.List.Perm.Basic
import Mathlib.Order.Defs.LinearOrder
import Mathlib.Algebra.Order.Ring.Nat
import Mathlib.Tactic.Common

/-!
# Groups in the order of their keys

A map from keys to lists, as a list in ascending order of the keys. An element goes behind the others of its key.

* `group_perm`: every element is in one group, as often as it was there.
* `groups_group`: **the groups are the classes of equal keys**, each of them in the order of the list.
-/

namespace SortedGroups

variable {κ α β : Type} [LinearOrder β] {rank : κ → β} {less : κ → κ → Bool} {key : κ} {a : α} {l : List (κ × α)}
  {groups : List (κ × List α)}

/-- An element under its key. -/
def push (less : κ → κ → Bool) (key : κ) (a : α) : List (κ × List α) → List (κ × List α)
  | [] => [(key, [a])]
  | (k, as) :: groups =>
    if less key k then (key, [a]) :: (k, as) :: groups
    else if less k key then (k, as) :: push less key a groups
    else (k, as ++ [a]) :: groups

def group (less : κ → κ → Bool) (l : List (κ × α)) : List (κ × List α) := l.foldl (fun groups x => push less x.1 x.2 groups) []

/-! ### The elements -/

theorem push_perm : ((push less key a groups).flatMap Prod.snd).Perm (groups.flatMap Prod.snd ++ [a]) := by
  induction groups with
  | nil => exact List.Perm.refl _
  | cons g groups ih =>
    obtain ⟨k, as⟩ := g
    unfold push
    split
    · exact (List.perm_append_singleton a _).symm
    · split
      · rw [List.flatMap_cons, List.flatMap_cons, List.append_assoc]
        exact ih.append_left as
      · rw [List.flatMap_cons, List.flatMap_cons, List.append_assoc, List.append_assoc]
        exact List.perm_append_comm.append_left as

theorem group_perm : ((group less l).flatMap Prod.snd).Perm (l.map Prod.snd) := by
  induction l using List.reverseRecOn with
  | nil => exact List.Perm.refl _
  | append_singleton l x ih =>
    have hstep : group less (l ++ [x]) = push less x.1 x.2 (group less l) := List.foldl_append
    rw [hstep, List.map_append]
    exact push_perm.trans (ih.append_right _)

/-! ### The classes -/

/-- The comparison is the order of the ranks, for keys that satisfy `P`. -/
def Ranked (rank : κ → β) (less : κ → κ → Bool) (P : κ → Prop) : Prop := ∀ k k', P k → P k' → (less k k' = true ↔ rank k < rank k')

/-- **Groups of a list**: each is the part of the list that has its key. -/
structure Groups (rank : κ → β) (l : List (κ × α)) (groups : List (κ × List α)) : Prop where
  sorted : groups.Pairwise fun g g' => rank g.1 < rank g'.1
  rows : ∀ g ∈ groups, g.2 = (l.filter fun x => rank x.1 = rank g.1).map Prod.snd
  nonempty : ∀ g ∈ groups, g.2 ≠ []
  keys : ∀ g ∈ groups, ∃ x ∈ l, x.1 = g.1
  all : ∀ x ∈ l, ∃ g ∈ groups, rank x.1 = rank g.1

/-- An element is in the group of its key. -/
theorem Groups.mem_iff (h : Groups rank l groups) {g : κ × List α} (hg : g ∈ groups) : a ∈ g.2 ↔ ∃ x ∈ l, x.2 = a ∧ rank x.1 = rank g.1 := by
  rw [h.rows g hg, List.mem_map]
  constructor
  · rintro ⟨x, hx, rfl⟩
    obtain ⟨hx, hrank⟩ := List.mem_filter.1 hx
    exact ⟨x, hx, rfl, of_decide_eq_true hrank⟩
  · rintro ⟨x, hx, rfl, hrank⟩
    exact ⟨x, List.mem_filter.2 ⟨hx, decide_eq_true hrank⟩, rfl⟩

/-- What `push` does to groups in order. -/
structure Pushed (rank : κ → β) (key : κ) (a : α) (groups groups' : List (κ × List α)) : Prop where
  sorted : groups'.Pairwise fun g g' => rank g.1 < rank g'.1
  cases : ∀ g ∈ groups', g ∈ groups ∧ rank g.1 ≠ rank key ∨ (∃ as, (g.1, as) ∈ groups ∧ rank g.1 = rank key ∧ g.2 = as ++ [a]) ∨
    g = (key, [a]) ∧ ∀ g' ∈ groups, rank g'.1 ≠ rank key
  keeps : ∀ g ∈ groups, ∃ g' ∈ groups', rank g.1 = rank g'.1
  has : ∃ g ∈ groups', rank key = rank g.1

/-- The keys of what is pushed below a bound are below it. -/
theorem Pushed.below {groups' : List (κ × List α)} {b : β} (h : Pushed rank key a groups groups') (hkey : b < rank key)
    (hall : ∀ g ∈ groups, b < rank g.1) : ∀ g ∈ groups', b < rank g.1 := by
  intro g hg
  rcases h.cases g hg with ⟨hold, -⟩ | ⟨as, hold, -, -⟩ | ⟨rfl, -⟩
  · exact hall g hold
  · exact hall (g.1, as) hold
  · exact hkey

theorem push_spec {P : κ → Prop} (hless : Ranked rank less P) (hkey : P key) (hP : ∀ g ∈ groups, P g.1)
    (hs : groups.Pairwise fun g g' => rank g.1 < rank g'.1) : Pushed rank key a groups (push less key a groups) := by
  induction groups with
  | nil =>
    refine ⟨List.pairwise_singleton _ _, fun g hg => .inr (.inr ⟨List.mem_singleton.1 hg, fun g' hg' => ?_⟩), fun g hg => ?_, ?_⟩
    · exact absurd hg' List.not_mem_nil
    · exact absurd hg List.not_mem_nil
    · exact ⟨(key, [a]), List.mem_singleton.2 rfl, rfl⟩
  | cons g groups ih =>
    obtain ⟨k, as⟩ := g
    obtain ⟨hfirst, hs'⟩ := List.pairwise_cons.1 hs
    have hk : P k := hP (k, as) List.mem_cons_self
    have ih := ih (fun g hg => hP g (List.mem_cons_of_mem _ hg)) hs'
    unfold push
    split
    · -- before the first group
      rename_i hlt
      rw [hless key k hkey hk] at hlt
      have hbelow : ∀ g ∈ (k, as) :: groups, rank key < rank g.1 := by
        intro g hg
        rcases List.mem_cons.1 hg with rfl | hg
        · exact hlt
        · exact hlt.trans (hfirst g hg)
      refine ⟨List.pairwise_cons.2 ⟨hbelow, hs⟩, fun g hg => ?_, fun g hg => ⟨g, List.mem_cons_of_mem _ hg, rfl⟩,
        ⟨(key, [a]), List.mem_cons_self, rfl⟩⟩
      rcases List.mem_cons.1 hg with rfl | hg
      · exact .inr (.inr ⟨rfl, fun g' hg' => (hbelow g' hg').ne'⟩)
      · exact .inl ⟨hg, (hbelow g hg).ne'⟩
    · rename_i hlt
      rw [hless key k hkey hk, not_lt] at hlt
      split
      · -- behind it
        rename_i hgt
        rw [hless k key hk hkey] at hgt
        refine ⟨List.pairwise_cons.2 ⟨ih.below hgt hfirst, ih.sorted⟩, fun g hg => ?_, fun g hg => ?_, ?_⟩
        · rcases List.mem_cons.1 hg with rfl | hg
          · exact .inl ⟨List.mem_cons_self, hgt.ne⟩
          · rcases ih.cases g hg with ⟨hold, hne⟩ | ⟨bs, hold, heq, hbs⟩ | ⟨rfl, hnew⟩
            · exact .inl ⟨List.mem_cons_of_mem _ hold, hne⟩
            · exact .inr (.inl ⟨bs, List.mem_cons_of_mem _ hold, heq, hbs⟩)
            · refine .inr (.inr ⟨rfl, fun g' hg' => ?_⟩)
              rcases List.mem_cons.1 hg' with rfl | hg'
              · exact hgt.ne
              · exact hnew g' hg'
        · rcases List.mem_cons.1 hg with rfl | hg
          · exact ⟨(k, as), List.mem_cons_self, rfl⟩
          · obtain ⟨g', hg', heq⟩ := ih.keeps g hg
            exact ⟨g', List.mem_cons_of_mem _ hg', heq⟩
        · obtain ⟨g', hg', heq⟩ := ih.has
          exact ⟨g', List.mem_cons_of_mem _ hg', heq⟩
      · -- in it
        rename_i hgt
        rw [hless k key hk hkey, not_lt] at hgt
        have heq : rank k = rank key := le_antisymm hlt hgt
        refine ⟨List.pairwise_cons.2 ⟨hfirst, hs'⟩, fun g hg => ?_, fun g hg => ?_, ⟨(k, as ++ [a]), List.mem_cons_self, heq.symm⟩⟩
        · rcases List.mem_cons.1 hg with rfl | hg
          · exact .inr (.inl ⟨as, List.mem_cons_self, heq, rfl⟩)
          · exact .inl ⟨List.mem_cons_of_mem _ hg, by rw [← heq]; exact (hfirst g hg).ne'⟩
        · rcases List.mem_cons.1 hg with rfl | hg
          · exact ⟨(k, as ++ [a]), List.mem_cons_self, rfl⟩
          · exact ⟨g, List.mem_cons_of_mem _ hg, rfl⟩

/-- One element more. -/
theorem Groups.push {P : κ → Prop} (hless : Ranked rank less P) (hkey : P key) (hP : ∀ x ∈ l, P x.1) (h : Groups rank l groups) :
    Groups rank (l ++ [(key, a)]) (push less key a groups) := by
  have hgP : ∀ g ∈ groups, P g.1 := by
    intro g hg
    obtain ⟨x, hx, heq⟩ := h.keys g hg
    rw [← heq]
    exact hP x hx
  have hpush : Pushed rank key a groups (SortedGroups.push less key a groups) := push_spec hless hkey hgP h.sorted
  have hfilter : ∀ b : β, (((l ++ [(key, a)]).filter fun x => rank x.1 = b).map Prod.snd) =
      ((l.filter fun x => rank x.1 = b).map Prod.snd) ++ if rank key = b then [a] else [] := by
    intro b
    rw [List.filter_append, List.map_append]
    congr 1
    by_cases hb : rank key = b <;> simp [hb]
  refine ⟨hpush.sorted, fun g hg => ?_, fun g hg => ?_, fun g hg => ?_, fun x hx => ?_⟩
  · rw [hfilter]
    rcases hpush.cases g hg with ⟨hold, hne⟩ | ⟨as, hold, heq, has⟩ | ⟨rfl, hnew⟩
    · rw [if_neg (Ne.symm hne), List.append_nil]
      exact h.rows g hold
    · have hrows : as = _ := h.rows _ hold
      rw [if_pos heq.symm, has, hrows]
    · -- none of the list has the key
      have hnone : (l.filter fun x => rank x.1 = rank key) = [] := by
        rw [List.filter_eq_nil_iff]
        intro x hx heq
        obtain ⟨g, hg, hxg⟩ := h.all x hx
        exact hnew g hg (hxg.symm.trans (of_decide_eq_true heq))
      dsimp only
      rw [hnone, if_pos rfl]
      rfl
  · rcases hpush.cases g hg with ⟨hold, -⟩ | ⟨as, -, -, has⟩ | ⟨rfl, -⟩
    · exact h.nonempty g hold
    · rw [has]
      exact List.append_ne_nil_of_right_ne_nil _ (List.cons_ne_nil _ _)
    · exact List.cons_ne_nil _ _
  · rcases hpush.cases g hg with ⟨hold, -⟩ | ⟨as, hold, -, -⟩ | ⟨rfl, -⟩
    · obtain ⟨x, hx, heq⟩ := h.keys g hold
      exact ⟨x, List.mem_append_left _ hx, heq⟩
    · obtain ⟨x, hx, heq⟩ := h.keys _ hold
      exact ⟨x, List.mem_append_left _ hx, heq⟩
    · exact ⟨(key, a), List.mem_append_right _ (List.mem_singleton.2 rfl), rfl⟩
  · rcases List.mem_append.1 hx with hx | hx
    · obtain ⟨g, hg, heq⟩ := h.all x hx
      obtain ⟨g', hg', heq'⟩ := hpush.keeps g hg
      exact ⟨g', hg', heq.trans heq'⟩
    · obtain rfl := List.mem_singleton.1 hx
      exact hpush.has

theorem groups_group {P : κ → Prop} (hless : Ranked rank less P) (hP : ∀ x ∈ l, P x.1) : Groups rank l (group less l) := by
  induction l using List.reverseRecOn with
  | nil =>
    exact ⟨List.Pairwise.nil, fun g hg => absurd hg List.not_mem_nil, fun g hg => absurd hg List.not_mem_nil,
      fun g hg => absurd hg List.not_mem_nil, fun x hx => absurd hx List.not_mem_nil⟩
  | append_singleton l x ih =>
    have hP' : ∀ y ∈ l, P y.1 := fun y hy => hP y (List.mem_append_left _ hy)
    have hstep : group less (l ++ [x]) = push less x.1 x.2 (group less l) := List.foldl_append
    rw [hstep]
    exact (ih hP').push hless (hP x (List.mem_append_right _ (List.mem_singleton.2 rfl))) hP'

end SortedGroups
