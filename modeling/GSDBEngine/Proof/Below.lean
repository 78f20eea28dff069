import GSDBEngine.Proof.Remove

/-!
# What is stored below a page

A separator divides two children of a node if the keys stored below the left one are smaller and those below the right
one are not. Where the bounds of the leaves are in order, so is every pair of children above them.

* `Under v D k A P`: the level `A` is `k` levels below `D`.
* `Up.split`: the level of a page above the leaves, and the leaves below it.
* `Loose.divides`: **every separator divides its two children.**
-/

namespace GSDBEngine

set_option linter.unusedSectionVars false

open KeyRank BTree

variable {K L : Type} [KeyOps K] [LinearOrder L] [KeyRank K L]
variable {v v' : View K} {root : PageId} {d k : ℕ} {A B D D₁ D₂ r₁ r₂ : Level K} {O P : List PageId} {b c c' : Cell K}
  {κ κ' : K} {p q l r : PageId} {u w : Option K} {e : LeafEntry K} {nq : Node K}

/-- The entry is in a leaf below the page. -/
inductive StoredBelow (v : View K) : PageId → LeafEntry K → Prop
  | leaf {p : PageId} {n : Node K} {es : List (LeafEntry K)} {e : LeafEntry K} : v p = some n → n.cells = .leaf es → e ∈ es → StoredBelow v p e
  | child {p c : PageId} {e : LeafEntry K} : Child v p c → StoredBelow v c e → StoredBelow v p e

/-- `l` and `r` are neighbouring children of `q`, `κ` the separator between them. -/
def Between (v : View K) (q l : PageId) (κ : K) (r : PageId) : Prop :=
  ∃ n es₁ es₂, v q = some n ∧ n.cells = .internal (es₁ ++ ⟨κ, l⟩ :: es₂) ∧ (children es₂ n.rightmost_child).head? = some r

/-- Every key below `l` is smaller than `κ`, and none below `r` is. -/
def Divides (v : View K) (l : PageId) (κ : K) (r : PageId) : Prop :=
  (∀ e, StoredBelow v l e → rank e.key < rank κ) ∧ ∀ e, StoredBelow v r e → rank κ ≤ rank e.key

/-! ### Neighbours in a row -/

theorem Between.row (h : Between v q l κ r) : ∃ r₁ u r₂, rowAt v (q, w) = r₁ ++ (l, some κ) :: (r, u) :: r₂ := by
  obtain ⟨n, es₁, es₂, hv, hc, hr⟩ := h
  rw [children_eq (w := w)] at hr
  cases hcs : cellsOf es₂ n.rightmost_child w with
  | nil => simp [cellsOf] at hcs
  | cons a r₂ =>
    rw [hcs] at hr
    obtain rfl : a.1 = r := by simpa using hr
    refine ⟨es₁.map fun e => (e.child_page_id, some e.key), a.2, r₂, ?_⟩
    rw [rowAt_eq hv hc, ← hcs]
    simp [cellsOf]

theorem between_of_row {n : Node K} {es : List (InternalEntry K)} (hv : v q = some n) (hc : n.cells = .internal es)
    (hrow : rowAt v (q, w) = r₁ ++ (l, some κ) :: (r, u) :: r₂) : Between v q l κ r := by
  rw [rowAt_eq hv hc] at hrow
  rcases cellsOf_eq_append_cons hrow with ⟨h, -⟩ | ⟨es₁, k, es₂, rfl, hk, -, hr₂⟩
  · cases h
  · cases hk
    refine ⟨n, es₁, es₂, hv, hc, ?_⟩
    rw [children_eq (w := w), ← hr₂]
    rfl

/-- A page is in one place of a row. -/
theorem row_unique : ∀ {X X' Y Y' : Level K}, (ids (X ++ c :: Y)).Nodup → X ++ c :: Y = X' ++ c' :: Y' → c.1 = c'.1 →
    X = X' ∧ c = c' ∧ Y = Y' := by
  intro X
  induction X with
  | nil =>
    intro X' Y Y' hnd heq hc
    cases X' with
    | nil =>
      obtain ⟨h1, h2⟩ := List.cons.inj heq
      exact ⟨rfl, h1, h2⟩
    | cons a X' =>
      obtain ⟨rfl, rfl⟩ := List.cons.inj heq
      rw [List.nil_append, ids_cons, List.nodup_cons, hc] at hnd
      exact absurd (mem_ids_of_mem (c := c') (by simp)) hnd.1
  | cons a X ih =>
    intro X' Y Y' hnd heq hc
    cases X' with
    | nil =>
      obtain ⟨rfl, rfl⟩ := List.cons.inj heq
      rw [List.cons_append, ids_cons, List.nodup_cons, ← hc] at hnd
      exact absurd (mem_ids_of_mem (c := c) (by simp)) hnd.1
    | cons a' X' =>
      obtain ⟨rfl, htail⟩ := List.cons.inj heq
      rw [List.cons_append, ids_cons, List.nodup_cons] at hnd
      obtain ⟨rfl, h2, h3⟩ := ih hnd.2 htail hc
      exact ⟨rfl, h2, h3⟩

/-! ### Levels below a level -/

/-- `A` is `k` levels below `D`; `P` are the pages from `D` on that are above `A`. -/
inductive Under (v : View K) (D : Level K) : ℕ → Level K → List PageId → Prop
  | same : Under v D 0 D []
  | down {k : ℕ} {A : Level K} {P : List PageId} : Under v D k A P → (∀ a ∈ A, Inner v a) →
      Under v D (k + 1) (expand v A) (ids A ++ P)

theorem Under.top (h : Under v D k A P) : (ids D).Sublist (ids A ++ P) := by
  induction h with
  | same => simp
  | down _ _ ih => exact ih.trans (List.sublist_append_right _ _)

theorem Under.ascending (h : Under v D k A P) (hA : Ascending A) : Ascending D := by
  induction h with
  | same => exact hA
  | down _ hin ih => exact ih (hA.of_expand hin)

/-- The leaves below two parts of a level, one after the other. -/
theorem Under.append (h : Under v (D₁ ++ D₂) k A P) : ∃ A₁ A₂ P₁ P₂, A = A₁ ++ A₂ ∧ Under v D₁ k A₁ P₁ ∧ Under v D₂ k A₂ P₂ := by
  generalize hD : D₁ ++ D₂ = D at h
  induction h with
  | same => exact ⟨D₁, D₂, [], [], hD.symm, .same, .same⟩
  | down _ hin ih =>
    obtain ⟨A₁, A₂, P₁, P₂, rfl, h₁, h₂⟩ := ih
    refine ⟨_, _, _, _, expand_append, .down h₁ fun a ha => ?_, .down h₂ fun a ha => ?_⟩
    · exact hin a (List.mem_append_left _ ha)
    · exact hin a (List.mem_append_right _ ha)

/-- The first step down. -/
theorem Under.peel (h : Under v D k A P) : (k = 0 ∧ A = D ∧ P = []) ∨ (∀ a ∈ D, Inner v a) ∧ ∃ k' P', k = k' + 1 ∧
    P = P' ++ ids D ∧ Under v (expand v D) k' A P' := by
  induction h with
  | same => exact Or.inl ⟨rfl, rfl, rfl⟩
  | down _ hin ih =>
    rcases ih with ⟨rfl, rfl, rfl⟩ | ⟨hD, k', P', rfl, rfl, h⟩
    · exact Or.inr ⟨hin, 0, [], rfl, List.append_nil _, .same⟩
    · exact Or.inr ⟨hD, k' + 1, _, rfl, (List.append_assoc ..).symm, .down h hin⟩

/-- The last cell below a cell has its bound. -/
theorem Under.last (h : Under v [c] k A P) : ∃ X p, A = X ++ [(p, c.2)] := by
  induction h with
  | same => exact ⟨[], c.1, rfl⟩
  | down _ hin ih =>
    obtain ⟨X, p, rfl⟩ := ih
    obtain ⟨Y, p', hY⟩ := rowAt_last (hin (p, c.2) (by simp))
    refine ⟨expand v X ++ Y, p', ?_⟩
    rw [expand_append, expand_cons, expand_nil, List.append_nil, hY, List.append_assoc]

theorem Up.under_level (h : Up v root d D O) (hU : Under v D k A P) : Up v root (d + k) A (P ++ O) := by
  induction hU with
  | same => exact h
  | down _ hin ih =>
    rw [List.append_assoc]
    exact .down ih hin

/-- **The level of a page above the leaves**, and the leaves below it. -/
theorem Up.split (h : Up v root d A O) : q ∈ O → ∃ d' B O' k P, q ∈ ids B ∧ Up v root d' B O' ∧ (∀ b ∈ B, Inner v b) ∧
    Under v (expand v B) k A P ∧ O = P ++ (ids B ++ O') ∧ d = d' + 1 + k := by
  induction h with
  | root => exact fun hq => absurd hq List.not_mem_nil
  | @down d B O hB hin ih =>
    intro hq
    rcases List.mem_append.1 hq with hq | hq
    · exact ⟨d, B, O, 0, [], hq, hB, hin, .same, rfl, rfl⟩
    · obtain ⟨d', B', O', k, P, hqB, hB', hin', hU, rfl, rfl⟩ := ih hq
      refine ⟨d', B', O', k + 1, _, hqB, hB', hin', .down hU hin, ?_, by omega⟩
      rw [List.append_assoc]

/-- The levels below a level whose nodes have the same rows, where everything below is as it was. -/
theorem Under.congr (h : Under v D k A P) (hnd : (ids A ++ P).Nodup) (hD : ∀ p ∈ ids D, SameRow v v' p)
    (ho : ∀ p ∈ ids A ++ P, p ∉ ids D → v' p = v p) : Under v' D k A P := by
  induction h with
  | same => exact .same
  | @down k A P hU hin ih =>
    have hrow : ∀ a ∈ A, SameRow v v' a.1 := by
      intro a ha
      by_cases haD : a.1 ∈ ids D
      · exact hD a.1 haD
      · exact sameRow_of_eq (ho a.1 (List.mem_append_right _ (List.mem_append_left _ (mem_ids_of_mem ha))) haD)
    have hexp : expand v' A = expand v A := expand_congr fun a ha => by
      obtain ⟨-, n, es, hv, -⟩ := hin a ha
      exact rowAt_sameRow hv (hrow a ha)
    have hU' := ih (List.nodup_append.1 hnd).2.1 fun p hp hpD => ho p (List.mem_append_right _ hp) hpD
    rw [← hexp]
    refine .down hU' fun a ha => (hin a ha).congr (hrow a ha) fun c hc => sameParent_of_eq ?_
    -- a child is on no level above
    have hcA : c.1 ∈ ids (expand v A) := mem_ids_of_mem (mem_expand.2 ⟨a, ha, hc⟩)
    exact ho c.1 (List.mem_append_left _ hcA) fun hcD => (List.nodup_append.1 hnd).2.2 c.1 hcA c.1 (hU.top.subset hcD) rfl

/-! ### Entries below a page -/

/-- What is below a page is in the leaves below its cell. -/
theorem StoredBelow.mem_content (h : StoredBelow v p e) : ∀ {w : Option K} {k : ℕ} {A : Level K} {P : List PageId}, Under v [(p, w)] k A P →
    (∀ c ∈ A, c.1 ≠ INVALID_PAGE ∧ ∃ n es, v c.1 = some n ∧ n.cells = .leaf es) → e ∈ content v A := by
  induction h with
  | @leaf p n es e hv hc he =>
    intro w k A P hU _
    rcases hU.peel with ⟨-, rfl, -⟩ | ⟨hin, -⟩
    · rw [content_cons, leafAt_eq hv hc]
      exact List.mem_append_left _ he
    · obtain ⟨-, n', es', hv', hc', -⟩ := hin (p, w) (by simp)
      rw [hv] at hv'
      cases hv'
      rw [hc] at hc'
      cases hc'
  | @child p c e hch _ ih =>
    intro w k A P hU hleaf
    obtain ⟨n, es, hv, hc, hmem⟩ := hch
    rcases hU.peel with ⟨-, rfl, -⟩ | ⟨hin, k', P', -, -, hU'⟩
    · obtain ⟨-, n', es', hv', hc'⟩ := hleaf (p, w) (by simp)
      rw [hv] at hv'
      cases hv'
      rw [hc] at hc'
      cases hc'
    · rw [expand_cons, expand_nil, List.append_nil, rowAt_eq hv hc] at hU'
      rw [children_eq (w := w)] at hmem
      obtain ⟨u, hu⟩ := mem_ids.1 hmem
      obtain ⟨X, Y, hXY⟩ := List.append_of_mem hu
      have hsplit : cellsOf es n.rightmost_child w = X ++ ([(c, u)] ++ Y) := by rw [hXY]; rfl
      rw [hsplit] at hU'
      obtain ⟨A₁, A', P₁, P'', rfl, -, hU''⟩ := hU'.append
      obtain ⟨A₂, A₃, P₂, P₃, rfl, hc, -⟩ := hU''.append
      have hin₂ := ih hc fun a ha => hleaf a (List.mem_append_right _ (List.mem_append_left _ ha))
      rw [content_append, content_append]
      exact List.mem_append_right _ (List.mem_append_left _ hin₂)

/-- A separator of a level divides its two sides, where the leaves below are in order. -/
theorem Under.divides (h : Under v (D₁ ++ (l, some κ) :: (r, u) :: D₂) k A P) (hord : (tokens v A).Pairwise (· ≤ ·))
    (hleaf : ∀ c ∈ A, c.1 ≠ INVALID_PAGE ∧ ∃ n es, v c.1 = some n ∧ n.cells = .leaf es) : Divides v l κ r := by
  have hsplit : D₁ ++ (l, some κ) :: (r, u) :: D₂ = D₁ ++ ([(l, some κ)] ++ ([(r, u)] ++ D₂)) := rfl
  rw [hsplit] at h
  obtain ⟨A₁, A', -, P', rfl, -, h⟩ := h.append
  obtain ⟨Al, A'', Pl, P'', rfl, hl, h⟩ := h.append
  obtain ⟨Ar, A₂, Pr, -, rfl, hr, -⟩ := h.append
  obtain ⟨X, p, rfl⟩ := hl.last
  -- the bound of the last leaf below `l` is the separator
  have hord' : ((tokens v A₁ ++ tokens v X ++ (leafAt v p).map entryTok) ++
      fenceTok (some κ) :: (tokens v Ar ++ tokens v A₂)).Pairwise (· ≤ ·) := by
    simpa using hord
  obtain ⟨-, hright, hcross⟩ := List.pairwise_append.1 hord'
  constructor
  · intro e he
    have hmem := he.mem_content hl fun c hc => hleaf c (by simp only [List.mem_append] at hc ⊢; tauto)
    have hlt : entryTok e ≤ fenceTok (some κ) := by
      rw [content_append, List.mem_append] at hmem
      refine hcross (entryTok e) ?_ _ List.mem_cons_self
      rcases hmem with hmem | hmem
      · have := entry_mem_tokens hmem
        simp [this]
      · have : e ∈ leafAt v p := by simpa using hmem
        exact List.mem_append_right _ (List.mem_map_of_mem this)
    have hb := entry_le_fence.1 hlt
    rw [bound_some] at hb
    exact WithTop.coe_lt_coe.1 hb
  · intro e he
    have hmem := he.mem_content hr fun c hc => hleaf c (by simp only [List.mem_append] at hc ⊢; tauto)
    have hle : (fenceTok (some κ) : WithTop L ×ₗ Bool) ≤ entryTok e :=
      (List.pairwise_cons.1 hright).1 _ (List.mem_append_left _ (entry_mem_tokens hmem))
    have hb := fence_le_entry.1 hle
    rw [bound_some] at hb
    exact WithTop.coe_le_coe.1 hb

/-- **Every separator divides its two children.** -/
theorem Loose.divides (h : Loose v root d A O) (hq : q ∈ O) (hb : Between v q l κ r) : Divides v l κ r := by
  obtain ⟨d', B, O', k, P, hqB, hB, hin, hU, -, -⟩ := h.up.split hq
  obtain ⟨w, hw⟩ := mem_ids.1 hqB
  obtain ⟨B₁, B₂, rfl⟩ := List.append_of_mem hw
  obtain ⟨r₁, u, r₂, hrow⟩ := hb.row (w := w)
  have hlevel : expand v (B₁ ++ (q, w) :: B₂) = (expand v B₁ ++ r₁) ++ (l, some κ) :: (r, u) :: (r₂ ++ expand v B₂) := by
    rw [expand_append, expand_cons, hrow]
    simp
  rw [hlevel] at hU
  exact hU.divides h.order h.leaves

end GSDBEngine
