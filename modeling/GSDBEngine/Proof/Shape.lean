import GSDBEngine.Proof.MapRun

/-!
# The shape of a tree

What `TreeOK` says of the pages, without levels: each page but the root names the one
page that lists it, leaves are on one level, and their chain lists them in key order.

* `WellShaped`: the shape of the tree in a store.
* `tree_well_shaped`: **every sequence of calls on a new tree leaves it well shaped.**
-/

namespace GSDBEngine

set_option linter.unusedSectionVars false

open KeyRank BTree Eff

variable {K L : Type} [KeyOps K] [LinearOrder L] [KeyRank K L]
variable {v : View K} {root : PageId} {d : ℕ} {A B : Level K} {O : List PageId} {p p' c : PageId} {μ : Mem K} {s : Store K}

/-- The tree under the root is one: parent fields, levels, children and the leaf chain. -/
structure WellShaped (s : Store K) : Prop where
  /-- the root has no parent -/
  root_parent : ∃ n, s.view s.root_page = some n ∧ n.parent_page = INVALID_PAGE
  /-- a child names the page that lists it -/
  child_parent : ∀ p c, Reachable s.view s.root_page p → Child s.view p c → ∃ n, s.view c = some n ∧ n.parent_page = p
  /-- and every other page than the root is such a child -/
  parent_child : ∀ c n, Reachable s.view s.root_page c → c ≠ s.root_page → s.view c = some n →
    Reachable s.view s.root_page n.parent_page ∧ Child s.view n.parent_page c
  /-- the descent passes the pages that the parent fields lead up -/
  climb : ∀ key, ∃ leaf path, findLeafPageWithPath key s = .ok (leaf, path) s ∧ IsLeaf s.view leaf ∧ Path s.view leaf path
  /-- the leaves are at one depth -/
  depth : ∃ d, ∀ p k, AtDepth s.view s.root_page k p → IsLeaf s.view p → k = d
  /-- no page is listed twice -/
  one_parent : ∀ p p' c, Reachable s.view s.root_page p → Reachable s.view s.root_page p' → Child s.view p c →
    Child s.view p' c → p = p'
  children_nodup : ∀ p n es, Reachable s.view s.root_page p → s.view p = some n → n.cells = .internal es →
    (children es n.rightmost_child).Nodup
  /-- the chain from the leftmost leaf -/
  chain : ∃ ls, findLeftmostLeaf s = .ok (ls.headD INVALID_PAGE) s ∧ Linked s.view ls ∧ ls.Nodup ∧
    (∀ p, p ∈ ls ↔ Reachable s.view s.root_page p ∧ IsLeaf s.view p) ∧
    (ls.flatMap (leafAt s.view)).Pairwise fun e e' => KeyOps.lt e.key e'.key = true

/-! ### From levels to pages -/

theorem AtDepth.reachable {k : ℕ} (h : AtDepth v root k p) : Reachable v root p := by
  induction h with
  | root => exact Relation.ReflTransGen.refl
  | child _ hc ih => exact ih.tail hc

/-- What is `d` children down is on the level. -/
theorem Up.mem_of_depth (h : Up v root d A O) : ∀ {p : PageId}, AtDepth v root d p → p ∈ ids A := by
  induction h with
  | root =>
    intro p hp
    cases hp
    simp
  | @down d B O hB hin ih =>
    intro p hp
    cases hp with
    | @child _ q _ hq hc =>
      obtain ⟨u, hu⟩ := mem_ids.1 (ih hq)
      obtain ⟨-, n, es, hv, hcells, -⟩ := hin _ hu
      obtain ⟨w, hw⟩ := mem_ids.1 ((children_mem hv hcells u).1 hc)
      exact mem_ids_of_mem (mem_expand.2 ⟨_, hu, hw⟩)

/-- What is fewer children down is no leaf. -/
theorem Up.not_leaf (h : Up v root d A O) : ∀ {k : ℕ} {p : PageId}, k < d → AtDepth v root k p → ¬ IsLeaf v p := by
  induction h with
  | root => intro k p hk; exact absurd hk (Nat.not_lt_zero _)
  | @down d B O hB hin ih =>
    intro k p hk hp
    rcases Nat.lt_succ_iff_lt_or_eq.1 hk with hk | rfl
    · exact ih hk hp
    · obtain ⟨u, hu⟩ := mem_ids.1 (hB.mem_of_depth hp)
      obtain ⟨-, n, es, hv, hc, -⟩ := hin _ hu
      rintro ⟨n', es', hv', hc'⟩
      rw [hv] at hv'; cases hv'
      rw [hc] at hc'; cases hc'

theorem TreeOK.isLeaf (h : TreeOK v root d A O) (hp : p ∈ ids A) : IsLeaf v p := by
  obtain ⟨u, hu⟩ := mem_ids.1 hp
  obtain ⟨-, n, es, hv, hc⟩ := h.leaves _ hu
  exact ⟨n, es, hv, hc⟩

theorem not_leaf_of_child (h : Child v p c) : ¬ IsLeaf v p := by
  obtain ⟨n, es, hv, hc, -⟩ := h
  rintro ⟨n', es', hv', hc'⟩
  rw [hv] at hv'; cases hv'
  rw [hc] at hc'; cases hc'

theorem TreeOK.depth_le (h : TreeOK v root d A O) {k : ℕ} (hp : AtDepth v root k p) : k ≤ d := by
  induction hp with
  | root => exact Nat.zero_le d
  | @child k q c hq hc ih =>
    refine Nat.lt_of_le_of_ne ih fun hkd => ?_
    subst hkd
    exact not_leaf_of_child hc (h.isLeaf (h.up.mem_of_depth hq))

/-- **The leaves are at one depth.** -/
theorem TreeOK.leaf_depth (h : TreeOK v root d A O) {k : ℕ} (hp : AtDepth v root k p) (hl : IsLeaf v p) : k = d := by
  rcases Nat.lt_or_eq_of_le (h.depth_le hp) with hk | hk
  · exact absurd hl (h.up.not_leaf hk hp)
  · exact hk

theorem TreeOK.leaf_iff (h : TreeOK v root d A O) : p ∈ ids A ↔ Reachable v root p ∧ IsLeaf v p := by
  refine ⟨fun hp => ⟨h.up.reachable p (List.mem_append_left _ hp), h.isLeaf hp⟩, fun ⟨hr, hl⟩ => ?_⟩
  refine (List.mem_append.1 (h.reachable_iff.1 hr)).resolve_right fun hO => ?_
  obtain ⟨n, es, hv, hc⟩ := h.up.above p hO
  obtain ⟨n', es', hv', hc'⟩ := hl
  rw [hv] at hv'; cases hv'
  rw [hc] at hc'; cases hc'

/-- A page above the leaves is on a level, with its children below. -/
theorem Up.level_of (h : Up v root d A O) : ∀ {p : PageId}, p ∈ O → ∃ d' B O' w, Up v root d' B O' ∧ (p, w) ∈ B ∧
    (∀ b ∈ B, Inner v b) ∧ (ids (expand v B) ++ (ids B ++ O')).Sublist (ids A ++ O) := by
  induction h with
  | root => intro p hp; cases hp
  | @down d B O hB hin ih =>
    intro p hp
    rcases List.mem_append.1 hp with hp | hp
    · obtain ⟨w, hw⟩ := mem_ids.1 hp
      exact ⟨d, B, O, w, hB, hw, hin, List.Sublist.refl _⟩
    · obtain ⟨d', B', O', w, hB', hw, hin', hsub⟩ := ih hp
      exact ⟨d', B', O', w, hB', hw, hin', hsub.trans (List.sublist_append_right _ _)⟩

/-- A page that lists children is above the leaves. -/
theorem TreeOK.above_of_child (h : TreeOK v root d A O) (hr : Reachable v root p) (hc : Child v p c) : p ∈ O :=
  (List.mem_append.1 (h.reachable_iff.1 hr)).resolve_left fun hA => not_leaf_of_child hc (h.isLeaf hA)

theorem TreeOK.child_parent (h : TreeOK v root d A O) (hr : Reachable v root p) (hc : Child v p c) :
    ∃ n, v c = some n ∧ n.parent_page = p := by
  obtain ⟨d', B, O', w, -, hw, hin, -⟩ := h.up.level_of (h.above_of_child hr hc)
  obtain ⟨-, n, es, hv, hcells, hch⟩ := hin _ hw
  obtain ⟨u, hu⟩ := mem_ids.1 ((children_mem hv hcells w).1 hc)
  rw [rowAt_eq (c := (p, w)) hv hcells] at hu
  exact hch _ hu

theorem TreeOK.children_nodup (h : TreeOK v root d A O) (hr : Reachable v root p) {n : Node K} {es : List (InternalEntry K)}
    (hv : v p = some n) (hc : n.cells = .internal es) : (children es n.rightmost_child).Nodup := by
  have hchild : Child v p n.rightmost_child := ⟨n, es, hv, hc, by simp [children]⟩
  obtain ⟨d', B, O', w, -, hw, -, hsub⟩ := h.up.level_of (h.above_of_child hr hchild)
  have hnd : (ids (expand v B)).Nodup := h.nodup.sublist ((List.sublist_append_left _ _).trans hsub)
  rw [children_eq (w := w), ← rowAt_eq (c := (p, w)) hv hc]
  refine hnd.sublist (List.Sublist.map _ ?_)
  obtain ⟨B₁, B₂, rfl⟩ := List.append_of_mem hw
  rw [expand_append, expand_cons]
  exact (List.sublist_append_left _ _).trans (List.sublist_append_right _ _)

theorem TreeOK.parent_child (h : TreeOK v root d A O) (hr : Reachable v root c) (hne : c ≠ root) {n : Node K} (hv : v c = some n) :
    Reachable v root n.parent_page ∧ Child v n.parent_page c := by
  rcases Relation.ReflTransGen.cases_tail hr with heq | ⟨p, hp, hc⟩
  · exact absurd heq hne
  · obtain ⟨n', hv', hpar⟩ := h.child_parent hp hc
    rw [hv] at hv'; cases hv'
    rw [hpar]
    exact ⟨hp, hc⟩

theorem Up.root_parent (h : Up v root d A O) : ∃ n, v root = some n ∧ n.parent_page = INVALID_PAGE := by
  induction h with
  | root hv hpar => exact ⟨_, hv, hpar⟩
  | down _ _ ih => exact ih

/-! ### In the store -/

theorem reads_findLeaf (k : K) : Reads (findLeafPageWithPath k) := fun _ =>
  wp_mono (wp_findLeafPageWithPath k) (fun _ _ h => h) fun _ _ _ => trivial

theorem reads_findLeftmost : Reads (findLeftmostLeaf : M K PageId) := reads_bind reads_get fun _ => reads_leftmost _ _

/-- **The levels of a tree, page by page.** -/
theorem TreeOK.wellShaped (ht : TreeOK μ.view μ.root d A O) (hs : Holds s μ) : WellShaped s := by
  have hroot := hs.root
  have hview := hs.view
  refine ⟨?_, ?_, ?_, fun key => ?_, ?_, ?_, ?_, ids A, ?_, ?_, ?_, ?_, ?_⟩
  · rw [hview, hroot]
    exact ht.up.root_parent
  · rw [hview, hroot]
    exact fun p c hr hc => ht.child_parent hr hc
  · rw [hview, hroot]
    exact fun c n hr hne hv => ht.parent_child hr hne hv
  · obtain ⟨pre, c, post, hloc⟩ := ht.up.exists_loc (rising_of_order ht.loose.order) key
    obtain ⟨path, hpath, hrun⟩ := run_findLeaf (E := fun _ => False) ht.loose hloc
    rw [hview]
    exact ⟨c.1, path, reads_run (reads_findLeaf key) hs hrun, ht.isLeaf (mem_ids_of_mem hloc.mem), hpath⟩
  · rw [hview, hroot]
    exact ⟨d, fun p k hp hl => ht.leaf_depth hp hl⟩
  · rw [hview, hroot]
    intro p p' c hr hr' hc hc'
    obtain ⟨n, hv, hpar⟩ := ht.child_parent hr hc
    obtain ⟨n', hv', hpar'⟩ := ht.child_parent hr' hc'
    rw [hv] at hv'; cases hv'
    exact hpar.symm.trans hpar'
  · rw [hview, hroot]
    exact fun p n es hr hv hc => ht.children_nodup hr hv hc
  · exact reads_run reads_findLeftmost hs (run_findLeftmost ht.loose)
  · rw [hview]
    exact ht.linked
  · exact (List.nodup_append.1 ht.nodup).1
  · rw [hview, hroot]
    exact fun p => ht.leaf_iff
  · rw [hview, show (ids A).flatMap (leafAt μ.view) = content μ.view A from List.flatMap_map ..]
    exact (content_sorted ht.order).imp fun h => lt_true.2 h

/-- **Every tree is well shaped**: on a new tree, calls with cells of at most a quarter page keep the parent fields, the
levels and the leaf chain in place. -/
theorem tree_well_shaped {s₀ s : Store SqlKey} (h : s₀.Ready) (hnew : construct INVALID_PAGE s₀ = .ok () s) (ops : List (Op SqlKey))
    (hq : Quarter ops) (hov : NoOverflow (exec ops s).1) : WellShaped (exec ops s).2 := by
  obtain ⟨-, -, μ, d, A, O, hs, hm⟩ := run_map (construct_map h hnew) hq hov
  exact hm.tree.wellShaped hs

open StaleId LostLeaf QuarterRun in
theorem tree_well_shaped_ops : WellShaped (exec ops newTree).2 :=
  tree_well_shaped newSystem_ready newTree_ok ops quarter_ops (noOverflow_of_settled settled_ops)

end GSDBEngine
