import GSDBEngine.Proof.Underflow

/-!
# Removal

`remove` takes the entry out of its leaf and rebalances the leaf if too little is left
in it. A leaf may only donate while it keeps an entry (`Donors`); then the entries of the
tree are the old ones without the key.

* `run_removeFromLeaf`: the entry taken out.
* `run_leafUnderflow`: the leaf rebalanced, the entries as they are.
* `run_removeTx`: the method.
-/

namespace GSDBEngine

set_option linter.unusedSectionVars false

open KeyRank BTree

variable {K L : Type} [KeyOps K] [LinearOrder L] [KeyRank K L]
variable {v v' : View K} {root : PageId} {d : ℕ} {A B pre post : Level K} {O : List PageId} {c : Cell K} {x κ : K}
  {p q l r : PageId} {μ μ' : Mem K} {E : Err K → Prop} {txn : ℕ} {u w : Option K} {path : List PageId} {n : Node K}

/-! ### Siblings that may donate -/

theorem beside_row {nq : Node K} {es : List (InternalEntry K)} {r₁ r₂ : Level K} {c c' : Cell K} (hv : v q = some nq)
    (hc : nq.cells = .internal es) (hrow : nq.row w = r₁ ++ c :: c' :: r₂) : Beside v c.1 c'.1 ∧ Beside v c'.1 c.1 := by
  have hcs : children es nq.rightmost_child = ids r₁ ++ [c.1, c'.1] ++ ids r₂ := by
    have hrow' : cellsOf es nq.rightmost_child w = r₁ ++ c :: c' :: r₂ := by rw [← hrow, Node.row, hc]
    rw [children_eq (w := w), hrow']; simp
  exact ⟨⟨q, nq, es, hv, hc, Or.inl ⟨_, _, hcs.symm⟩⟩, ⟨q, nq, es, hv, hc, Or.inr ⟨_, _, hcs.symm⟩⟩⟩

/-- `Donors` for the siblings on the level `A` of the tree. -/
def LevelDonors (v : View K) (A : Level K) (p : PageId) : Prop :=
  ∀ q n es, q ∈ ids A → q ≠ p → Beside v p q → v q = some n → n.cells = .leaf es → n.isUnderfull = false → 2 ≤ es.length

theorem Donors.level (h : Donors v p) : LevelDonors v A p := fun q n es _ => h q n es

/-! ### The entry taken out -/

/-- The entries without `x`. -/
def without (es : List (LeafEntry K)) (x : K) : List (LeafEntry K) := es.filter fun e => !KeyOps.eq e.key x

theorem mem_without {es : List (LeafEntry K)} {e : LeafEntry K} : e ∈ without es x ↔ e ∈ es ∧ rank e.key ≠ rank x := by
  simp [without, ← eq_false]

theorem without_of_ne {es : List (LeafEntry K)} (h : ∀ e ∈ es, rank e.key ≠ rank x) : without es x = es :=
  List.filter_eq_self.2 fun e he => by simpa using eq_false.2 (h e he)

theorem without_append (es es' : List (LeafEntry K)) : without (es ++ es') x = without es x ++ without es' x :=
  List.filter_append ..

/-- **`remove_from_leaf`** in the leaf of the key. -/
theorem run_removeFromLeaf {f : PUnit → M K PUnit} {Q : PUnit → Mem K → Prop} {es : List (LeafEntry K)}
    (ht : TreeOK μ.view μ.root d A O) (hloc : Loc A x pre (l, u) post) (hl : μ.view l = some n) (hc : n.cells = .leaf es)
    (hov : E .overflow)
    (h : ∀ n', n'.parent_page = n.parent_page → n'.cells = .leaf (without es x) →
      TreeOK (μ.set l n').view μ.root d A O → content (μ.set l n').view A = without (content μ.view A) x →
      Run (μ.set l n') (f ⟨⟩) E Q) : Run μ (removeFromLeaf txn l x >>= f) E Q := by
  have hes : leafAt μ.view l = es := leafAt_eq hl hc
  have hkept : ∀ e ∈ without es x, e.stored = e := fun e he =>
    ht.kept e (by rw [hloc.eq]; simp [hes, (mem_without.1 he).1])
  have hstored : (without es x).map LeafEntry.stored = without es x := map_stored hkept
  unfold removeFromLeaf
  simp only [bind_assoc]
  refine run_getLeafEntries hl hc (run_setLeafEntries hl (fun _ => hov) fun hfit => run_writePage ?_)
  have hord : (tokens μ.view pre ++ ((without es x).map entryTok ++ fenceTok u :: tokens μ.view post)).Pairwise (· < ·) := by
    have hold := ht.order
    rw [hloc.eq, tokens_append, tokens_cons, hes] at hold
    exact hold.sublist (List.Sublist.append_left (List.Sublist.append_right (List.filter_sublist.map _) _) _)
  obtain ⟨htree, hcont⟩ := ht.rewrite (Function.update μ.view l (some (n.withCells _ hfit))) hloc.eq hl rfl rfl rfl
    (congrArg Cells.leaf hstored) hkept hord
  refine h _ rfl (congrArg Cells.leaf hstored) htree ?_
  obtain ⟨heq, hbefore, hafter⟩ := content_loc ht.loose.order hloc
  rw [Mem.set_view, hcont, heq, without_append, without_append, without_of_ne fun e he => (hbefore e he).ne,
    without_of_ne fun e he => (hafter e he).ne', hes]

/-! ### The leaf rebalanced -/

/-- The tree rebalanced: the entries and the smallness of bounds stay. -/
def Resettled (v : View K) (A : Level K) (O : List PageId) (μ' : Mem K) : Prop :=
  ∃ d' A' O', TreeOK μ'.view μ'.root d' A' O' ∧ content μ'.view A' = content v A ∧
    Owned v (ids A ++ O) μ'.view (ids A' ++ O') ∧
    (SmallBounds A → (∀ e ∈ content v A, Small e.key) → Thick v O → SmallBounds A' ∧ Thick μ'.view O')

theorem Resettled.refl (ht : TreeOK μ.view μ.root d A O) : Resettled μ.view A O μ :=
  ⟨d, A, O, ht, rfl, Owned.same fun _ _ => rfl, fun hA _ h => ⟨hA, h⟩⟩

section leaf

variable {A' : Level K} (hrel : Releaved v root d B O q μ A') (hnd : (ids (expand v B) ++ (ids B ++ O)).Nodup)
include hrel hnd

theorem Releaved.nodup : (ids A' ++ (ids B ++ O)).Nodup := hnd.sublist (hrel.sub.append (List.Sublist.refl _))

omit hnd in
theorem Releaved.owned : Owned v (ids (expand v B) ++ (ids B ++ O)) μ.view (ids A' ++ (ids B ++ O)) where
  frame p hp _ := by
    rw [List.mem_append, not_or] at hp
    exact hrel.frame p hp.1 hp.2
  fresh p hp := Or.inl ((hrel.sub.append (List.Sublist.refl _)).subset hp)
  gone p hp hp' := by
    rw [List.mem_append, not_or] at hp'
    exact hrel.gone p ((List.mem_append.1 hp).resolve_right hp'.2) hp'.1

/-- After a borrow. -/
theorem Releaved.resettled (hq : seps μ.view q ≠ []) (hS : SmallBounds (expand v B) → (∀ e ∈ content v (expand v B), Small e.key) →
    SmallBounds A') : Resettled v (expand v B) (ids B ++ O) μ := by
  have hup : Up μ.view μ.root (d + 1) A' (ids B ++ O) := by
    rw [hrel.same_root, ← hrel.level]
    exact .down hrel.up hrel.inner
  refine ⟨_, A', _, ⟨hrel.leaves, hup, hrel.nodup hnd⟩, hrel.same, hrel.owned, fun hA hkeys hthick => ⟨hS hA hkeys, fun p hp => ?_⟩⟩
  by_cases hpq : p = q
  · rw [hpq]; exact hq
  · rw [show seps μ.view p = seps v p by simp only [seps, hrel.above p hp hpq]]
    exact hthick p hp

/-- After a merge and what follows up the path. -/
theorem Releaved.cascaded {O₁ : List PageId} {d₁ : ℕ} (hlow : Lowered μ.view (ids B ++ O) μ' A' d₁ O₁)
    (hS : SmallBounds (expand v B) → SmallBounds A')
    (hthick : SmallBounds A' → ThickBut μ.view q (ids B ++ O) → Thick μ'.view O₁) :
    Resettled v (expand v B) (ids B ++ O) μ' := by
  obtain ⟨hleaves, hcont⟩ := hrel.leaves.moved hlow.keep
  refine ⟨d₁, A', O₁, ⟨hleaves, hlow.up, (hrel.nodup hnd).sublist ((List.Sublist.refl _).append hlow.sub)⟩,
    hcont.trans hrel.same, hrel.owned.trans hlow.owned, fun hA _ h => ⟨hS hA, hthick (hS hA) fun p hp hpq => ?_⟩⟩
  rw [show seps μ.view p = seps v p by simp only [seps, hrel.above p hp hpq]]
  exact h p hp

end leaf

theorem smallBounds_recut {X Y : Level K} {e : LeafEntry K} (h : SmallBounds (X ++ (l, some κ) :: (r, u) :: Y))
    (he : Small e.key) : SmallBounds (X ++ (l, some e.key) :: (r, u) :: Y) := by
  intro c hc k hk
  rcases List.mem_append.1 hc with hc | hc
  · exact h c (List.mem_append_left _ hc) k hk
  · rcases List.mem_cons.1 hc with rfl | hc
    · cases hk; exact he
    · exact h c (List.mem_append_right _ (List.mem_cons_of_mem _ hc)) k hk

theorem smallBounds_merged {X Y : Level K} (h : SmallBounds (X ++ (l, some κ) :: (r, u) :: Y)) :
    SmallBounds (X ++ (l, u) :: Y) := by
  intro c hc k hk
  rcases List.mem_append.1 hc with hc | hc
  · exact h c (List.mem_append_left _ hc) k hk
  · rcases List.mem_cons.1 hc with rfl | hc
    · exact h (r, u) (by simp) k hk
    · exact h c (List.mem_append_right _ (List.mem_cons_of_mem _ (List.mem_cons_of_mem _ hc))) k hk

/-- **`handle_underflow` on a leaf**: the entries stay. -/
theorem run_leafUnderflow {es : List (LeafEntry K)} (ht : TreeOK μ.view μ.root d A O) (hp : (p, u) ∈ A)
    (hv : μ.view p = some n) (hc : n.cells = .leaf es) (hpath : Path μ.view p path) (hroot : p ≠ μ.root) (hov : E .overflow)
    (hlone : ∀ q ∈ O, seps μ.view q = [] → E (.out_of_range INVALID_PAGE)) (hdonor : LevelDonors μ.view A p) :
    Run μ (handleUnderflow txn path p) E fun _ μ' => Resettled μ.view A O μ' := by
  have hleaf : n.isLeaf = true := by rw [Node.isLeaf, hc]
  obtain ⟨hL, hup, hnd⟩ := ht
  cases hpath with
  | root hv' hpar => exact absurd (hup.root_cell hp (.root hv' hpar)).1 hroot
  | @up _ _ path hv' hne hpath' =>
    rw [hv] at hv'; cases hv'
    obtain ⟨d, B, O, rfl, hB, hin, rfl, rfl⟩ := hup.under hp hv hne
    generalize hq : n.parent_page = q at hne hpath'
    have hpath : Path μ.view p (q :: path) := by subst hq; exact .up hv hne hpath'
    have hasc := ascending_of_order hL.order
    obtain ⟨w, hqB⟩ : ∃ w, (q, w) ∈ B := by
      obtain ⟨B₁, B₂, w, nq, es', r₁, r₂, hBq, -⟩ := hpath.seat hB hin hnd hasc hp hv
      exact ⟨w, by rw [hBq]; simp⟩
    have hkey : ∀ {a : Cell K} {m : Node K} {esm : List (LeafEntry K)}, a ∈ expand μ.view B → μ.view a.1 = some m →
        m.cells = .leaf esm → ∀ e ∈ esm, e ∈ content μ.view (expand μ.view B) := fun ha hm hcm e he =>
      List.mem_flatMap.2 ⟨_, ha, by rw [leafAt_eq hm hcm]; exact he⟩
    refine run_underflowStep (R := fun μ' => ∃ A', Releaved μ.view μ.root d B O q μ' A' ∧
        (SmallBounds (expand μ.view B) → SmallBounds A'))
      hB hin hnd hasc hp hv hpath (hlone q (List.mem_append_left _ (mem_ids_of_mem hqB))) ?_ ?_ ?_ ?_
    · intro B₁ B₂ r₁ r₂ w nq l κ nl hadj hl hd
      have hlA : (l, some κ) ∈ expand μ.view B := hadj.mem_level (by simp)
      obtain ⟨-, nl', esl, hl', hlc⟩ := hL.leaves _ hlA
      rw [hl] at hl'; cases hl'
      obtain ⟨es', hqc, -⟩ := hadj.cells
      have htwo := hdonor l nl esl (mem_ids_of_mem hlA) hadj.ne (beside_row hadj.parent hqc hadj.row).2 hl hlc hd
      rw [hleaf]
      refine run_mono (run_borrowLeafLeft hadj hL hl hlc hv hc hov htwo) ?_
      rintro ⟨⟩ μ' ⟨e, he, hrel, hsq⟩
      refine hrel.resettled hnd hsq fun hS hkeys => ?_
      rw [pair_level hadj] at hS
      exact smallBounds_recut hS (hkeys e (hkey hlA hl hlc e he))
    · intro B₁ B₂ r₁ r₂ w nq κ r u' nr hadj hu hr hd
      have hrA : (r, u') ∈ expand μ.view B := hadj.mem_level (by simp)
      obtain ⟨-, nr', esr, hr', hrc⟩ := hL.leaves _ hrA
      rw [hr] at hr'; cases hr'
      obtain ⟨es', hqc, -⟩ := hadj.cells
      have htwo := hdonor r nr esr (mem_ids_of_mem hrA) hadj.ne.symm (beside_row hadj.parent hqc hadj.row).1 hr hrc hd
      rw [hleaf]
      refine run_mono (run_borrowLeafRight hadj hL hv hc hr hrc hov htwo) ?_
      rintro ⟨⟩ μ' ⟨e, he, hrel, hsq⟩
      refine hrel.resettled hnd hsq fun hS hkeys => ?_
      rw [pair_level hadj] at hS
      exact smallBounds_recut hS (hkeys e (hkey hrA hr hrc e he))
    · intro B₁ B₂ r₁ r₂ w nq l κ r u' hadj _
      obtain ⟨-, nl, esl, hl, hlc⟩ := hL.leaves _ (hadj.mem_level (c := (l, some κ)) (by simp))
      obtain ⟨-, nr, esr, hr, hrc⟩ := hL.leaves _ (hadj.mem_level (c := (r, u')) (by simp))
      refine run_mono (run_mergeLeaf hadj hL hl hlc hr hrc hov) ?_
      rintro ⟨⟩ μ' hrel
      refine ⟨_, hrel, fun hS => ?_⟩
      rw [pair_level hadj] at hS
      exact smallBounds_merged hS
    · rintro μ' ⟨A', hrel, hS⟩
      refine run_mono (hrel.cascade (run_handleUnderflow hov path) hB hnd (ascending_of_order hrel.leaves.order) hqB hpath'
        fun p hp => hlone p (List.mem_append_right _ hp)) ?_
      rintro ⟨⟩ μ'' ⟨d₁, O₁, hlow, hthick⟩
      exact hrel.cascaded hnd hlow hS hthick

/-! ### The whole call -/

/-- **`remove`** in the caller's transaction: the entry of the key gone, or no such key. -/
theorem run_removeTx (ht : TreeOK μ.view μ.root d A O) (hov : E .overflow)
    (habsent : (∀ e ∈ content μ.view A, rank e.key ≠ rank x) → E (.key_not_found x))
    (hlone : ∀ q ∈ O, seps μ.view q = [] → E (.out_of_range INVALID_PAGE))
    (hdonor : ∀ pre c post, Loc A x pre c post → LevelDonors μ.view A c.1) :
    Run μ (removeTx txn x) E fun _ μ' => (∃ e ∈ content μ.view A, rank e.key = rank x) ∧ ∃ d' A' O',
      TreeOK μ'.view μ'.root d' A' O' ∧ content μ'.view A' = without (content μ.view A) x ∧
      Owned μ.view (ids A ++ O) μ'.view (ids A' ++ O') ∧
      (SmallBounds A → (∀ e ∈ content μ.view A, Small e.key) → Thick μ.view O → SmallBounds A' ∧ Thick μ'.view O') := by
  obtain ⟨pre, ⟨l, u⟩, post, hloc⟩ := ht.up.exists_loc (rising_of_order ht.loose.order) x
  obtain ⟨-, n, es, hl, hc⟩ := ht.leaves (l, u) hloc.mem
  obtain ⟨path, hpath, hrun⟩ := run_findLeaf (E := E) ht.loose hloc
  have hfind := findInLeaf_content ht.loose.order hloc
  rw [leafAt_eq hl hc] at hfind
  unfold removeTx
  refine run_bind hrun ?_
  rintro r₁ μ₁ ⟨hμ, hr⟩
  subst μ₁ hr
  refine run_getLeafEntries hl hc ?_
  cases hx : findInLeaf es x with
  | none =>
    rw [hx] at hfind
    exact run_throw (habsent (findInLeaf_none.1 hfind))
  | some val =>
    have hpresent : ∃ e ∈ content μ.view A, rank e.key = rank x := by
      by_contra hnone
      push Not at hnone
      rw [findInLeaf_none.2 hnone, hx] at hfind
      cases hfind
    dsimp only
    refine run_removeFromLeaf ht hloc hl hc hov fun n' hpar hc' ht' hcont => run_get fun s hs => ?_
    have hl' : (μ.set l n').view l = some n' := Mem.set_get ..
    have ho : ∀ p, p ≠ l → (μ.set l n').view p = μ.view p := fun p hp => by simp [hp]
    have hO := ht.above_same hloc.mem ho
    have howned : Owned μ.view (ids A ++ O) (μ.set l n').view (ids A ++ O) := Owned.same fun p hp =>
      ho p fun hpl => hp (by rw [hpl]; exact List.mem_append_left _ (mem_ids_of_mem hloc.mem))
    have hseps : ∀ q ∈ O, seps (μ.set l n').view q = seps μ.view q := fun q hq => by simp only [seps, hO q hq]
    have hthick : Thick μ.view O → Thick (μ.set l n').view O := fun h p hp => by rw [hseps p hp]; exact h p hp
    have hkeys : (∀ e ∈ content μ.view A, Small e.key) → ∀ e ∈ content (μ.set l n').view A, Small e.key := fun h e he => by
      rw [hcont] at he
      exact h e (mem_without.1 he).1
    have hdone : ∀ μ', Resettled (μ.set l n').view A O μ' → (∃ e ∈ content μ.view A, rank e.key = rank x) ∧ ∃ d' A' O',
        TreeOK μ'.view μ'.root d' A' O' ∧ content μ'.view A' = without (content μ.view A) x ∧
        Owned μ.view (ids A ++ O) μ'.view (ids A' ++ O') ∧
        (SmallBounds A → (∀ e ∈ content μ.view A, Small e.key) → Thick μ.view O → SmallBounds A' ∧ Thick μ'.view O') := by
      rintro μ' ⟨d', A', O', ht'', hcont', howned', hsmall⟩
      exact ⟨hpresent, d', A', O', ht'', hcont'.trans hcont, howned.trans howned',
        fun hA hk h => hsmall hA (hkeys hk) (hthick h)⟩
    refine run_ite (fun hroot => ?_) fun _ => run_pure (hdone _ (Resettled.refl ht'))
    refine run_fetchNode hl' (run_ite (fun _ => ?_) fun _ => run_pure (hdone _ (Resettled.refl ht')))
    have hpath' : Path (μ.set l n').view l path := hpath.congr fun q hq => by
      rcases List.mem_cons.1 hq with rfl | hq
      · intro m hm
        rw [hl] at hm; cases hm
        exact ⟨n', hl', hpar⟩
      · exact sameParent_of_eq (hO q (ht.up.path_mem (mem_ids_of_mem hloc.mem) hpath q hq))
    have hdonor' : LevelDonors (μ.set l n').view A l := by
      rintro q m esm hqA hql ⟨t, nt, est, hvt, hct, hside⟩ hm hcm hd
      have htl : t ≠ l := fun h => by
        rw [h, hl'] at hvt; cases hvt
        rw [hc'] at hct; cases hct
      rw [ho t htl] at hvt
      rw [ho q hql] at hm
      exact hdonor pre (l, u) post hloc q m esm hqA hql ⟨t, nt, est, hvt, hct, hside⟩ hm hcm hd
    refine run_mono (run_leafUnderflow ht' hloc.mem hl' hc' hpath' (by rw [← hs.root]; exact hroot) hov
      (fun q hq h => hlone q hq (by rwa [← hseps q hq])) hdonor') fun _ μ' h => hdone μ' h

end GSDBEngine
