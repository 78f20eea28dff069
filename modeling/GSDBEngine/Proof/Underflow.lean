import GSDBEngine.Proof.Inner

/-!
# Underflow

A page left with too little borrows from a sibling or merges with one; a merge may leave
the parent with too little, and so on up the path. The level the page stands on keeps
the level below it; the pages above are rebuilt, none of them new (`Lowered`).

* `run_underflowStep`: one page of any level, over what borrowing and merging do there.
* `run_collapseRoot`: a root without separators gives way to its only child.
* `run_handleUnderflow`: a page of an internal level, by induction on its path.
-/

namespace GSDBEngine

set_option linter.unusedSectionVars false

open KeyRank BTree

variable {K L : Type} [KeyOps K] [LinearOrder L] [KeyRank K L]
variable {v v' : View K} {root : PageId} {d : ℕ} {A B C : Level K} {O : List PageId} {b c : Cell K} {x κ : K}
  {p q l r : PageId} {μ μ' : Mem K} {E : Err K → Prop} {txn : ℕ} {u w : Option K} {path : List PageId} {n : Node K}

theorem Up.root_alive (h : Up v root d A O) : ∃ m, v root = some m ∧ m.parent_page = INVALID_PAGE := by
  induction h with
  | root hv hpar => exact ⟨_, hv, hpar⟩
  | down _ _ ih => exact ih

/-- No child twice in a row. -/
theorem row_nodup_of {B₁ B₂ : Level K} {nq : Node K} {P : List PageId} (hnd : (ids (expand v B) ++ P).Nodup)
    (hB : B = B₁ ++ (q, w) :: B₂) (hq : v q = some nq) (hrow : nq.row w = C) : (ids C).Nodup := by
  have h := (List.nodup_append.1 hnd).1
  rw [hB, expand_append, expand_cons, ids_append, ids_append] at h
  have hrow' : rowAt v (q, w) = C := by rw [← hrow]; simp [rowAt, hq]
  rw [← hrow']
  exact (List.nodup_append.1 (List.nodup_append.1 h).2.1).1

/-! ### One step -/

/-- What `handle_underflow` goes on with after a merge under `q`. -/
def cascade (txn : ℕ) (path : List PageId) (q : PageId) : M K Unit := do
  let s ← get
  if q = s.root_page then
    handleUnderflow txn path q
  else
    let parent ← fetchNode q
    if parent.isUnderfull then
      handleUnderflow txn path q

/-- The merge of `r` into `l` under `q`. -/
def mergePair (txn : ℕ) (q l r : PageId) (κ : K) : M K Unit :=
  mergeContents txn l r κ >>= fun _ => writePageThroughWal txn l >>= fun _ =>
    removeSeparator q l r κ >>= fun _ => writePageThroughWal txn q >>= fun _ => freePage txn r

section step

variable (hup : Up μ.view μ.root d B O) (hin : ∀ b ∈ B, Inner μ.view b)
  (hnd : (ids (expand μ.view B) ++ (ids B ++ O)).Nodup) (hasc : Ascending (expand μ.view B))
  (hp : (p, u) ∈ expand μ.view B) (hv : μ.view p = some n) (hpath : Path μ.view p (q :: path))
include hup hin hnd hasc hp hv hpath

/-- A page and its row in its parent. -/
theorem Path.seat : ∃ B₁ B₂ w nq es r₁ r₂, B = B₁ ++ (q, w) :: B₂ ∧ μ.view q = some nq ∧ nq.cells = .internal es ∧
    nq.row w = r₁ ++ (p, u) :: r₂ := by
  obtain ⟨⟨q', w⟩, hb, hc⟩ := mem_expand.1 hp
  obtain ⟨-, nq, es, hq, hcells, hch⟩ := hin _ hb
  have hc' := hc
  rw [rowAt_eq hq hcells] at hc
  obtain ⟨m, hm, hmp⟩ := hch _ hc
  obtain rfl : q = q' := (hpath.parent_eq hm).1.symm.trans hmp
  obtain ⟨B₁, B₂, hB⟩ := List.append_of_mem hb
  obtain ⟨r₁, r₂, hrow⟩ := List.append_of_mem hc
  exact ⟨B₁, B₂, w, nq, es, r₁, r₂, hB, hq, hcells, by rw [Node.row, hcells]; exact hrow⟩

/-- **`try_redistribute`**: nothing is done, or a sibling that is not underfull donates. -/
theorem run_tryRedistribute {P : Mem K → Prop}
    (hleft : ∀ B₁ B₂ r₁ r₂ w nq l κ nl, Adjacent μ.view μ.root d B O B₁ B₂ r₁ r₂ q w nq l κ p u → μ.view l = some nl →
      nl.isUnderfull = false → Run μ (borrowLeft txn n.isLeaf p q l κ) E fun _ => P)
    (hright : ∀ B₁ B₂ r₁ r₂ w nq κ r u' nr, Adjacent μ.view μ.root d B O B₁ B₂ r₁ r₂ q w nq p κ r u' → u = some κ →
      μ.view r = some nr → nr.isUnderfull = false →
      (∀ r' l κ' nl, r₁ = r' ++ [(l, some κ')] → μ.view l = some nl → nl.isUnderfull = true) →
      Run μ (borrowRight txn n.isLeaf p q r κ) E fun _ => P) :
    Run μ (tryRedistribute txn p q) E fun done μ' => (done = true ∧ P μ') ∨ (done = false ∧ μ' = μ) := by
  obtain ⟨B₁, B₂, w, nq, es, r₁, r₂, hB, hq, hc, hrow⟩ := hpath.seat hup hin hnd hasc hp hv
  have hndrow := row_nodup_of hnd hB hq hrow
  unfold tryRedistribute
  refine run_findSiblings hq hc hrow hndrow fun sib hfound => run_fetchNode hv ?_
  obtain ⟨left, right⟩ := sib
  -- the right sibling is asked when the left one is missing or cannot donate
  have hasked : (left = none ∧ r₁ = []) ∨ ∃ r' l κ nl, left = some (l, κ) ∧ r₁ = r' ++ [(l, some κ)] ∧ μ.view l = some nl ∧
      (nl.isUnderfull = true ∨ Adjacent μ.view μ.root d B O B₁ B₂ r' r₂ q w nq l κ p u ∧ nl.isUnderfull = false) := by
    cases left with
    | none => exact Or.inl ⟨rfl, hfound.first rfl⟩
    | some lk =>
      obtain ⟨l, κ⟩ := lk
      obtain ⟨r', rfl⟩ := hfound.left l κ rfl
      have hadj : Adjacent μ.view μ.root d B O B₁ B₂ r' r₂ q w nq l κ p u :=
        ⟨hup, hin, hnd, hasc, hB, hq, by rw [hrow]; simp⟩
      obtain ⟨nl, hl⟩ := (Up.down hup hin).alive (c := (l, some κ)) (hadj.mem_level (by simp))
      refine Or.inr ⟨r', l, κ, nl, rfl, rfl, hl, ?_⟩
      cases hd : nl.isUnderfull with
      | false => exact Or.inr ⟨hadj, rfl⟩
      | true => exact Or.inl rfl
  have hcannot : (left = none ∧ r₁ = []) ∨ (∃ r' l κ nl, left = some (l, κ) ∧ r₁ = r' ++ [(l, some κ)] ∧ μ.view l = some nl ∧
      nl.isUnderfull = true) → ∀ r' l κ' nl, r₁ = r' ++ [(l, some κ')] → μ.view l = some nl → nl.isUnderfull = true := by
    rintro (⟨-, hnil⟩ | ⟨r', l, κ, nl, -, hr₁, hl, hd⟩) r'' l' κ' nl' hr₁' hl'
    · rw [hnil] at hr₁'
      simp at hr₁'
    · rw [hr₁] at hr₁'
      obtain ⟨-, hcell⟩ := List.append_inj' hr₁' rfl
      obtain ⟨rfl, -⟩ := Prod.mk.inj (List.singleton_inj.1 hcell)
      rw [hl] at hl'
      cases hl'
      exact hd
  rcases hasked with ⟨rfl, hr₁⟩ | ⟨r', l, κ, nl, rfl, hr₁, hl, hd | ⟨hadj, hd⟩⟩
  on_goal 1 =>
    replace hcannot := hcannot (Or.inl ⟨rfl, hr₁⟩)
  on_goal 2 =>
    replace hcannot := hcannot (Or.inr ⟨r', l, κ, nl, rfl, hr₁, hl, hd⟩)
    rw [canDonate, bind_assoc]
    refine run_fetchNode hl ?_
    rw [pure_bind, hd]
  on_goal 3 =>
    rw [canDonate, bind_assoc]
    refine run_fetchNode hl ?_
    rw [pure_bind, hd]
    exact run_bind (hleft _ _ _ _ _ _ _ _ _ hadj hl hd) fun _ μ' h => run_pure (Or.inl ⟨rfl, h⟩)
  all_goals
    cases right with
    | none => exact run_pure (Or.inr ⟨rfl, rfl⟩)
    | some rk =>
      obtain ⟨r, κ⟩ := rk
      obtain ⟨rfl, u', r', rfl⟩ := hfound.right r κ rfl
      have hadj : Adjacent μ.view μ.root d B O B₁ B₂ r₁ r' q w nq p κ r u' := ⟨hup, hin, hnd, hasc, hB, hq, hrow⟩
      obtain ⟨nr, hr⟩ := (Up.down hup hin).alive (c := (r, u')) (hadj.mem_level (by simp))
      show Run μ (canDonate (some (r, κ)) >>= _) E _
      rw [canDonate, bind_assoc]
      refine run_fetchNode hr ?_
      rw [pure_bind]
      cases hd : nr.isUnderfull with
      | false =>
        refine run_bind (hright _ _ _ _ _ _ _ _ _ _ hadj rfl hr hd hcannot) fun _ μ' h => run_pure (Or.inl ⟨rfl, h⟩)
      | true => exact run_pure (Or.inr ⟨rfl, rfl⟩)

/-- **`merge_with_sibling`**: the right page of two neighbours goes into the left one. -/
theorem run_mergeWithSibling {P : Mem K → Prop} (hlone : seps μ.view q = [] → E (.out_of_range INVALID_PAGE))
    (hmerge : ∀ B₁ B₂ r₁ r₂ w nq l κ r u', Adjacent μ.view μ.root d B O B₁ B₂ r₁ r₂ q w nq l κ r u' → p = l ∨ p = r →
      Run μ (mergePair txn q l r κ) E fun _ => P) : Run μ (mergeWithSibling txn p q) E fun _ => P := by
  obtain ⟨B₁, B₂, w, nq, es, r₁, r₂, hB, hq, hc, hrow⟩ := hpath.seat hup hin hnd hasc hp hv
  have hndrow := row_nodup_of hnd hB hq hrow
  unfold mergeWithSibling
  refine run_findSiblings hq hc hrow hndrow fun sib hfound => ?_
  obtain ⟨left, right⟩ := sib
  cases left with
  | some lk =>
    obtain ⟨l, κ⟩ := lk
    obtain ⟨r', rfl⟩ := hfound.left l κ rfl
    have hadj : Adjacent μ.view μ.root d B O B₁ B₂ r' r₂ q w nq l κ p u :=
      ⟨hup, hin, hnd, hasc, hB, hq, by rw [hrow]; simp⟩
    exact hmerge _ _ _ _ _ _ _ _ _ _ hadj (Or.inr rfl)
  | none =>
    cases right with
    | some rk =>
      obtain ⟨r, κ⟩ := rk
      obtain ⟨rfl, u', r', rfl⟩ := hfound.right r κ rfl
      exact hmerge _ _ _ _ _ _ _ _ _ _ ⟨hup, hin, hnd, hasc, hB, hq, hrow⟩ (Or.inl rfl)
    | none =>
      obtain rfl := hfound.first rfl
      obtain rfl := hfound.last rfl
      refine run_throw (hlone ?_)
      rw [seps_eq hq hc]
      have hlen := congrArg List.length hrow
      rw [Node.row, hc] at hlen
      simpa [cellsOf] using hlen

/-- **`handle_underflow`** below the root. -/
theorem run_underflowStep {P R : Mem K → Prop} (hlone : seps μ.view q = [] → E (.out_of_range INVALID_PAGE))
    (hleft : ∀ B₁ B₂ r₁ r₂ w nq l κ nl, Adjacent μ.view μ.root d B O B₁ B₂ r₁ r₂ q w nq l κ p u → μ.view l = some nl →
      nl.isUnderfull = false → Run μ (borrowLeft txn n.isLeaf p q l κ) E fun _ => P)
    (hright : ∀ B₁ B₂ r₁ r₂ w nq κ r u' nr, Adjacent μ.view μ.root d B O B₁ B₂ r₁ r₂ q w nq p κ r u' → u = some κ →
      μ.view r = some nr → nr.isUnderfull = false → Run μ (borrowRight txn n.isLeaf p q r κ) E fun _ => P)
    (hmerge : ∀ B₁ B₂ r₁ r₂ w nq l κ r u', Adjacent μ.view μ.root d B O B₁ B₂ r₁ r₂ q w nq l κ r u' → p = l ∨ p = r →
      Run μ (mergePair txn q l r κ) E fun _ => R) (hcascade : ∀ μ', R μ' → Run μ' (cascade txn path q) E fun _ => P) :
    Run μ (handleUnderflow txn (q :: path) p) E fun _ => P := by
  unfold handleUnderflow
  refine run_get fun s hs => ?_
  have hroot : p ≠ s.root_page := fun h => by
    obtain ⟨m, hm, hmp⟩ := hup.root_alive
    obtain ⟨hpar, hne, -⟩ := hpath.parent_eq hv
    rw [h, hs.root, hm] at hv; cases hv
    exact hne (hpar.symm.trans hmp)
  rw [if_neg hroot]
  refine run_bind (run_tryRedistribute hup hin hnd hasc hp hv hpath hleft
    fun B₁ B₂ r₁ r₂ w nq κ r u' nr hadj hu hr hd _ => hright B₁ B₂ r₁ r₂ w nq κ r u' nr hadj hu hr hd) fun done μ' h => ?_
  rcases h with ⟨rfl, h⟩ | ⟨rfl, rfl⟩
  · exact run_pure h
  · exact run_bind (run_mergeWithSibling hup hin hnd hasc hp hv hpath hlone hmerge) fun _ μ' h => hcascade μ' h

end step

/-! ### The levels above, lowered -/

/-- The level `C` under lowered levels `O'`; `v` and `O` are as before. -/
structure Lowered (v : View K) (O : List PageId) (μ : Mem K) (C : Level K) (d : ℕ) (O' : List PageId) : Prop where
  up : Up μ.view μ.root d C O'
  sub : O'.Sublist O
  /-- the pages of the level keep what they hold -/
  keep : ∀ p ∈ ids C, Moved v μ.view p
  frame : ∀ p, p ∉ ids C → p ∉ O → μ.view p = v p
  gone : ∀ p ∈ O, p ∉ O' → μ.view p = none

theorem Lowered.refl (hup : Up μ.view μ.root d C O) : Lowered μ.view O μ C d O where
  up := hup
  sub := List.Sublist.refl _
  keep _ _ := moved_of_eq rfl
  frame _ _ _ := rfl
  gone _ hp hp' := absurd hp hp'

theorem Lowered.owned {O' : List PageId} (h : Lowered v O μ C d O') : Owned v (ids C ++ O) μ.view (ids C ++ O') where
  frame p hp _ := by
    rw [List.mem_append, not_or] at hp
    exact h.frame p hp.1 hp.2
  fresh p hp := Or.inl ((List.Sublist.refl _).append h.sub |>.subset hp)
  gone p hp hp' := by
    rw [List.mem_append, not_or] at hp'
    exact h.gone p ((List.mem_append.1 hp).resolve_left hp'.1) hp'.2

/-- Every page but `q` has a separator. -/
def ThickBut (v : View K) (q : PageId) (O : List PageId) : Prop := ∀ p ∈ O, p ≠ q → seps v p ≠ []

/-- **The levels above a level that was rebalanced and then lowered.** -/
theorem Renoded.below {O₁ : List PageId} {d₁ : ℕ} (h : Renoded v root d B O q l r μ A) (h₁ : Lowered μ.view (ids B ++ O) μ' A d₁ O₁)
    (hnd : (ids (expand v (expand v B)) ++ (ids (expand v B) ++ (ids B ++ O))).Nodup) :
    Lowered v (ids (expand v B) ++ (ids B ++ O)) μ' (expand v (expand v B)) (d₁ + 1) (ids A ++ O₁) := by
  have hdis := (List.nodup_append.1 hnd).2.2
  have hdisA := (List.nodup_append.1 (List.nodup_append.1 hnd).2.1).2.2
  have hbelow : ∀ p ∈ ids (expand v (expand v B)), μ'.view p = μ.view p := fun p hp =>
    h₁.frame p (fun hA => hdis p hp p (List.mem_append_left _ (h.sub.subset hA)) rfl)
      fun hO => hdis p hp p (List.mem_append_right _ hO) rfl
  have hrow : ∀ a ∈ A, rowAt μ'.view a = rowAt μ.view a := fun a ha => by
    obtain ⟨-, n, es, hv, -⟩ := h.nodes a ha
    exact rowAt_sameRow hv (h₁.keep a.1 (mem_ids_of_mem ha)).sameRow
  have hexp : expand μ'.view A = expand v (expand v B) := (expand_congr hrow).trans h.same
  have hnodes : ∀ a ∈ A, Inner μ'.view a := fun a ha =>
    (h.nodes a ha).congr (h₁.keep a.1 (mem_ids_of_mem ha)).sameRow fun c hc =>
      sameParent_of_eq (hbelow c.1 (by rw [← h.same]; exact mem_ids_of_mem (mem_expand.2 ⟨a, ha, hc⟩)))
  refine ⟨?_, h.sub.append h₁.sub, fun p hp => ?_, fun p hpC hpO => ?_, fun p hp hp' => ?_⟩
  · rw [← hexp]
    exact .down h₁.up hnodes
  · exact (h.keep p hp).trans (moved_of_eq (hbelow p hp))
  · rw [← h.frame p hpC hpO]
    rw [List.mem_append, not_or] at hpO
    exact h₁.frame p (fun hA => hpO.1 (h.sub.subset hA)) hpO.2
  · rw [List.mem_append, not_or] at hp'
    rcases List.mem_append.1 hp with hp | hp
    · rw [h₁.frame p hp'.1 fun hO => hdisA p hp p hO rfl]
      exact h.gone p hp hp'.1
    · exact h₁.gone p hp hp'.2

/-- The nodes after two were rewritten have a separator each. -/
theorem Renoded.thick (h : Renoded v root d B O q l r μ A) (hl : seps μ.view l ≠ []) (hr : r ∈ ids A → seps μ.view r ≠ [])
    (hp : p = l ∨ p = r) (hthick : ThickBut v p (ids (expand v B))) : ∀ a ∈ ids A, seps μ.view a ≠ [] := by
  intro a ha
  by_cases hal : a = l
  · rw [hal]; exact hl
  · by_cases har : a = r
    · subst har; exact hr ha
    · have hap : a ≠ p := by rintro rfl; exact hp.elim hal har
      have hva := h.side a (h.sub.subset ha) hal har
      rw [show seps μ.view a = seps v a by simp only [seps, hva]]
      exact hthick a (h.sub.subset ha) hap

/-! ### The root -/

theorem Up.root_cell (hup : Up v root d B O) (hq : (q, w) ∈ B) (hpath : Path v q []) :
    q = root ∧ B = [(root, none)] ∧ O = [] := by
  cases hup with
  | root hv hpar => exact ⟨(Prod.mk.inj (List.mem_singleton.1 hq)).1, rfl, rfl⟩
  | down hB hin =>
    obtain ⟨b, hb, hc⟩ := mem_expand.1 hq
    obtain ⟨hne, n, es, hv, hcells, hch⟩ := hin b hb
    rw [rowAt_eq hv hcells] at hc
    obtain ⟨m, hm, hmp⟩ := hch _ hc
    cases hpath with
    | root hv' hpar' =>
      rw [hm] at hv'; cases hv'
      exact absurd (hmp.symm.trans hpar') hne

/-- **The root collapses** to its only child, or has two and stays. -/
theorem run_collapseRoot (hup : Up μ.view μ.root 0 [(μ.root, none)] []) (hin : Inner μ.view (μ.root, none))
    (hnd : (ids (rowAt μ.view (μ.root, none)) ++ [μ.root]).Nodup) : Run μ (collapseRoot txn μ.root) E fun _ μ' =>
      ∃ d' O', Lowered μ.view [μ.root] μ' (rowAt μ.view (μ.root, none)) d' O' ∧ Thick μ'.view O' := by
  obtain ⟨hne, n, es, hv, hc, hch⟩ := hin
  have hrow := rowAt_eq (c := (μ.root, none)) hv hc
  intro s hs
  refine (?_ : Run μ (collapseRoot txn μ.root) E _) s hs
  unfold collapseRoot
  refine run_fetchNode hv ?_
  have hleaf : n.isLeaf = false := by rw [Node.isLeaf, hc]
  have hnum : n.num_cells = es.length := by rw [Node.num_cells, hc]
  cases es with
  | nil =>
    rw [hrow]
    obtain ⟨m, hm, hmp⟩ := hch (n.rightmost_child, none) (by simp [cellsOf])
    have hrm : n.rightmost_child ≠ μ.root := fun h => by
      rw [hrow] at hnd
      simp [cellsOf, h] at hnd
    rw [if_pos (by simp [hleaf, hnum, hs.ne_invalid hm])]
    refine run_setParentPage hm (run_writePage (run_setRoot ?_))
    refine run_last (run_freePage (n := n) (by simp [hrm.symm, hv]) (run_pure ⟨0, [], ⟨?_, ?_, ?_, ?_, ?_⟩, ?_⟩))
    · refine .root (n := { m with parent_page := INVALID_PAGE }) ?_ rfl
      simp [hrm]
    · exact List.nil_sublist _
    · intro p hp n' hn'
      obtain rfl : p = n.rightmost_child := by simpa [cellsOf] using hp
      rw [hm] at hn'; cases hn'
      exact ⟨INVALID_PAGE, by simp [hrm]⟩
    · intro p hp hp'
      have h1 : p ≠ n.rightmost_child := by simpa [cellsOf] using hp
      have h2 : p ≠ μ.root := by simpa using hp'
      simp [h1, h2]
    · intro p hp _
      rw [List.mem_singleton.1 hp]
      simp
    · intro p hp; cases hp
  | cons e es =>
    rw [if_neg (by simp [hnum])]
    refine run_pure ⟨1, [μ.root], Lowered.refl ?_, fun p hp => ?_⟩
    · have hdown := Up.down hup (fun b hb => by
        rw [List.mem_singleton.1 hb]; exact ⟨hne, n, _, hv, hc, hch⟩)
      simpa using hdown
    · rw [List.mem_singleton.1 hp, seps_eq hv hc]
      simp

/-! ### Up the path -/

/-- What `handle_underflow` does to a page `q` of the internal level `B`: the level below is kept. -/
def UnderflowSpec (E : Err K → Prop) (txn : ℕ) (path : List PageId) : Prop :=
  ∀ ⦃μ : Mem K⦄ ⦃d : ℕ⦄ ⦃B : Level K⦄ ⦃O : List PageId⦄ ⦃q : PageId⦄ ⦃w : Option K⦄,
    Up μ.view μ.root d B O → (∀ b ∈ B, Inner μ.view b) → (ids (expand μ.view B) ++ (ids B ++ O)).Nodup →
    Ascending (expand μ.view B) → (q, w) ∈ B → Path μ.view q path →
    (∀ p ∈ O, seps μ.view p = [] → E (.out_of_range INVALID_PAGE)) →
    Run μ (handleUnderflow txn path q) E fun _ μ' =>
      ∃ d' O', Lowered μ.view (ids B ++ O) μ' (expand μ.view B) d' O' ∧
        (SmallBounds (expand μ.view B) → ThickBut μ.view q (ids B ++ O) → Thick μ'.view O')

/-- A node that is not underfull has a cell. -/
theorem seps_of_not_underfull {es : List (InternalEntry K)} (hv : v q = some n) (hc : n.cells = .internal es)
    (h : n.isUnderfull = false) : seps v q ≠ [] := by
  rw [seps_eq hv hc]
  intro hnil
  have hes : es = [] := List.map_eq_nil_iff.1 hnil
  have hcap : CAPACITY / 2 = 2039 := rfl
  simp [Node.isUnderfull, Node.used_space, hc, hes, Cells.bytes, hcap] at h

theorem run_cascade (hs : UnderflowSpec (K := K) E txn path) (hup : Up μ.view μ.root d B O) (hin : ∀ b ∈ B, Inner μ.view b)
    (hnd : (ids (expand μ.view B) ++ (ids B ++ O)).Nodup) (hasc : Ascending (expand μ.view B)) (hq : (q, w) ∈ B)
    (hpath : Path μ.view q path) (hlone : ∀ p ∈ O, seps μ.view p = [] → E (.out_of_range INVALID_PAGE)) :
    Run μ (cascade txn path q) E fun _ μ' => ∃ d' O', Lowered μ.view (ids B ++ O) μ' (expand μ.view B) d' O' ∧
      (SmallBounds (expand μ.view B) → ThickBut μ.view q (ids B ++ O) → Thick μ'.view O') := by
  have hrec := hs hup hin hnd hasc hq hpath hlone
  unfold cascade
  refine run_get fun s hsμ => run_ite (fun _ => hrec) fun _ => ?_
  obtain ⟨-, n, es, hv, hc, -⟩ := hin _ hq
  refine run_fetchNode hv (run_ite (fun _ => hrec) fun hfull => run_pure ?_)
  refine ⟨d + 1, ids B ++ O, Lowered.refl (.down hup hin), fun _ hthick p hp => ?_⟩
  by_cases hpq : p = q
  · rw [hpq]
    exact seps_of_not_underfull hv hc (by simpa using hfull)
  · exact hthick p hp hpq

/-- **The cascade after a merge** under `q`. -/
theorem Rebalanced.cascade {A' : Level K} (h : Rebalanced μ.view μ.root d B O q μ' A') (hs : UnderflowSpec (K := K) E txn path)
    (hup : Up μ.view μ.root d B O) (hnd : (ids (expand μ.view B) ++ (ids B ++ O)).Nodup) (hasc : Ascending A')
    (hq : (q, w) ∈ B) (hpath : Path μ.view q path) (hlone : ∀ p ∈ O, seps μ.view p = [] → E (.out_of_range INVALID_PAGE)) :
    Run μ' (cascade txn path q) E fun _ μ'' => ∃ d' O', Lowered μ'.view (ids B ++ O) μ'' A' d' O' ∧
      (SmallBounds A' → ThickBut μ'.view q (ids B ++ O) → Thick μ''.view O') := by
  have hup' : Up μ'.view μ'.root d B O := by rw [h.same_root]; exact h.up
  have hnd' : (ids (expand μ'.view B) ++ (ids B ++ O)).Nodup := by
    rw [h.level]
    exact hnd.sublist (h.sub.append (List.Sublist.refl _))
  have hpath' : Path μ'.view q path := hpath.congr fun p hp => by
    by_cases hpq : p = q
    · rw [hpq]; exact h.parent
    · have hpO := hup.path_mem (mem_ids_of_mem hq) hpath p (List.mem_of_ne_of_mem hpq hp)
      exact sameParent_of_eq (h.above p (List.mem_append_right _ hpO) hpq)
  have hlone' : ∀ p ∈ O, seps μ'.view p = [] → E (.out_of_range INVALID_PAGE) := fun p hp hnil => by
    have hpq : p ≠ q := fun h => (List.nodup_append.1 (List.nodup_append.1 hnd).2.1).2.2 q (mem_ids_of_mem hq) p hp h.symm
    refine hlone p hp ?_
    rwa [show seps μ.view p = seps μ'.view p by simp only [seps, h.above p (List.mem_append_right _ hp) hpq]]
  have hrun := run_cascade hs hup' h.inner hnd' (by rw [h.level]; exact hasc) hq hpath' hlone'
  rwa [h.level] at hrun

/-- A node that may donate, with small separators, has two. -/
theorem two_le_of_donor {es : List (InternalEntry K)} (hc : n.cells = .internal es) (h : n.isUnderfull = false)
    (hsmall : ∀ k ∈ es.map InternalEntry.key, Small k) : 2 ≤ es.length := by
  have hle := sepSize_le hsmall
  have hcap : CAPACITY = 4079 := rfl
  rw [Node.isUnderfull, Node.used_space, hc, internal_bytes_length, decide_eq_false_iff_not, hcap] at h
  rw [List.length_map, hcap] at hle
  omega

/-- After a rebalancing that left the parent alone: the levels above stay. -/
theorem Renoded.settled (h : Renoded v root d B O q l r μ A)
    (hnd : (ids (expand v (expand v B)) ++ (ids (expand v B) ++ (ids B ++ O))).Nodup) :
    Lowered v (ids (expand v B) ++ (ids B ++ O)) μ (expand v (expand v B)) (d + 1 + 1) (ids A ++ (ids B ++ O)) := by
  have hup : Up μ.view μ.root (d + 1) A (ids B ++ O) := by
    rw [h.same_root, ← h.level]
    exact .down h.up h.inner
  exact h.below (Lowered.refl hup) hnd

/-- The pages above, after a borrow under `q`. -/
theorem Renoded.thick_above (h : Renoded v root d B O q l r μ A) (hq : seps μ.view q ≠ [])
    (hthick : ∀ p ∈ ids B ++ O, p ≠ q → seps v p ≠ []) : Thick μ.view (ids B ++ O) := by
  intro p hp
  by_cases hpq : p = q
  · rw [hpq]; exact hq
  · rw [show seps μ.view p = seps v p by simp only [seps, h.above p hp hpq]]
    exact hthick p hp hpq

section borrowed

variable {B₁ B₂ r₁ r₂ : Level K} {nq : Node K} {esl esr : List (InternalEntry K)} {nl nr : Node K}

/-- After a borrow between internal nodes, seen from one of the two. -/
theorem Borrowed.lowered {i j : ℕ} (hnd : (ids (expand μ.view (expand μ.view B)) ++ (ids (expand μ.view B) ++ (ids B ++ O))).Nodup)
    (hp : p = l ∨ p = r) (hl : SmallBounds (expand μ.view (expand μ.view B)) → 0 < i)
    (hr : SmallBounds (expand μ.view (expand μ.view B)) → 0 < j)
    (h : Borrowed μ d B O B₁ B₂ r₁ r₂ q l r u i j μ') :
    ∃ d' O', Lowered μ.view (ids (expand μ.view B) ++ (ids B ++ O)) μ' (expand μ.view (expand μ.view B)) d' O' ∧
      (SmallBounds (expand μ.view (expand μ.view B)) → ThickBut μ.view p (ids (expand μ.view B) ++ (ids B ++ O)) →
        Thick μ'.view O') := by
  obtain ⟨κ', hren, hi, hj, hq⟩ := h
  refine ⟨_, _, hren.settled hnd, fun hS hthick a ha => ?_⟩
  have hpA : p ∈ ids (expand μ.view B) := by
    refine hren.sub.subset ?_
    rcases hp with rfl | rfl <;> simp
  have hdis := (List.nodup_append.1 (List.nodup_append.1 hnd).2.1).2.2
  rcases List.mem_append.1 ha with ha | ha
  · refine hren.thick (List.length_pos_iff.1 ?_) (fun _ => List.length_pos_iff.1 ?_) hp
      (fun p hp => hthick p (List.mem_append_left _ hp)) a ha
    · rw [hi]; exact hl hS
    · rw [hj]; exact hr hS
  · exact hren.thick_above hq (fun b hb _ => hthick b (List.mem_append_right _ hb) fun hbp => hdis p hpA b hb hbp.symm) a ha

end borrowed

/-- **`handle_underflow`** on an internal level. -/
theorem run_handleUnderflow (hov : E .overflow) : ∀ path : List PageId, UnderflowSpec (K := K) E txn path := by
  intro path
  induction path with
  | nil =>
    intro μ d B O q w hup hin hnd hasc hq hpath _
    obtain ⟨rfl, rfl, rfl⟩ := hup.root_cell hq hpath
    have hrow : expand μ.view [(μ.root, none)] = rowAt μ.view (μ.root, none) := by simp
    have hd : d = 0 := by
      have := hup.depth_le
      simpa using this
    subst hd
    rw [hrow] at hnd ⊢
    unfold handleUnderflow
    refine run_get fun s hs => ?_
    rw [if_pos hs.root.symm]
    refine run_mono (run_collapseRoot hup (hin (μ.root, none) (by simp)) hnd) ?_
    rintro ⟨⟩ μ' ⟨d', O', hlow, hthick⟩
    exact ⟨d', O', hlow, fun _ _ => hthick⟩
  | cons q' path ih =>
    intro μ d B O q w hup hin hnd hasc hq hpath hlone
    obtain ⟨-, n, es, hv, hc, -⟩ := hin _ hq
    obtain ⟨hpar, hne, hpath'⟩ := hpath.parent_eq hv
    obtain ⟨d, D, O, rfl, hD, hinD, rfl, rfl⟩ := hup.under hq hv (hpar ▸ hne)
    have hndD := (List.nodup_append.1 hnd).2.1
    have hascD := hasc.of_expand hin
    have hinternal : n.isLeaf = false := by rw [Node.isLeaf, hc]
    have hqD : ∃ w', (q', w') ∈ D := by
      obtain ⟨B₁, B₂, w', nq, es', r₁, r₂, hB, -⟩ := hpath.seat hD hinD hndD hascD hq hv
      exact ⟨w', by rw [hB]; simp⟩
    obtain ⟨w', hqD⟩ := hqD
    have hdonor : ∀ {a : Cell K} {m : Node K} {esm : List (InternalEntry K)}, a ∈ expand μ.view D → μ.view a.1 = some m →
        m.cells = .internal esm → m.isUnderfull = false → SmallBounds (expand μ.view (expand μ.view D)) → 2 ≤ esm.length := by
      intro a m esm ha hm hcm hd hS
      refine two_le_of_donor hcm hd ?_
      rw [← seps_eq hm hcm]
      exact hS.row hin ha
    have hnodes : ∀ {a : Cell K} {m : Node K}, a ∈ expand μ.view D → μ.view a.1 = some m → ∃ esm, m.cells = .internal esm := by
      intro a m ha hm
      obtain ⟨-, m', esm, hm', hcm, -⟩ := hin a ha
      rw [hm] at hm'; cases hm'
      exact ⟨esm, hcm⟩
    refine run_underflowStep (R := fun μ' => ∃ l r A', Renoded μ.view μ.root d D O q' l r μ' A' ∧
        (ThickBut μ.view q (ids (expand μ.view D)) → ∀ a ∈ ids A', seps μ'.view a ≠ []))
      hD hinD hndD hascD hq hv hpath (hlone q' (List.mem_append_left _ (mem_ids_of_mem hqD))) ?_ ?_ ?_ ?_
    · intro B₁ B₂ r₁ r₂ w nq l κ nl hadj hl hd
      have hlA : (l, some κ) ∈ expand μ.view D := hadj.mem_level (by simp)
      obtain ⟨esl, hlc⟩ := hnodes hlA hl
      rw [hinternal]
      refine run_mono (run_borrowInternalLeft hadj hin hnd hl hlc hv hc hov fun hnil =>
        seps_of_not_underfull hl hlc hd (by rw [seps_eq hl hlc, hnil]; rfl)) fun _ μ' h => ?_
      refine h.lowered hnd (Or.inr rfl) (fun hS => ?_) fun _ => Nat.succ_pos _
      have := hdonor hlA hl hlc hd hS
      omega
    · intro B₁ B₂ r₁ r₂ w nq κ r u' nr hadj hu hr hd
      have hrA : (r, u') ∈ expand μ.view D := hadj.mem_level (by simp)
      obtain ⟨esr, hrc⟩ := hnodes hrA hr
      rw [hinternal]
      refine run_mono (run_borrowInternalRight hadj hin hnd hv hc hr hrc hov fun hnil =>
        seps_of_not_underfull hr hrc hd (by rw [seps_eq hr hrc, hnil]; rfl)) fun _ μ' h => ?_
      refine h.lowered hnd (Or.inl rfl) (fun _ => Nat.succ_pos _) fun hS => ?_
      have := hdonor hrA hr hrc hd hS
      omega
    · intro B₁ B₂ r₁ r₂ w nq l κ r u' hadj hside
      have hlA : (l, some κ) ∈ expand μ.view D := hadj.mem_level (by simp)
      have hrA : (r, u') ∈ expand μ.view D := hadj.mem_level (by simp)
      obtain ⟨-, nl, esl, hl, hlc, -⟩ := hin _ hlA
      obtain ⟨-, nr, esr, hr, hrc, -⟩ := hin _ hrA
      refine run_mono (run_mergeInternal hadj hin hnd hl hlc hr hrc hov) ?_
      rintro ⟨⟩ μ' ⟨hren, hlen⟩
      refine ⟨l, r, _, hren, fun hthick => hren.thick ?_ (fun hr' => ?_) hside hthick⟩
      · exact List.length_pos_iff.1 (by rw [hlen]; omega)
      · exact absurd hr' hadj.right_gone
    · rintro μ' ⟨l, r, A', hren, hthick'⟩
      have hascA : Ascending A' := Ascending.of_expand hren.nodes (by rw [hren.same]; exact hasc)
      refine run_mono (hren.cascade ih hD hndD hascA hqD hpath' fun p hp => hlone p (List.mem_append_right _ hp)) ?_
      rintro ⟨⟩ μ'' ⟨d₁, O₁, hlow, hthick₁⟩
      refine ⟨_, _, hren.below hlow hnd, fun hS hthick p hp => ?_⟩
      have hS' : SmallBounds A' := SmallBounds.above hren.nodes (by rw [hren.same]; exact hS)
      rcases List.mem_append.1 hp with hp | hp
      · obtain ⟨c, hc⟩ := mem_ids.1 hp
        obtain ⟨-, m, esm, hm, -⟩ := hren.nodes _ hc
        rw [seps_sameRow hm (hlow.keep p hp).sameRow]
        exact hthick' (fun b hb => hthick b (List.mem_append_left _ hb)) p hp
      · refine hthick₁ hS' (fun b hb hbq => ?_) p hp
        rw [show seps μ'.view b = seps μ.view b by simp only [seps, hren.above b hb hbq]]
        refine hthick b (List.mem_append_right _ hb) fun hbq => ?_
        exact (List.nodup_append.1 (List.nodup_append.1 hnd).2.1).2.2 q (mem_ids_of_mem hq) b hb hbq.symm

end GSDBEngine
