import GSDBEngine.Proof.Leaf

/-!
# Internal nodes rebalanced

Two neighbouring internal nodes share their children anew, or become one. The level
below stays as it is; the pages that changed hands name their new parent.

* `renoded`: the levels, from what the rewritten nodes have for children.
* `run_borrowInternalLeft`, `run_borrowInternalRight`, `run_mergeInternal`: the code.
-/

namespace GSDBEngine

set_option linter.unusedSectionVars false

open KeyRank BTree

variable {K L : Type} [KeyOps K] [LinearOrder L] [KeyRank K L]
variable {v v' : View K} {root : PageId} {d : ℕ} {A B pre post B₁ B₂ r₁ r₂ X : Level K} {O : List PageId}
  {c : Cell K} {x κ : K} {p q l r : PageId} {μ μ' : Mem K} {E : Err K → Prop} {txn : ℕ} {u w : Option K}
  {nq nl nr nl' nr' nq' : Node K} {esl esr : List (InternalEntry K)} {e : InternalEntry K}

/-- The internal level after the nodes `l` and `r` were rebalanced under `q`: the level below is as it was. -/
structure Renoded (v : View K) (root : PageId) (d : ℕ) (B : Level K) (O : List PageId) (q l r : PageId) (μ' : Mem K)
    (A' : Level K) : Prop extends Rebalanced v root d B O q μ' A' where
  nodes : ∀ a ∈ A', Inner μ'.view a
  same : expand μ'.view A' = expand v (expand v B)
  side : ∀ p ∈ ids (expand v B), p ≠ l → p ≠ r → μ'.view p = v p
  keep : ∀ p ∈ ids (expand v (expand v B)), Moved v μ'.view p
  frame : ∀ p, p ∉ ids (expand v (expand v B)) → p ∉ ids (expand v B) ++ (ids B ++ O) → μ'.view p = v p

section renoded

variable (h : Adjacent v root d B O B₁ B₂ r₁ r₂ q w nq l κ r u) (hin : ∀ a ∈ expand v B, Inner v a)
  (hnd : (ids (expand v (expand v B)) ++ (ids (expand v B) ++ (ids B ++ O))).Nodup)
include h hin hnd

theorem child_not_above {p : PageId} (hp : p ∈ ids (expand v (expand v B))) :
    p ∉ ids (expand v B) ∧ p ≠ l ∧ p ≠ r ∧ p ≠ q ∧ p ∉ ids B ++ O := by
  have hdis := (List.nodup_append.1 hnd).2.2 p hp
  refine ⟨fun hA => hdis p (List.mem_append_left _ hA) rfl, hdis l (List.mem_append_left _ h.left_mem),
    hdis r (List.mem_append_left _ h.right_mem), hdis q (List.mem_append_right _ h.parent_ids),
    fun hO => hdis p (List.mem_append_right _ hO) rfl⟩

omit hin hnd in
theorem expand_pair : expand v (expand v B) = expand v (expand v B₁ ++ r₁) ++
    ((rowAt v (l, some κ) ++ rowAt v (r, u)) ++ expand v (r₂ ++ expand v B₂)) := by
  have hlev : expand v B = (expand v B₁ ++ r₁) ++ ([(l, some κ), (r, u)] ++ (r₂ ++ expand v B₂)) := by
    rw [h.level]; simp
  rw [hlev]
  simp only [expand_append, expand_cons, expand_nil, List.append_nil, List.append_assoc]

/-- **The levels after two nodes were rewritten** to `X`, with the same children in the same order; `moved` are the
pages that changed hands. -/
theorem renoded (μ' : Mem K) (X : Level K) (moved : List PageId) (hroot : μ'.root = root) (hvq : μ'.view q = some nq')
    (hre : Rerow nq nq' w (r₁ ++ (X ++ r₂))) (hX : ∀ a ∈ X, Inner μ'.view a)
    (hexp : expand μ'.view X = rowAt v (l, some κ) ++ rowAt v (r, u)) (hids : (ids X).Sublist [l, r]) (hlX : l ∈ ids X)
    (hl : SameParent v μ'.view l) (hr : r ∈ ids X → SameParent v μ'.view r)
    (hgone : r ∉ ids X → μ'.view r = none)
    (hmoved : moved ⊆ ids (rowAt v (l, some κ) ++ rowAt v (r, u))) (hkeep : ∀ p ∈ moved, Moved v μ'.view p)
    (ho : ∀ p, p ≠ l → p ≠ r → p ≠ q → p ∉ moved → μ'.view p = v p) :
    Renoded v root d B O q l r μ' ((expand v B₁ ++ r₁) ++ (X ++ (r₂ ++ expand v B₂))) := by
  have hC := expand_pair h
  have hmovedC : ∀ p ∈ moved, p ∈ ids (expand v (expand v B)) := fun p hp => by
    rw [hC, ids_append, ids_append]
    exact List.mem_append_right _ (List.mem_append_left _ (hmoved hp))
  have hlevel : ∀ p ∈ ids (expand v B), p ≠ l → p ≠ r → μ'.view p = v p := fun p hp hpl hpr =>
    ho p hpl hpr (fun hpq => h.not_above hp (hpq ▸ h.parent_ids)) fun hm =>
      (child_not_above h hin hnd (hmovedC p hm)).1 hp
  have habove : ∀ p ∈ ids B ++ O, p ≠ q → μ'.view p = v p := fun p hp hpq =>
    ho p (fun hpl => h.not_above h.left_mem (hpl ▸ hp)) (fun hpr => h.not_above h.right_mem (hpr ▸ hp)) hpq fun hm =>
      (child_not_above h hin hnd (hmovedC p hm)).2.2.2.2 hp
  have hassoc : expand v B₁ ++ ((r₁ ++ (X ++ r₂)) ++ expand v B₂) = (expand v B₁ ++ r₁) ++ (X ++ (r₂ ++ expand v B₂)) := by
    simp
  have hreb := h.rebalanced μ' (r₁ ++ (X ++ r₂)) hroot hvq hre ?_ (fun p hp hpr => ?_) (fun hmem => ?_) habove
    fun p hp hp' => ?_
  · rw [hassoc] at hreb
    -- the other nodes of the level, and their children
    have hndC := (List.nodup_append.1 hnd).1
    rw [hC, ids_append, ids_append] at hndC
    have hsides : ∀ a ∈ (expand v B₁ ++ r₁) ++ (r₂ ++ expand v B₂), ∀ c ∈ rowAt v a, c.1 ∉ moved := fun a ha c hc hm => by
      obtain ⟨-, hright, hcross⟩ := List.nodup_append.1 hndC
      obtain ⟨-, -, hcross'⟩ := List.nodup_append.1 hright
      rcases List.mem_append.1 ha with ha | ha
      · exact hcross c.1 (mem_ids_of_mem (mem_expand.2 ⟨a, ha, hc⟩)) c.1 (List.mem_append_left _ (hmoved hm)) rfl
      · exact hcross' c.1 (hmoved hm) c.1 (mem_ids_of_mem (mem_expand.2 ⟨a, ha, hc⟩)) rfl
    have hin' : ∀ a ∈ (expand v B₁ ++ r₁) ++ (r₂ ++ expand v B₂), a ∈ expand v B := fun a ha => by
      rw [h.level]
      rcases List.mem_append.1 ha with ha | ha
      · rcases List.mem_append.1 ha with ha | ha <;> simp [ha]
      · rcases List.mem_append.1 ha with ha | ha <;> simp [ha]
    obtain ⟨hnodes, hsame⟩ := rewrite_level v μ'.view (expand v B₁ ++ r₁) X (r₂ ++ expand v B₂)
      (fun a ha => hin a (hin' a ha)) hX
      (fun a ha => by
        obtain ⟨hA, h1, h2, -⟩ := h.side ha
        exact sameRow_of_eq (hlevel a.1 hA h1 h2))
      fun a ha c hc => by
        have hcC : c.1 ∈ ids (expand v (expand v B)) := mem_ids_of_mem (mem_expand.2 ⟨a, hin' a ha, hc⟩)
        obtain ⟨-, h1, h2, h3, -⟩ := child_not_above h hin hnd hcC
        exact sameParent_of_eq (ho c.1 h1 h2 h3 (hsides a ha c hc))
    rw [hexp, ← hC] at hsame
    refine ⟨hreb, hnodes, hsame, hlevel, fun p hp => ?_, fun p hpC hpA => ?_⟩
    · by_cases hm : p ∈ moved
      · exact hkeep p hm
      · obtain ⟨-, h1, h2, h3, -⟩ := child_not_above h hin hnd hp
        exact moved_of_eq (ho p h1 h2 h3 hm)
    · rw [List.mem_append, not_or] at hpA
      exact ho p (fun hpl => hpA.1 (hpl ▸ h.left_mem)) (fun hpr => hpA.1 (hpr ▸ h.right_mem))
        (fun hpq => hpA.2 (hpq ▸ h.parent_ids)) fun hm => hpC (hmovedC p hm)
  · rw [ids_append, ids_append, ids_append, ids_cons, ids_cons]
    exact (List.Sublist.refl _).append (hids.append (List.Sublist.refl (ids r₂)))
  · by_cases hpl : p = l
    · rw [hpl]; exact hl
    · exact sameParent_of_eq (hlevel p hp hpl hpr)
  · refine hr ?_
    have hnot := h.right_not_mem
    rw [ids_append, ids_append, List.mem_append, List.mem_append] at hmem
    rw [ids_append, ids_cons, List.mem_append, List.mem_cons, not_or, not_or] at hnot
    exact (hmem.resolve_left hnot.1).resolve_right hnot.2.2
  · rw [ids_append, ids_append, List.mem_append, List.mem_append, not_or, not_or] at hp'
    rw [ids_append, ids_cons, ids_cons, List.mem_append, List.mem_cons, List.mem_cons] at hp
    rcases hp.resolve_left hp'.1 with rfl | rfl | hp
    · exact absurd hlX hp'.2.1
    · exact hgone hp'.2.1
    · exact absurd hp hp'.2.2

/-- No page is a child of both, or twice of one. -/
theorem pair_nodup : (ids (rowAt v (l, some κ) ++ rowAt v (r, u))).Nodup := by
  have hndC := (List.nodup_append.1 hnd).1
  rw [expand_pair h, ids_append, ids_append] at hndC
  exact (List.nodup_append.1 (List.nodup_append.1 hndC).2.1).1

/-- The child of a node that was not moved is still its child. -/
theorem child_kept {a : Cell K} {moved : List PageId} (ha : a ∈ expand v B) (hc : c ∈ rowAt v a) (hm : c.1 ∉ moved)
    (ho : ∀ p, p ≠ l → p ≠ r → p ≠ q → p ∉ moved → v' p = v p) : ∃ m, v' c.1 = some m ∧ m.parent_page = a.1 := by
  obtain ⟨-, h1, h2, h3, -⟩ := child_not_above h hin hnd (mem_ids_of_mem (mem_expand.2 ⟨a, ha, hc⟩))
  obtain ⟨-, n, es, hv, hcells, hch⟩ := hin a ha
  obtain ⟨m, hv', hmp⟩ := hch c (by rwa [rowAt_eq hv hcells] at hc)
  exact ⟨m, (ho c.1 h1 h2 h3 hm).trans hv', hmp⟩

end renoded

/-! ### The code -/

section code

variable (h : Adjacent μ.view μ.root d B O B₁ B₂ r₁ r₂ q w nq l κ r u) (hin : ∀ a ∈ expand μ.view B, Inner μ.view a)
  (hnd : (ids (expand μ.view (expand μ.view B)) ++ (ids (expand μ.view B) ++ (ids B ++ O))).Nodup)
  (hl : μ.view l = some nl) (hlc : nl.cells = .internal esl) (hr : μ.view r = some nr) (hrc : nr.cells = .internal esr)
  (hov : E .overflow)
include h hin hnd hl hlc hr hrc

/-- Both nodes rewritten, one child handed over and the separator with it. -/
theorem renoded_recut {t c : PageId} {m : Node K} (nl' nr' : Node K) (esl' esr' : List (InternalEntry K))
    (hlp : nl'.parent_page = nl.parent_page) (hlc' : nl'.cells = .internal esl') (hrp : nr'.parent_page = nr.parent_page) (hrc' : nr'.cells = .internal esr')
    {κ' : K} (hre : Rerow nq nq' w (r₁ ++ (l, some κ') :: (r, u) :: r₂)) (hm : μ.view c = some m)
    (hrows : cellsOf esl' nl'.rightmost_child (some κ') ++ cellsOf esr' nr'.rightmost_child u =
      cellsOf esl nl.rightmost_child (some κ) ++ cellsOf esr nr.rightmost_child u)
    (hleft : ∀ a ∈ cellsOf esl' nl'.rightmost_child (some κ'), (a.1 = c ∧ t = l) ∨ (a.1 ≠ c ∧ a ∈ rowAt μ.view (l, some κ)))
    (hright : ∀ a ∈ cellsOf esr' nr'.rightmost_child u, (a.1 = c ∧ t = r) ∨ (a.1 ≠ c ∧ a ∈ rowAt μ.view (r, u)))
    (hc : c ∈ ids (rowAt μ.view (l, some κ) ++ rowAt μ.view (r, u))) :
    let μ' := (((μ.set l nl').set r nr').set c { m with parent_page := t }).set q nq'
    Renoded μ.view μ.root d B O q l r μ' ((expand μ.view B₁ ++ r₁) ++ ([(l, some κ'), (r, u)] ++ (r₂ ++ expand μ.view B₂))) ∧
      seps μ'.view l = esl'.map InternalEntry.key ∧ seps μ'.view r = esr'.map InternalEntry.key ∧ seps μ'.view q ≠ [] := by
  intro μ'
  have hlA : (l, some κ) ∈ expand μ.view B := h.mem_level (by simp)
  have hrA : (r, u) ∈ expand μ.view B := h.mem_level (by simp)
  have hcC : c ∈ ids (expand μ.view (expand μ.view B)) := by
    rw [expand_pair h, ids_append, ids_append]
    exact List.mem_append_right _ (List.mem_append_left _ hc)
  obtain ⟨-, hcl, hcr, hcq, -⟩ := child_not_above h hin hnd hcC
  have hl' : μ'.view l = some nl' := by simp [μ', h.left_ne, h.ne, hcl.symm]
  have hr' : μ'.view r = some nr' := by simp [μ', h.right_ne, hcr.symm]
  have hc' : μ'.view c = some { m with parent_page := t } := by simp [μ', hcq]
  have hq' : μ'.view q = some nq' := by simp [μ']
  have ho : ∀ p, p ≠ l → p ≠ r → p ≠ q → p ∉ [c] → μ'.view p = μ.view p := fun p h1 h2 h3 h4 => by
    have h4' : p ≠ c := by simpa using h4
    simp [μ', h1, h2, h3, h4']
  refine ⟨?_, seps_eq hl' hlc', seps_eq hr' hrc', hre.thick hq'⟩
  refine renoded h hin hnd μ' [(l, some κ'), (r, u)] [c] rfl hq' hre ?_ ?_ (by simp) (by simp) ?_ (fun _ => ?_)
    (fun hmem => absurd (by simp) hmem) (by simpa using hc) ?_ ho
  · intro a ha
    rcases List.mem_cons.1 ha with rfl | ha
    · refine ⟨(hin _ hlA).1, nl', esl', hl', hlc', fun a ha => ?_⟩
      rcases hleft a ha with ⟨rfl, rfl⟩ | ⟨hne, hrow⟩
      · exact ⟨_, hc', rfl⟩
      · exact child_kept (a := (l, some κ)) h hin hnd hlA hrow (by simpa using hne) ho
    · rw [List.mem_singleton.1 ha]
      refine ⟨(hin _ hrA).1, nr', esr', hr', hrc', fun a ha => ?_⟩
      rcases hright a ha with ⟨rfl, rfl⟩ | ⟨hne, hrow⟩
      · exact ⟨_, hc', rfl⟩
      · exact child_kept h hin hnd hrA hrow (by simpa using hne) ho
  · rw [expand_cons, expand_cons, expand_nil, List.append_nil, rowAt_eq (c := (l, some κ')) hl' hlc',
      rowAt_eq (c := (r, u)) hr' hrc', rowAt_eq (c := (l, some κ)) hl hlc, rowAt_eq (c := (r, u)) hr hrc]
    exact hrows
  · intro n hn
    rw [hl] at hn; cases hn
    exact ⟨nl', hl', hlp⟩
  · intro n hn
    rw [hr] at hn; cases hn
    exact ⟨nr', hr', hrp⟩
  · intro p hp n hn
    rw [List.mem_singleton.1 hp, hm] at hn; cases hn
    exact ⟨t, by rw [List.mem_singleton.1 hp]; exact hc'⟩

include hov

/-- After a borrow: a new separator `κ'`, `l` and `r` with `i` and `j` separators. -/
def Borrowed (μ : Mem K) (d : ℕ) (B : Level K) (O : List PageId) (B₁ B₂ r₁ r₂ : Level K) (q l r : PageId) (u : Option K)
    (i j : ℕ) (μ' : Mem K) : Prop :=
  ∃ κ', Renoded μ.view μ.root d B O q l r μ' ((expand μ.view B₁ ++ r₁) ++ ([(l, some κ'), (r, u)] ++ (r₂ ++ expand μ.view B₂))) ∧
    (seps μ'.view l).length = i ∧ (seps μ'.view r).length = j ∧ seps μ'.view q ≠ []

theorem run_borrowInternalLeft (hdonor : esl ≠ []) : Run μ (borrowInternalLeft txn r q l κ) E fun _ μ' =>
    Borrowed μ d B O B₁ B₂ r₁ r₂ q l r u (esl.length - 1) (esr.length + 1) μ' := by
  obtain ⟨es, hc, hrow⟩ := h.cells
  rcases List.eq_nil_or_concat esl with rfl | ⟨es₁, e, rfl⟩
  · exact absurd rfl hdonor
  rw [List.concat_eq_append] at hlc ⊢
  -- the rightmost child of `l` is handed over
  have hrowl : rowAt μ.view (l, some κ) = cellsOf es₁ e.child_page_id (some e.key) ++ [(nl.rightmost_child, some κ)] := by
    rw [rowAt_eq (c := (l, some κ)) hl hlc, cellsOf_halved]; rfl
  have hmoved : (nl.rightmost_child, some κ) ∈ rowAt μ.view (l, some κ) := by rw [hrowl]; simp
  obtain ⟨-, n, es', hn, hcn, hch⟩ := hin (l, some κ) (h.mem_level (by simp))
  obtain ⟨m, hm, -⟩ := hch _ (by rwa [rowAt_eq hn hcn] at hmoved)
  have hmC : nl.rightmost_child ∈ ids (expand μ.view (expand μ.view B)) :=
    mem_ids_of_mem (c := (nl.rightmost_child, some κ)) (mem_expand.2 ⟨(l, some κ), h.mem_level (by simp), hmoved⟩)
  obtain ⟨-, hml, hmr, hmq, -⟩ := child_not_above h hin hnd hmC
  have hpair := pair_nodup h hin hnd
  rw [hrowl, rowAt_eq (c := (r, u)) hr hrc, List.append_assoc, ids_append, List.singleton_append, ids_cons,
    List.nodup_middle, List.nodup_cons, List.mem_append, not_or] at hpair
  obtain ⟨⟨hnl, hnr⟩, -⟩ := hpair
  unfold borrowInternalLeft
  refine run_fetchNode hl (run_internalEntries hlc (run_getInternalEntries hr hrc ?_))
  rw [List.getLast?_concat, List.dropLast_concat]
  refine run_setRightmostChild hl (run_setInternalEntries (Mem.set_get _ _ _) (fun _ => hov) fun hfit₁ => ?_)
  rw [Mem.set_set]
  refine run_setInternalEntries (n := nr) (by simp [h.ne.symm, hr]) (fun _ => hov) fun hfit₂ => run_writePage (run_writePage ?_)
  refine run_setParentPage (n := m) (by simp [hml, hmr, hm]) (run_writePage ?_)
  refine run_last (run_replaceSeparator
    (show _ = some nq by simp [h.left_ne.symm, h.right_ne.symm, hmq.symm, h.parent]) hc h.row h.row_asc hov
    fun nq' hre => run_pure ⟨e.key, ?_⟩)
  have hrec := renoded_recut (t := r) h hin hnd hl hlc hr hrc
    ({ nl with rightmost_child := e.child_page_id }.withCells (.internal es₁) hfit₁)
    (nr.withCells (.internal (⟨κ, nl.rightmost_child⟩ :: esr)) hfit₂)
    es₁ (⟨κ, nl.rightmost_child⟩ :: esr) rfl rfl rfl rfl hre hm ?_ (fun a ha => ?_) (fun a ha => ?_) ?_
  · obtain ⟨hren, hsl, hsr, hsq⟩ := hrec
    exact ⟨hren, by rw [hsl]; simp, by rw [hsr]; simp, hsq⟩
  · show cellsOf es₁ e.child_page_id (some e.key) ++ cellsOf (⟨κ, nl.rightmost_child⟩ :: esr) nr.rightmost_child u = _
    simp [cellsOf]
  · have ha' : a ∈ cellsOf es₁ e.child_page_id (some e.key) := ha
    refine Or.inr ⟨fun hac => hnl ?_, by rw [hrowl]; exact List.mem_append_left _ ha'⟩
    rw [← hac]; exact mem_ids_of_mem ha'
  · have ha' : a ∈ (nl.rightmost_child, some κ) :: cellsOf esr nr.rightmost_child u := ha
    rcases List.mem_cons.1 ha' with rfl | ha'
    · exact Or.inl ⟨rfl, rfl⟩
    · refine Or.inr ⟨fun hac => hnr ?_, by rw [rowAt_eq (c := (r, u)) hr hrc]; exact ha'⟩
      rw [← hac]; exact mem_ids_of_mem ha'
  · rw [ids_append]
    exact List.mem_append_left _ (mem_ids_of_mem hmoved)

theorem run_borrowInternalRight (hdonor : esr ≠ []) : Run μ (borrowInternalRight txn l q r κ) E fun _ μ' =>
    Borrowed μ d B O B₁ B₂ r₁ r₂ q l r u (esl.length + 1) (esr.length - 1) μ' := by
  obtain ⟨es, hc, hrow⟩ := h.cells
  obtain ⟨e, es₂, rfl⟩ := List.exists_cons_of_ne_nil hdonor
  -- the first child of `r` is handed over
  have hrowr : rowAt μ.view (r, u) = (e.child_page_id, some e.key) :: cellsOf es₂ nr.rightmost_child u := by
    rw [rowAt_eq (c := (r, u)) hr hrc]; rfl
  have hmoved : (e.child_page_id, some e.key) ∈ rowAt μ.view (r, u) := by rw [hrowr]; simp
  obtain ⟨-, n, es', hn, hcn, hch⟩ := hin (r, u) (h.mem_level (by simp))
  obtain ⟨m, hm, -⟩ := hch _ (by rwa [rowAt_eq hn hcn] at hmoved)
  have hmC : e.child_page_id ∈ ids (expand μ.view (expand μ.view B)) :=
    mem_ids_of_mem (c := (e.child_page_id, some e.key)) (mem_expand.2 ⟨(r, u), h.mem_level (by simp), hmoved⟩)
  obtain ⟨-, hml, hmr, hmq, -⟩ := child_not_above h hin hnd hmC
  have hpair := pair_nodup h hin hnd
  rw [hrowr, rowAt_eq (c := (l, some κ)) hl hlc, ids_append, ids_cons, List.nodup_middle, List.nodup_cons, List.mem_append,
    not_or] at hpair
  obtain ⟨⟨hnl, hnr⟩, -⟩ := hpair
  unfold borrowInternalRight
  refine run_getInternalEntries hr hrc ?_
  dsimp only
  refine run_fetchNode hl (run_internalEntries hlc (run_setRightmostChild hl ?_))
  generalize hes₁ : (esl ++ [⟨κ, nl.rightmost_child⟩] : List (InternalEntry K)) = es₁
  refine run_setInternalEntries (Mem.set_get _ _ _) (fun _ => hov) fun hfit₁ => ?_
  rw [Mem.set_set]
  refine run_setInternalEntries (n := nr) (by simp [h.ne.symm, hr]) (fun _ => hov) fun hfit₂ => run_writePage (run_writePage ?_)
  refine run_setParentPage (n := m) (by simp [hml, hmr, hm]) (run_writePage ?_)
  refine run_last (run_replaceSeparator
    (show _ = some nq by simp [h.left_ne.symm, h.right_ne.symm, hmq.symm, h.parent]) hc h.row h.row_asc hov
    fun nq' hre => run_pure ⟨e.key, ?_⟩)
  have hrow₁ : cellsOf es₁ e.child_page_id (some e.key) =
      cellsOf esl nl.rightmost_child (some κ) ++ [(e.child_page_id, some e.key)] := by rw [← hes₁]; simp [cellsOf]
  have hrec := renoded_recut (t := l) h hin hnd hl hlc hr hrc
    ({ nl with rightmost_child := e.child_page_id }.withCells (.internal es₁) hfit₁)
    (nr.withCells (.internal es₂) hfit₂) es₁ es₂ rfl rfl rfl rfl hre hm ?_
    (fun a ha => ?_) (fun a ha => ?_) ?_
  · obtain ⟨hren, hsl, hsr, hsq⟩ := hrec
    exact ⟨hren, by rw [hsl, ← hes₁]; simp, by rw [hsr]; simp, hsq⟩
  · show cellsOf es₁ e.child_page_id (some e.key) ++ cellsOf es₂ nr.rightmost_child u = _
    rw [hrow₁]; simp [cellsOf]
  · have ha' : a ∈ cellsOf es₁ e.child_page_id (some e.key) := ha
    rw [hrow₁] at ha'
    rcases List.mem_append.1 ha' with ha' | ha'
    · refine Or.inr ⟨fun hac => hnl ?_, by rw [rowAt_eq (c := (l, some κ)) hl hlc]; exact ha'⟩
      rw [← hac]; exact mem_ids_of_mem ha'
    · rw [List.mem_singleton.1 ha']
      exact Or.inl ⟨rfl, rfl⟩
  · have ha' : a ∈ cellsOf es₂ nr.rightmost_child u := ha
    refine Or.inr ⟨fun hac => hnr ?_, by rw [hrowr]; exact List.mem_cons_of_mem _ ha'⟩
    rw [← hac]; exact mem_ids_of_mem ha'
  · rw [ids_append]
    exact List.mem_append_right _ (mem_ids_of_mem hmoved)

/-- `r` merged into `l`, its separator brought down and its page freed. -/
theorem run_mergeInternal : Run μ (mergeContents txn l r κ >>= fun _ => writePageThroughWal txn l >>= fun _ =>
      removeSeparator q l r κ >>= fun _ => writePageThroughWal txn q >>= fun _ => freePage txn r) E fun _ μ' =>
    Renoded μ.view μ.root d B O q l r μ' ((expand μ.view B₁ ++ r₁) ++ ([(l, u)] ++ (r₂ ++ expand μ.view B₂))) ∧
      (seps μ'.view l).length = esl.length + esr.length + 1 := by
  obtain ⟨es, hc, hrow⟩ := h.cells
  have hinternal : nl.isLeaf = false := by rw [Node.isLeaf, hlc]
  have hrowl := rowAt_eq (c := (l, some κ)) hl hlc
  have hrowr := rowAt_eq (c := (r, u)) hr hrc
  have hlA : (l, some κ) ∈ expand μ.view B := h.mem_level (by simp)
  have hrA : (r, u) ∈ expand μ.view B := h.mem_level (by simp)
  -- the children of `r` are handed over
  have hch : ∀ p ∈ children esr nr.rightmost_child, p ∈ ids (expand μ.view (expand μ.view B)) ∧ ∃ m, μ.view p = some m := by
    intro p hp
    rw [children_eq (w := u)] at hp
    obtain ⟨u', hu'⟩ := mem_ids.1 hp
    have hmem : (p, u') ∈ rowAt μ.view (r, u) := by rw [hrowr]; exact hu'
    obtain ⟨-, n, es', hn, hcn, hch⟩ := hin (r, u) hrA
    obtain ⟨m, hm, -⟩ := hch _ (by rwa [rowAt_eq hn hcn] at hmem)
    exact ⟨mem_ids_of_mem (mem_expand.2 ⟨_, hrA, hmem⟩), m, hm⟩
  have hpair := pair_nodup h hin hnd
  rw [hrowl, hrowr, ids_append] at hpair
  unfold mergeContents mergeInternals
  rw [bind_assoc]
  refine run_fetchNode hl ?_
  rw [bind_assoc]
  refine run_fetchNode hr ?_
  rw [if_neg (by simp [hinternal])]
  simp only [bind_assoc]
  refine run_internalEntries hlc (run_internalEntries hrc (run_setInternalEntries hl (fun _ => hov) fun hfit => ?_))
  refine run_setRightmostChild (Mem.set_get _ _ _) ?_
  rw [Mem.set_set]
  generalize hnl' : ({ nl.withCells (.internal (esl ++ ⟨κ, nl.rightmost_child⟩ :: esr)) hfit with
    rightmost_child := nr.rightmost_child } : Node K) = nl'
  have hlc' : nl'.cells = .internal (esl ++ ⟨κ, nl.rightmost_child⟩ :: esr) := by rw [← hnl']; rfl
  have hlrm : nl'.rightmost_child = nr.rightmost_child := by rw [← hnl']
  have hlp : nl'.parent_page = nl.parent_page := by rw [← hnl']; rfl
  refine run_adoptChildren (fun p hp => ?_) (run_writePage ?_)
  · obtain ⟨hpC, m, hm⟩ := hch p hp
    exact ⟨m, by simp [(child_not_above h hin hnd hpC).2.1, hm]⟩
  have hnot : ∀ p, p ∉ ids (expand μ.view (expand μ.view B)) → p ∉ children esr nr.rightmost_child := fun p hp hp' =>
    hp (hch p hp').1
  have hlC : l ∉ ids (expand μ.view (expand μ.view B)) := fun hlc => (child_not_above h hin hnd hlc).2.1 rfl
  have hrC : r ∉ ids (expand μ.view (expand μ.view B)) := fun hrc => (child_not_above h hin hnd hrc).2.2.1 rfl
  have hqC : q ∉ ids (expand μ.view (expand μ.view B)) := fun hqc => (child_not_above h hin hnd hqc).2.2.2.1 rfl
  refine run_removeSeparator (show _ = some nq by
    show View.adopt _ _ _ q = _
    rw [View.adopt_of_not_mem (hnot q hqC)]; simp [h.left_ne.symm, h.parent]) hc h.row h.row_asc h.row_nodup hov
    fun nq' hre => run_writePage ?_
  refine run_last (run_freePage (n := nr) ?_ (run_pure ?_))
  · rw [Mem.set_view, Function.update_of_ne h.right_ne]
    show View.adopt _ _ _ r = _
    rw [View.adopt_of_not_mem (hnot r hrC), Mem.set_view, Function.update_of_ne h.ne.symm, hr]
  set v' : View K := Function.update (Function.update ((μ.set l nl').view.adopt l (children esr nr.rightmost_child)) q
    (some nq')) r none with hv'
  have hv : ∀ p, p ≠ r → p ≠ q → v' p = (μ.set l nl').view.adopt l (children esr nr.rightmost_child) p := fun p h1 h2 => by
    rw [hv', Function.update_of_ne h1, Function.update_of_ne h2]
  have hl' : v' l = some nl' := by
    rw [hv l h.ne h.left_ne, View.adopt_of_not_mem (hnot l hlC)]; exact Mem.set_get _ _ _
  have hq' : v' q = some nq' := by
    rw [hv', Function.update_of_ne h.right_ne.symm, Function.update_self]
  have ho : ∀ p, p ≠ l → p ≠ r → p ≠ q → p ∉ children esr nr.rightmost_child → v' p = μ.view p := fun p h1 h2 h3 h4 => by
    rw [hv p h2 h3, View.adopt_of_not_mem h4, Mem.set_view, Function.update_of_ne h1]
  have hadopt : ∀ p ∈ children esr nr.rightmost_child, ∃ m, μ.view p = some m ∧ v' p = some { m with parent_page := l } :=
    fun p hp => by
      obtain ⟨hpC, m, hm⟩ := hch p hp
      obtain ⟨-, h1, h2, h3, -⟩ := child_not_above h hin hnd hpC
      refine ⟨m, hm, ?_⟩
      rw [hv p h2 h3, View.adopt_of_mem hp (by rw [Mem.set_view, Function.update_of_ne h1, hm])]
  have hsep : seps v' l = (esl ++ ⟨κ, nl.rightmost_child⟩ :: esr).map InternalEntry.key := seps_eq hl' hlc'
  have hrow' : cellsOf (esl ++ ⟨κ, nl.rightmost_child⟩ :: esr) nl'.rightmost_child u =
      cellsOf esl nl.rightmost_child (some κ) ++ cellsOf esr nr.rightmost_child u := by
    rw [cellsOf_halved, hlrm]
  refine ⟨renoded h hin hnd { ({ μ.set l nl' with view := (μ.set l nl').view.adopt l (children esr nr.rightmost_child) } :
      Mem K).set q nq' with view := v', free := r :: μ.free } [(l, u)] (children esr nr.rightmost_child) rfl hq' hre ?_ ?_
      (by simp) (by simp) ?_ (fun hmem => absurd hmem (by simp [h.ne.symm])) (fun _ => Function.update_self ..) ?_ ?_ ho, ?_⟩
  · intro a ha
    rw [List.mem_singleton.1 ha]
    refine ⟨(hin _ hlA).1, nl', _, hl', hlc', fun a ha => ?_⟩
    rw [hrow'] at ha
    rcases List.mem_append.1 ha with ha | ha
    · have hpair' := (List.nodup_append.1 hpair).2.2 a.1 (mem_ids_of_mem ha)
      refine child_kept (a := (l, some κ)) h hin hnd hlA (hrowl ▸ ha) (fun hm => ?_) ho
      rw [children_eq (w := u)] at hm
      exact hpair' a.1 hm rfl
    · obtain ⟨m, hm, hm'⟩ := hadopt a.1 (by rw [children_eq (w := u)]; exact mem_ids_of_mem ha)
      exact ⟨_, hm', rfl⟩
  · rw [expand_cons, expand_nil, List.append_nil, hrowl, hrowr, rowAt_eq (c := (l, u)) hl' hlc']
    exact hrow'
  · intro n hn
    rw [hl] at hn; cases hn
    exact ⟨nl', hl', hlp⟩
  · intro p hp
    rw [ids_append, hrowr, ← children_eq]
    exact List.mem_append_right _ hp
  · intro p hp n hn
    obtain ⟨m, hm, hm'⟩ := hadopt p hp
    rw [hm] at hn; cases hn
    exact ⟨l, hm'⟩
  · show (seps v' l).length = _
    rw [hsep]; simp; omega

end code

end GSDBEngine
