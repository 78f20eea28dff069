import GSDBEngine.Proof.Siblings

/-!
# Leaves rebalanced

Two neighbouring leaves share their entries anew, or become one. The entries of the
tree stay what they are.

* `LeavesOK.recut`, `LeavesOK.merged`: the level of leaves after each.
* `run_borrowLeafLeft`, `run_borrowLeafRight`, `run_mergeLeaf`: the code.
-/

namespace GSDBEngine

set_option linter.unusedSectionVars false

open KeyRank BTree

variable {K L : Type} [KeyOps K] [LinearOrder L] [KeyRank K L]
variable {v v' : View K} {root : PageId} {d : ℕ} {A B pre post B₁ B₂ r₁ r₂ : Level K} {O : List PageId}
  {c : Cell K} {x κ : K} {p q l r : PageId} {μ μ' : Mem K} {E : Err K → Prop} {txn : ℕ} {u w : Option K}
  {nq nl nr nl' nr' : Node K} {esl esr es₁ es₂ : List (LeafEntry K)} {e : LeafEntry K}

theorem Linked.remove {ps qs : List PageId} (h : Linked v (ps ++ l :: r :: qs)) (hr : v r = some nr)
    (hl' : v' l = some nl') (hn : nl'.next_leaf = nr.next_leaf) (ho : ∀ p ∈ ps ++ qs, SameNext v v' p) :
    Linked v' (ps ++ l :: qs) := by
  induction ps with
  | nil =>
    obtain ⟨-, ⟨n, hv, hnext⟩, hrest⟩ := h
    rw [hr] at hv; cases hv
    exact ⟨⟨nl', hl', hn.trans hnext⟩, hrest.congr fun q hq => ho q (by simp [hq])⟩
  | cons p ps ih =>
    obtain ⟨⟨n, hv, hnext⟩, hrest⟩ := h
    obtain ⟨m, hm, hmn⟩ := ho p (by simp) n hv
    refine ⟨⟨m, hm, ?_⟩, ih hrest fun q hq => ho q (by simp only [List.cons_append, List.mem_cons]; exact Or.inr hq)⟩
    rw [hmn, hnext]
    cases ps <;> rfl

section pair

variable (h : LeavesOK v A) (v' : View K) (hA : A = pre ++ (l, some κ) :: (r, u) :: post) (hl : v l = some nl)
  (hlc : nl.cells = .leaf esl) (hr : v r = some nr) (hrc : nr.cells = .leaf esr)
  (ho : ∀ c ∈ pre ++ post, v' c.1 = v c.1)
include hA hl hlc hr hrc

theorem content_pair : content v A = content v pre ++ (esl ++ esr) ++ content v post := by
  rw [hA]
  simp only [content_append, content_cons, leafAt_eq hl hlc, leafAt_eq hr hrc, List.append_assoc]

include h

/-- The tokens of the two leaves as one. -/
theorem tokens_pair : (tokens v pre ++ ((esl ++ esr).map entryTok ++ fenceTok u :: tokens v post)).Pairwise (· < ·) := by
  have hord := h.order
  rw [hA] at hord
  simp only [tokens_append, tokens_cons, leafAt_eq hl hlc, leafAt_eq hr hrc] at hord
  refine hord.sublist (List.Sublist.append_left ?_ _)
  rw [List.map_append, List.append_assoc]
  exact List.Sublist.append_left (List.sublist_cons_self _ _) _

include ho

theorem leaves_side : (∀ c ∈ pre ++ post, c.1 ≠ INVALID_PAGE ∧ ∃ n es, v' c.1 = some n ∧ n.cells = .leaf es) ∧
    tokens v' pre = tokens v pre ∧ tokens v' post = tokens v post ∧ content v' pre = content v pre ∧
    content v' post = content v post := by
  have hleaf : ∀ c ∈ pre ++ post, leafAt v' c.1 = leafAt v c.1 := fun c hc => by simp only [leafAt, ho c hc]
  have hpre := fun c (hc : c ∈ pre) => hleaf c (List.mem_append_left _ hc)
  have hpost := fun c (hc : c ∈ post) => hleaf c (List.mem_append_right _ hc)
  refine ⟨fun c hc => ?_, tokens_congr hpre, tokens_congr hpost, content_congr hpre, content_congr hpost⟩
  rw [ho c hc]
  refine h.leaves c ?_
  rw [hA]
  rcases List.mem_append.1 hc with hc | hc <;> simp [hc]

/-- **The entries of two leaves cut elsewhere**, the first key of the right one their separator. -/
theorem LeavesOK.recut (hcut : esl ++ esr = es₁ ++ e :: es₂) (hne : es₁ ≠ []) (hl' : v' l = some nl')
    (hlc' : nl'.cells = .leaf es₁) (hln : nl'.next_leaf = nl.next_leaf) (hr' : v' r = some nr')
    (hrc' : nr'.cells = .leaf (e :: es₂)) (hrn : nr'.next_leaf = nr.next_leaf) :
    LeavesOK v' (pre ++ (l, some e.key) :: (r, u) :: post) ∧
      content v' (pre ++ (l, some e.key) :: (r, u) :: post) = content v A := by
  obtain ⟨hside, hTpre, hTpost, hCpre, hCpost⟩ := leaves_side h v' hA hl hlc hr hrc ho
  have hcont : content v' (pre ++ (l, some e.key) :: (r, u) :: post) = content v A := by
    rw [content_pair hA hl hlc hr hrc, hcut]
    simp only [content_append, content_cons, leafAt_eq hl' hlc', leafAt_eq hr' hrc', hCpre, hCpost, List.append_assoc]
  have hpair := tokens_pair h hA hl hlc hr hrc
  rw [hcut] at hpair
  refine ⟨⟨fun c hc => ?_, ?_, ?_, by rw [hcont]; exact h.kept⟩, hcont⟩
  · rcases List.mem_append.1 hc with hc | hc
    · exact hside c (List.mem_append_left _ hc)
    · rcases List.mem_cons.1 hc with rfl | hc
      · exact ⟨(h.leaves (l, some κ) (by rw [hA]; simp)).1, nl', es₁, hl', hlc'⟩
      · rcases List.mem_cons.1 hc with rfl | hc
        · exact ⟨(h.leaves (r, u) (by rw [hA]; simp)).1, nr', _, hr', hrc'⟩
        · exact hside c (List.mem_append_right _ hc)
  · have hids : ids (pre ++ (l, some e.key) :: (r, u) :: post) = ids A := by rw [hA]; simp
    rw [hids]
    refine h.linked.congr fun p hp => ?_
    by_cases hpl : p = l
    · rw [hpl]; intro n hn
      rw [hl] at hn; cases hn
      exact ⟨nl', hl', hln⟩
    · by_cases hpr : p = r
      · rw [hpr]; intro n hn
        rw [hr] at hn; cases hn
        exact ⟨nr', hr', hrn⟩
      · obtain ⟨w, hw⟩ := mem_ids.1 hp
        refine sameNext_of_eq (ho (p, w) ?_)
        rw [hA] at hw
        simpa [hpl, hpr] using hw
  · simp only [tokens_append, tokens_cons, leafAt_eq hl' hlc', leafAt_eq hr' hrc', hTpre, hTpost]
    exact tokens_halved hpair (tokens_below hpair hne)

/-- **Two leaves become one.** -/
theorem LeavesOK.merged (hl' : v' l = some nl') (hlc' : nl'.cells = .leaf (esl ++ esr))
    (hln : nl'.next_leaf = nr.next_leaf) :
    LeavesOK v' (pre ++ (l, u) :: post) ∧ content v' (pre ++ (l, u) :: post) = content v A := by
  obtain ⟨hside, hTpre, hTpost, hCpre, hCpost⟩ := leaves_side h v' hA hl hlc hr hrc ho
  have hcont : content v' (pre ++ (l, u) :: post) = content v A := by
    rw [content_pair hA hl hlc hr hrc]
    simp only [content_append, content_cons, leafAt_eq hl' hlc', hCpre, hCpost, List.append_assoc]
  refine ⟨⟨fun c hc => ?_, ?_, ?_, by rw [hcont]; exact h.kept⟩, hcont⟩
  · rcases List.mem_append.1 hc with hc | hc
    · exact hside c (List.mem_append_left _ hc)
    · rcases List.mem_cons.1 hc with rfl | hc
      · exact ⟨(h.leaves (l, some κ) (by rw [hA]; simp)).1, nl', _, hl', hlc'⟩
      · exact hside c (List.mem_append_right _ hc)
  · have hlink := h.linked
    rw [hA, ids_append, ids_cons, ids_cons] at hlink
    rw [ids_append, ids_cons]
    refine hlink.remove hr hl' hln fun p hp => ?_
    rw [← ids_append] at hp
    obtain ⟨w, hw⟩ := mem_ids.1 hp
    exact sameNext_of_eq (ho (p, w) hw)
  · simp only [tokens_append, tokens_cons, leafAt_eq hl' hlc', hTpre, hTpost]
    exact tokens_pair h hA hl hlc hr hrc

end pair

/-! ### The code -/

/-- The leaves after they were rebalanced under `q`. -/
structure Releaved (v : View K) (root : PageId) (d : ℕ) (B : Level K) (O : List PageId) (q : PageId) (μ' : Mem K)
    (A' : Level K) : Prop extends Rebalanced v root d B O q μ' A' where
  leaves : LeavesOK μ'.view A'
  same : content μ'.view A' = content v (expand v B)
  frame : ∀ p, p ∉ ids (expand v B) → p ∉ ids B ++ O → μ'.view p = v p

section code

variable (h : Adjacent μ.view μ.root d B O B₁ B₂ r₁ r₂ q w nq l κ r u) (hL : LeavesOK μ.view (expand μ.view B))
  (hl : μ.view l = some nl) (hlc : nl.cells = .leaf esl) (hr : μ.view r = some nr) (hrc : nr.cells = .leaf esr)
  (hov : E .overflow)

include h in
theorem pair_level : expand μ.view B = (expand μ.view B₁ ++ r₁) ++ (l, some κ) :: (r, u) :: (r₂ ++ expand μ.view B₂) := by
  rw [h.level]; simp

include h hL hl hlc hr hrc

theorem pair_kept : (∀ e ∈ esl, e.stored = e) ∧ ∀ e ∈ esr, e.stored = e := by
  constructor <;> intro e he <;> refine hL.kept e ?_ <;>
    rw [content_pair (pair_level h) hl hlc hr hrc] <;> simp [he]

/-- Two leaves and the row over them rewritten: the entries are `es₁` and `es₂`. -/
structure Recut (μ : Mem K) (q l r : PageId) (nq nl nr : Node K) (w : Option K) (row : Level K) (es₁ es₂ : List (LeafEntry K))
    (μ' : Mem K) (nq' nl' nr' : Node K) : Prop where
  mem : μ' = ((μ.set l nl').set r nr').set q nq'
  left : nl'.cells = .leaf es₁
  left_next : nl'.next_leaf = nl.next_leaf
  left_parent : nl'.parent_page = nl.parent_page
  right : nr'.cells = .leaf es₂
  right_next : nr'.next_leaf = nr.next_leaf
  right_parent : nr'.parent_page = nr.parent_page
  parent : Rerow nq nq' w row

section recut

variable {es₂' : List (LeafEntry K)} {nq' : Node K} {κ' : K}
  (hcut : Recut μ q l r nq nl nr w (r₁ ++ (l, some κ') :: (r, u) :: r₂) es₁ es₂ μ' nq' nl' nr')
include hcut

omit hL hl hlc hr hrc in
theorem Recut.pages : μ'.view l = some nl' ∧ μ'.view r = some nr' ∧ μ'.view q = some nq' ∧
    ∀ p, p ≠ l → p ≠ r → p ≠ q → μ'.view p = μ.view p := by
  rw [hcut.mem]
  refine ⟨?_, ?_, ?_, fun p h1 h2 h3 => ?_⟩
  · simp [h.left_ne, h.ne]
  · simp [h.right_ne]
  · simp
  · simp [h1, h2, h3]

omit hL hlc hrc in
/-- The levels stay. -/
theorem Recut.rebalanced : Rebalanced μ.view μ.root d B O q μ'
    ((expand μ.view B₁ ++ r₁) ++ (l, some κ') :: (r, u) :: (r₂ ++ expand μ.view B₂)) := by
  obtain ⟨hl', hr', hq', ho⟩ := hcut.pages h
  have hassoc : ∀ C : Level K, expand μ.view B₁ ++ ((r₁ ++ C) ++ expand μ.view B₂) =
      (expand μ.view B₁ ++ r₁) ++ (C ++ expand μ.view B₂) := by simp
  have hreb := h.rebalanced μ' (r₁ ++ (l, some κ') :: (r, u) :: r₂) (by rw [hcut.mem]; rfl) hq' hcut.parent (by simp)
    (fun p hp hpr => ?_) (fun _ n hn => ?_) (fun p hp hpq => ?_) fun p hp hp' => absurd (by simpa using hp) hp'
  · rwa [hassoc] at hreb
  · by_cases hpl : p = l
    · rw [hpl]; intro n hn
      rw [hl] at hn; cases hn
      exact ⟨nl', hl', hcut.left_parent⟩
    · exact sameParent_of_eq (ho p hpl hpr fun hpq => h.not_above hp (hpq ▸ h.parent_ids))
  · rw [hr] at hn; cases hn
    exact ⟨nr', hr', hcut.right_parent⟩
  · exact ho p (fun hpl => h.not_above h.left_mem (hpl ▸ hp)) (fun hpr => h.not_above h.right_mem (hpr ▸ hp)) hpq

omit hL hl hlc hr hrc in
theorem Recut.side : ∀ c ∈ (expand μ.view B₁ ++ r₁) ++ (r₂ ++ expand μ.view B₂), μ'.view c.1 = μ.view c.1 := by
  intro c hc
  obtain ⟨-, -, -, ho⟩ := hcut.pages h
  obtain ⟨-, h1, h2, h3⟩ := h.side hc
  exact ho c.1 h1 h2 h3

end recut

/-- Both leaves rewritten and the separator with them. -/
theorem Recut.releaved {nq' : Node K}
    (hrec : Recut μ q l r nq nl nr w (r₁ ++ (l, some e.key) :: (r, u) :: r₂) es₁ (e :: es₂) μ' nq' nl' nr')
    (hcut : esl ++ esr = es₁ ++ e :: es₂) (hne : es₁ ≠ []) : Releaved μ.view μ.root d B O q μ'
      ((expand μ.view B₁ ++ r₁) ++ (l, some e.key) :: (r, u) :: (r₂ ++ expand μ.view B₂)) ∧ seps μ'.view q ≠ [] := by
  obtain ⟨hl', hr', hq', ho⟩ := hrec.pages h
  obtain ⟨hleaves, hcont⟩ := hL.recut μ'.view (pair_level h) hl hlc hr hrc (hrec.side h) hcut hne hl' hrec.left hrec.left_next
    hr' hrec.right hrec.right_next
  refine ⟨⟨hrec.rebalanced h hl hr, hleaves, hcont, fun p hpA hpB => ?_⟩, hrec.parent.thick hq'⟩
  exact ho p (fun hpl => hpA (hpl ▸ h.left_mem)) (fun hpr => hpA (hpr ▸ h.right_mem)) fun hpq => hpB (hpq ▸ h.parent_ids)

include hov

/-- The last entry of `l` to `r`; its key is the separator. -/
theorem run_borrowLeafLeft_recut (hdonor : esl ≠ []) : Run μ (borrowLeafLeft txn r q l κ) E fun _ μ' =>
    ∃ es₁ e nq' nl' nr', esl = es₁ ++ [e] ∧
      Recut μ q l r nq nl nr w (r₁ ++ (l, some e.key) :: (r, u) :: r₂) es₁ (e :: esr) μ' nq' nl' nr' := by
  obtain ⟨hkl, hkr⟩ := pair_kept h hL hl hlc hr hrc
  obtain ⟨es, hc, hrow⟩ := h.cells
  unfold borrowLeafLeft
  refine run_getLeafEntries hl hlc ?_
  rcases List.eq_nil_or_concat esl with rfl | ⟨es₁, e, rfl⟩
  · exact absurd rfl hdonor
  have hk₁ : es₁.map LeafEntry.stored = es₁ := map_stored fun e' he' => hkl e' (by simp [he'])
  have hk₂ : (e :: esr).map LeafEntry.stored = e :: esr := map_stored fun e' he' => by
    rcases List.mem_cons.1 he' with rfl | he'
    · exact hkl e' (by simp)
    · exact hkr e' he'
  rw [List.concat_eq_append, List.getLast?_concat, List.dropLast_concat]
  refine run_setLeafEntries hl (fun _ => hov) fun hfit₁ => run_writePage ?_
  refine run_getLeafEntries (n := nr) (by simp [h.ne.symm, hr]) hrc ?_
  refine run_setLeafEntries (n := nr) (by simp [h.ne.symm, hr]) (fun _ => hov) fun hfit₂ => run_writePage ?_
  refine run_last (run_replaceSeparator (show _ = some nq by simp [h.left_ne.symm, h.right_ne.symm, h.parent]) hc h.row h.row_asc hov
    fun nq' hre => run_pure ⟨es₁, e, nq', _, _, rfl, rfl, ?_, ?_, ?_, ?_, ?_, ?_, hre⟩)
  exacts [congrArg Cells.leaf hk₁, rfl, rfl, congrArg Cells.leaf hk₂, rfl, rfl]

theorem run_borrowLeafLeft (hdonor : 2 ≤ esl.length) : Run μ (borrowLeafLeft txn r q l κ) E fun _ μ' =>
    ∃ e ∈ esl, Releaved μ.view μ.root d B O q μ'
      ((expand μ.view B₁ ++ r₁) ++ (l, some e.key) :: (r, u) :: (r₂ ++ expand μ.view B₂)) ∧ seps μ'.view q ≠ [] := by
  have hne : esl ≠ [] := List.length_pos_iff.1 (by omega)
  refine run_mono (run_borrowLeafLeft_recut h hL hl hlc hr hrc hov hne) ?_
  rintro ⟨⟩ μ' ⟨es₁, e, nq', nl', nr', rfl, hrec⟩
  have hne₁ : es₁ ≠ [] := by rintro rfl; simp at hdonor
  exact ⟨e, by simp, hrec.releaved h hL hl hlc hr hrc (by simp) hne₁⟩

/-- The first entry of `r` to `l`; the separator is the key of the next one, or of the entry itself if there is none. -/
theorem run_borrowLeafRight_recut (hdonor : esr ≠ []) : Run μ (borrowLeafRight txn l q r κ) E fun _ μ' =>
    ∃ e₀ es₂ nq' nl' nr', esr = e₀ :: es₂ ∧
      Recut μ q l r nq nl nr w (r₁ ++ (l, some ((es₂.head?.map LeafEntry.key).getD e₀.key)) :: (r, u) :: r₂) (esl ++ [e₀]) es₂
        μ' nq' nl' nr' := by
  obtain ⟨hkl, hkr⟩ := pair_kept h hL hl hlc hr hrc
  obtain ⟨es, hc, hrow⟩ := h.cells
  unfold borrowLeafRight
  refine run_getLeafEntries hr hrc ?_
  obtain ⟨e₀, es₂, rfl⟩ := List.exists_cons_of_ne_nil hdonor
  have hk₁ : (esl ++ [e₀]).map LeafEntry.stored = esl ++ [e₀] := map_stored fun e' he' => by
    rcases List.mem_append.1 he' with he' | he'
    · exact hkl e' he'
    · exact hkr e' (by simp [List.mem_singleton.1 he'])
  have hk₂ : es₂.map LeafEntry.stored = es₂ := map_stored fun e' he' => hkr e' (List.mem_cons_of_mem _ he')
  dsimp only
  refine run_setLeafEntries hr (fun _ => hov) fun hfit₁ => run_writePage ?_
  refine run_getLeafEntries (n := nl) (by simp [h.ne, hl]) hlc ?_
  refine run_setLeafEntries (n := nl) (by simp [h.ne, hl]) (fun _ => hov) fun hfit₂ => run_writePage ?_
  rw [Mem.set_comm _ _ h.ne.symm]
  refine run_last (run_replaceSeparator (show _ = some nq by simp [h.left_ne.symm, h.right_ne.symm, h.parent]) hc h.row h.row_asc hov
    fun nq' hre => run_pure ⟨e₀, es₂, nq', _, _, rfl, rfl, ?_, ?_, ?_, ?_, ?_, ?_, hre⟩)
  exacts [congrArg Cells.leaf hk₁, rfl, rfl, congrArg Cells.leaf hk₂, rfl, rfl]

theorem run_borrowLeafRight (hdonor : 2 ≤ esr.length) : Run μ (borrowLeafRight txn l q r κ) E fun _ μ' =>
    ∃ e ∈ esr, Releaved μ.view μ.root d B O q μ'
      ((expand μ.view B₁ ++ r₁) ++ (l, some e.key) :: (r, u) :: (r₂ ++ expand μ.view B₂)) ∧ seps μ'.view q ≠ [] := by
  have hne : esr ≠ [] := List.length_pos_iff.1 (by omega)
  refine run_mono (run_borrowLeafRight_recut h hL hl hlc hr hrc hov hne) ?_
  rintro ⟨⟩ μ' ⟨e₀, es₂, nq', nl', nr', rfl, hrec⟩
  obtain ⟨e, es₃, rfl⟩ := List.exists_cons_of_ne_nil (l := es₂) (by rintro rfl; simp at hdonor)
  exact ⟨e, by simp, hrec.releaved h hL hl hlc hr hrc (by simp) (by simp)⟩

/-- `r` merged into `l`, its separator dropped and its page freed. -/
theorem run_mergeLeaf : Run μ (mergeContents txn l r κ >>= fun _ => writePageThroughWal txn l >>= fun _ =>
      removeSeparator q l r κ >>= fun _ => writePageThroughWal txn q >>= fun _ => freePage txn r) E fun _ μ' =>
    Releaved μ.view μ.root d B O q μ' ((expand μ.view B₁ ++ r₁) ++ (l, u) :: (r₂ ++ expand μ.view B₂)) := by
  obtain ⟨hkl, hkr⟩ := pair_kept h hL hl hlc hr hrc
  obtain ⟨es, hc, hrow⟩ := h.cells
  have hk : (esl ++ esr).map LeafEntry.stored = esl ++ esr := map_stored fun e he => by
    rcases List.mem_append.1 he with he | he
    · exact hkl e he
    · exact hkr e he
  have hleaf : nl.isLeaf = true := by rw [Node.isLeaf, hlc]
  unfold mergeContents mergeLeaves
  rw [bind_assoc]
  refine run_fetchNode hl ?_
  rw [bind_assoc]
  refine run_fetchNode hr ?_
  rw [if_pos hleaf]
  simp only [bind_assoc]
  refine run_leafEntries hlc (run_leafEntries hrc (run_setLeafEntries hl (fun _ => hov) fun hfit => ?_))
  refine run_setNextLeaf (Mem.set_get _ _ _) (run_writePage ?_)
  rw [Mem.set_set]
  refine run_removeSeparator (show _ = some nq by simp [h.left_ne.symm, h.parent]) hc h.row h.row_asc h.row_nodup hov
    fun nq' hre => run_writePage ?_
  refine run_last (run_freePage (n := nr) (by simp [h.right_ne, h.ne.symm, hr]) (run_pure ?_))
  set nl' : Node K := { nl.withCells (.leaf ((esl ++ esr).map LeafEntry.stored)) hfit with next_leaf := nr.next_leaf } with hnl'
  set v' : View K := Function.update ((μ.set l nl').set q nq').view r none with hv'
  have hl' : v' l = some nl' := by simp [hv', h.left_ne, h.ne]
  have hq' : v' q = some nq' := by simp [hv', h.right_ne.symm]
  have ho : ∀ p, p ≠ l → p ≠ r → p ≠ q → v' p = μ.view p := fun p h1 h2 h3 => by simp [hv', h1, h2, h3]
  have hassoc : ∀ C : Level K, expand μ.view B₁ ++ ((r₁ ++ C) ++ expand μ.view B₂) =
      (expand μ.view B₁ ++ r₁) ++ (C ++ expand μ.view B₂) := by simp
  set μ' : Mem K := { ((μ.set l nl').set q nq') with view := v', free := r :: μ.free } with hμ'
  have hreb := h.rebalanced μ' (r₁ ++ (l, u) :: r₂) rfl hq' hre
    (by simp) (fun p hp hpr => ?_) (fun hmem => absurd hmem h.right_not_mem) (fun p hp hpq => ?_) fun p hp hp' => ?_
  · rw [hassoc] at hreb
    obtain ⟨hleaves, hcont⟩ := hL.merged v' (pair_level h) hl hlc hr hrc
      (fun c hc => by
        obtain ⟨-, h1, h2, h3⟩ := h.side hc
        exact ho c.1 h1 h2 h3) hl' (congrArg Cells.leaf hk) rfl
    refine ⟨hreb, hleaves, hcont, fun p hpA hpB => ho p (fun hpl => hpA (hpl ▸ h.left_mem)) (fun hpr => hpA (hpr ▸ h.right_mem))
      fun hpq => hpB (hpq ▸ h.parent_ids)⟩
  · by_cases hpl : p = l
    · rw [hpl]; intro n hn
      rw [hl] at hn; cases hn
      exact ⟨nl', hl', rfl⟩
    · exact sameParent_of_eq (ho p hpl hpr fun hpq => h.not_above hp (hpq ▸ h.parent_ids))
  · exact ho p (fun hpl => h.not_above h.left_mem (hpl ▸ hp)) (fun hpr => h.not_above h.right_mem (hpr ▸ hp)) hpq
  · have hpr : p = r ∨ p ∈ ids (r₁ ++ (l, u) :: r₂) := mem_ids_insert.1 hp
    rw [hpr.resolve_right hp']
    exact Function.update_self ..

end code

end GSDBEngine
