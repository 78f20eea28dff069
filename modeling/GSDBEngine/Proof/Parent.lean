import GSDBEngine.Proof.Raise

/-!
# Separators put into parents

`insert_into_parent` adds to its level the one cell of the new page: under a new root,
or in the row of the page split, in a parent that was split first if it had no room
and is split after if it is full.

* `placed_level`, `raised_placed`: the levels with one separator placed.
* `intoParent_of_split`: `insert_into_parent`, given `split_internal` one level up.
-/

namespace GSDBEngine

set_option linter.unusedSectionVars false

open KeyRank BTree

variable {K L : Type} [KeyOps K] [LinearOrder L] [KeyRank K L]
variable {v v' v'' : View K} {root : PageId} {d : ℕ} {A B pre post : Level K} {O : List PageId} {b c : Cell K}
  {x κ : K} {p q l r : PageId} {μ μ' : Mem K} {E : Err K → Prop} {txn : ℕ}

/-! ### The separator into the parent -/

section parent

variable {nq m : Node K} {es : List (InternalEntry K)} {u w : Option K} {r₁ r₂ B₁ B₂ : Level K}
  {Q : PUnit → Mem K → Prop}

/-- A parent before and after the separator `κ` was placed in it; its row is now `row`. -/
structure Placed (nq nq' : Node K) (κ : K) (w : Option K) (row : Level K) : Prop where
  parent : nq'.parent_page = nq.parent_page
  cells : ∃ es es', nq.cells = .internal es ∧ nq'.cells = .internal es' ∧
    es'.map InternalEntry.key = sortByKey id (es.map InternalEntry.key ++ [κ])
  row_eq : nq'.row w = row

theorem modify_key {es : List (InternalEntry K)} {i : ℕ} :
    (es.modify i fun e => { e with child_page_id := r }).map InternalEntry.key = es.map InternalEntry.key := by
  induction es generalizing i with
  | nil => simp
  | cons e es ih => cases i <;> simp [ih]

theorem run_placeSeparator {f : PUnit → M K PUnit} (hv : μ.view q = some nq) (hc : nq.cells = .internal es)
    (hrow : nq.row w = r₁ ++ (l, u) :: r₂) (hasc : Ascending (r₁ ++ (l, some κ) :: (r, u) :: r₂))
    (hov : ¬ sepSize (sortByKey id (es.map InternalEntry.key ++ [κ])) ≤ CAPACITY → E .overflow)
    (h : ∀ nq', Placed nq nq' κ w (r₁ ++ (l, some κ) :: (r, u) :: r₂) → Run (μ.set q nq') (f ⟨⟩) E Q) :
    Run μ (placeSeparator q l κ r >>= f) E Q := by
  have hrow' : cellsOf es nq.rightmost_child w = r₁ ++ (l, u) :: r₂ := by rw [← hrow, Node.row, hc]
  unfold placeSeparator
  rw [bind_assoc]
  refine run_getInternalEntries hv hc ?_
  have hput := placed_row hrow' hasc
  have hkeys : (sortByKey InternalEntry.key (es ++ [⟨κ, l⟩])).map InternalEntry.key =
      sortByKey id (es.map InternalEntry.key ++ [κ]) := by
    rw [sortByKey_map, List.map_append]; rfl
  generalize sortByKey InternalEntry.key (es ++ [⟨κ, l⟩]) = entries at hput hkeys ⊢
  dsimp only at hput ⊢
  split
  · rcases hput with ⟨_, hput⟩ | ⟨hlt, _⟩
    · refine run_setInternalEntries hv (fun hbig => hov ?_) fun hfit =>
        h _ ⟨rfl, ⟨es, _, hc, rfl, by rw [modify_key, hkeys]⟩, hput⟩
      rwa [internal_bytes_length, modify_key, hkeys] at hbig
    · contradiction
  · rcases hput with ⟨hlt, _⟩ | ⟨_, hput⟩
    · contradiction
    · rw [bind_assoc]
      refine run_setRightmostChild hv (run_setInternalEntries (n := { nq with rightmost_child := r }) (by simp)
        (fun hbig => hov ?_) fun hfit => ?_)
      · rwa [internal_bytes_length, hkeys] at hbig
      · rw [Mem.set_set]
        exact h _ ⟨rfl, ⟨es, entries, hc, rfl, hkeys⟩, hput⟩

theorem run_insertIntoNode {f : PUnit → M K PUnit} (hv : μ.view q = some nq) (hc : nq.cells = .internal es)
    (hr : μ.view r = some m) (hqr : q ≠ r)
    (hrow : nq.row w = r₁ ++ (l, u) :: r₂) (hasc : Ascending (r₁ ++ (l, some κ) :: (r, u) :: r₂))
    (hov : ¬ sepSize (sortByKey id (es.map InternalEntry.key ++ [κ])) ≤ CAPACITY → E .overflow)
    (h : ∀ nq', Placed nq nq' κ w (r₁ ++ (l, some κ) :: (r, u) :: r₂) →
      Run ((μ.set q nq').set r { m with parent_page := q }) (f ⟨⟩) E Q) :
    Run μ (insertIntoNode txn q l κ r >>= f) E Q := by
  unfold insertIntoNode
  simp only [bind_assoc]
  refine run_placeSeparator hv hc hrow hasc hov fun nq' hput => run_writePage ?_
  exact run_setParentPage (n := m) (by simp [hqr.symm, hr]) (run_writePage (h nq' hput))

section placed

variable {nq' : Node K}
  (hup : Up v root d B O) (hin : ∀ b ∈ B, Inner v b) (hnd : (ids (expand v B) ++ (ids B ++ O)).Nodup)
  (hB : B = B₁ ++ (q, w) :: B₂) (hv : v q = some nq) (hrow : nq.row w = r₁ ++ (l, u) :: r₂)
  (hrn : r ∉ ids (expand v B) ++ (ids B ++ O))
  (hput : Placed nq nq' κ w (r₁ ++ (l, some κ) :: (r, u) :: r₂))
  (hvq : v' q = some nq') (hvr : v' r = some { m with parent_page := q })
  (hvo : ∀ p, p ≠ q → p ≠ r → v' p = v p)
include hB hv hrn hvq hvo

theorem placed_sameParent (hpar : nq'.parent_page = nq.parent_page)
    (hp : p ∈ ids (expand v B) ++ (ids B ++ O)) : SameParent v v' p := by
  intro n hn
  by_cases hpq : p = q
  · subst hpq
    rw [hv] at hn; cases hn
    exact ⟨nq', hvq, hpar⟩
  · exact ⟨n, by rw [hvo p hpq fun h => hrn (h ▸ hp)]; exact hn, rfl⟩

include hup hin hnd hrow hput hvr

/-- The levels with one separator placed. -/
theorem placed_level : Up v' root d B O ∧ (∀ b ∈ B, Inner v' b) ∧
    expand v' B = expand v B₁ ++ ((r₁ ++ (l, some κ) :: (r, u) :: r₂) ++ expand v B₂) := by
  obtain ⟨es, es', hc, hc', -⟩ := hput.cells
  have hpar {c : Cell K} (hc : c ∈ expand v B) : SameParent v v' c.1 :=
    placed_sameParent hB hv hrn hvq hvo hput.parent (List.mem_append_left _ (mem_ids_of_mem hc))
  rw [← hput.row_eq]
  refine reseat hup hin (List.nodup_append.1 hnd).2.1 hB hv hvq hput.parent hc' (fun c hcm => ?_)
    (fun p hp hpq => hvo p hpq fun h => hrn (by rw [← h]; exact List.mem_append_right _ hp))
    fun b hb c hcb => hpar (mem_expand.2 ⟨b, ?_, hcb⟩)
  · -- the children of `q`: the old ones, and `r`
    have hqB : (q, w) ∈ B := by rw [hB]; simp
    have hold : rowAt v (q, w) = r₁ ++ (l, u) :: r₂ := by rw [← hrow]; simp [rowAt, hv]
    have hkeep {c : Cell K} (hcr : c ∈ rowAt v (q, w)) : ∃ m, v' c.1 = some m ∧ m.parent_page = q := by
      obtain ⟨-, n, es, hn, hcn, hch⟩ := hin _ hqB
      obtain ⟨m, hm, hmp⟩ := hch c (by rwa [rowAt_eq hn hcn] at hcr)
      obtain ⟨m', hm', hmp'⟩ := hpar (mem_expand.2 ⟨_, hqB, hcr⟩) m hm
      exact ⟨m', hm', hmp'.trans hmp⟩
    rw [hput.row_eq] at hcm
    rcases List.mem_append.1 hcm with hcm | hcm
    · exact hkeep (by rw [hold]; simp [hcm])
    · rcases List.mem_cons.1 hcm with rfl | hcm
      · exact hkeep (c := (l, u)) (by rw [hold]; simp)
      · rcases List.mem_cons.1 hcm with rfl | hcm
        · exact ⟨_, hvr, rfl⟩
        · exact hkeep (by rw [hold]; simp [hcm])
  · exact (ids_other (List.nodup_append.1 (List.nodup_append.1 hnd).2.1).1 hB hb).1

/-- **One level with a separator placed.** The pages above are as they were, and the level below has
the new cell. -/
theorem raised_placed (hμ : μ.view = v') (hroot : μ.root = root) (hr : v r = some m) :
    Raised v (ids B ++ O) μ (expand v' B) (d + 1) (ids B ++ O) := by
  obtain ⟨hup', hin', hexp⟩ := placed_level hup hin hnd hB hv hrow hrn hput hvq hvr hvo
  have hold : expand v B = expand v B₁ ++ ((r₁ ++ (l, u) :: r₂) ++ expand v B₂) := by
    rw [hB, expand_append, expand_cons]
    simp [rowAt, hv, hrow]
  have hmem : ∀ p, p ∈ ids (expand v' B) ↔ p = r ∨ p ∈ ids (expand v B) := by
    intro p
    have hassoc : ∀ C : Level K, expand v B₁ ++ ((r₁ ++ C) ++ expand v B₂) = expand v B₁ ++ r₁ ++ (C ++ expand v B₂) := by
      simp
    rw [hexp, hold, hassoc, hassoc]
    exact mem_ids_insert
  have hqB : q ∈ ids B ++ O := by rw [hB]; simp
  have hqA : q ∉ ids (expand v B) := fun h => (List.nodup_append.1 hnd).2.2 q h q hqB rfl
  refine ⟨?_, ?_, ?_, ?_, fun p hp => Or.inl hp, fun p hp => hp⟩
  · rw [hμ, hroot]
    exact .down hup' hin'
  · have hperm : (ids (expand v' B) ++ (ids B ++ O)).Perm (r :: (ids (expand v B) ++ (ids B ++ O))) := by
      have hmid : ((ids (expand v B₁) ++ ids r₁ ++ [l]) ++ r :: (ids r₂ ++ ids (expand v B₂) ++ (ids B ++ O))).Perm
          (r :: ((ids (expand v B₁) ++ ids r₁ ++ [l]) ++ (ids r₂ ++ ids (expand v B₂) ++ (ids B ++ O)))) :=
        List.perm_middle
      rw [hexp, hold]
      simpa using hmid
    exact hperm.nodup_iff.2 (List.nodup_cons.2 ⟨hrn, hnd⟩)
  · intro p hp
    rw [hμ]
    rcases (hmem p).1 hp with rfl | hp
    · intro n hn
      rw [hr] at hn; cases hn
      exact ⟨q, hvr⟩
    · refine moved_of_eq (hvo p (fun h => hqA (h ▸ hp)) fun h => hrn ?_)
      rw [← h]; simp [hp]
  · intro p hp hp'
    rw [hμ]
    exact hvo p (fun h => hp' (h ▸ hqB)) fun h => hp ((hmem p).2 (Or.inl h))

end placed

end parent

/-! ### `insert_into_parent`, over `split_internal` -/

section into

variable {split : PageId → M K Unit} {carry : Spine K → K → Except Stop (Spine K)} {u : Option K} {n m : Node K}

/-- The separator belongs to the page it splits. -/
theorem loc_separator (h : Ascending (pre ++ (l, some κ) :: (r, u) :: post)) :
    Loc (pre ++ (l, u) :: post) κ pre (l, u) post := by
  obtain ⟨-, hpost, hcross⟩ := List.pairwise_append.1 h
  have habove := (List.pairwise_cons.1 hpost).1
  refine ⟨rfl, fun a ha => (hcross a ha (l, some κ) (by simp)).le, fun a ha => ?_⟩
  rcases List.mem_cons.1 ha with rfl | ha
  · exact habove (r, u) (by simp)
  · exact habove a (by simp [ha])

/-- After a split at `κ` a key belongs to the left page or to the right one. -/
theorem Loc.side (h : Loc (pre ++ (l, u) :: post) x pre (l, u) post) :
    ∃ pre' post', Loc (pre ++ (l, some κ) :: (r, u) :: post) x pre'
      (if KeyOps.lt x κ then (l, some κ) else (r, u)) post' := by
  cases hlt : KeyOps.lt x κ with
  | true =>
    refine ⟨pre, (r, u) :: post, by simp, h.low, fun a ha => ?_⟩
    rcases List.mem_cons.1 ha with rfl | ha
    · simpa using lt_true.1 hlt
    · rcases List.mem_cons.1 ha with rfl | ha
      · exact h.high (l, u) (by simp)
      · exact h.high a (by simp [ha])
  | false =>
    refine ⟨pre ++ [(l, some κ)], post, by simp, fun a ha => ?_, fun a ha => ?_⟩
    · rcases List.mem_append.1 ha with ha | ha
      · exact h.low a ha
      · rw [List.mem_singleton.1 ha]
        simpa using lt_false.1 hlt
    · rcases List.mem_cons.1 ha with rfl | ha
      · exact h.high (l, u) (by simp)
      · exact h.high a (by simp [ha])

theorem Path.parent_eq {path : List PageId} (h : Path v p (q :: path)) (hv : v p = some n) :
    n.parent_page = q ∧ q ≠ INVALID_PAGE ∧ Path v q path := by
  cases h with
  | up hv' hne hpath =>
    rw [hv] at hv'; cases hv'
    exact ⟨rfl, hne, hpath⟩

/-- The node above a page, in the level above. -/
theorem Up.above_path (hup : Up v root d A O) (hloc : Loc A x pre (l, u) post) {path : List PageId}
    (hv : v l = some n) (hpath : Path v l (q :: path)) :
    ∃ d' B O' B₁ w B₂ r₁ r₂ nq es, Up v root d' B O' ∧ (∀ b ∈ B, Inner v b) ∧ d = d' + 1 ∧ A = expand v B ∧
      O = ids B ++ O' ∧ B = B₁ ++ (q, w) :: B₂ ∧ v q = some nq ∧ nq.cells = .internal es ∧
      nq.row w = r₁ ++ (l, u) :: r₂ ∧ pre = expand v B₁ ++ r₁ ∧ post = r₂ ++ expand v B₂ := by
  obtain ⟨hpar, hne, -⟩ := hpath.parent_eq hv
  obtain ⟨d', B, O', rfl, hB, hin, rfl, rfl⟩ := hup.under (u := u) (by rw [hloc.eq]; simp) hv (hpar ▸ hne)
  obtain ⟨B₁, b, B₂, r₁, r₂, hlocb, hrow, hpre, hpost⟩ := hloc.parent hin
  obtain ⟨-, nq, es, hnq, hc, hch⟩ := hin b (by rw [hlocb.eq]; simp)
  rw [rowAt_eq hnq hc] at hrow
  obtain ⟨m, hm, hmp⟩ := hch (l, u) (by rw [hrow]; simp)
  rw [hv] at hm; cases hm
  obtain rfl : q = b.1 := hpar.symm.trans hmp
  exact ⟨d', B, O', B₁, b.2, B₂, r₁, r₂, nq, es, hB, hin, rfl, rfl, rfl, hlocb.eq, hnq, hc,
    by rw [Node.row, hc]; exact hrow, hpre, hpost⟩

theorem Up.at_root (hup : Up v root d (pre ++ (l, u) :: post) O) (hv : v l = some n)
    (hpar : n.parent_page = INVALID_PAGE) : pre = [] ∧ post = [] ∧ u = none ∧ O = [] := by
  generalize hA : pre ++ (l, u) :: post = A at hup
  cases hup with
  | root =>
    rcases List.append_eq_singleton_iff.1 hA with ⟨rfl, h⟩ | ⟨-, h⟩
    · obtain ⟨hcell, rfl⟩ := List.cons.inj h
      exact ⟨rfl, rfl, (Prod.mk.inj hcell).2, rfl⟩
    · cases h
  | down hB hin =>
    obtain ⟨b, hb, hlb⟩ := mem_expand.1 (show (l, u) ∈ expand v _ by rw [← hA]; simp)
    obtain ⟨hne, nq, es, hnq, hc, hch⟩ := hin b hb
    obtain ⟨m, hm, hmp⟩ := hch (l, u) (by rwa [rowAt_eq hnq hc] at hlb)
    rw [hv] at hm; cases hm
    exact absurd (hmp.symm.trans hpar) hne

theorem run_makeRoom (hs : SplitSpec split carry) (hcons : ∀ s x, carry s x ≠ .ok []) {path : List PageId}
    {f : PageId → M K PUnit} {Q : PUnit → Mem K → Prop}
    (hup : Up μ.view μ.root d A O) (hnd : (ids A ++ O).Nodup) (hasc : Ascending A) (hloc : Loc A κ pre (l, u) post)
    (hl : μ.view l = some n) (hpath : Path μ.view l (q :: path)) (hE : E .file_extend)
    (hstop : ∀ stop, carryRoom carry (seps μ.view q) (path.map (seps μ.view)) κ = .error stop → E stop.err)
    (h : ∀ μ' d' O' q' path', Raised μ.view O μ' A d' O' →
      (SmallBounds A → Small κ → Thick μ.view O → Thick μ'.view O') → Path μ'.view l (q' :: path') →
      carryRoom carry (seps μ.view q) (path.map (seps μ.view)) κ = .ok ((q' :: path').map (seps μ'.view)) →
      Run μ' (f q') E Q) :
    Run μ (makeRoom split l n.parent_page κ >>= f) E Q := by
  have hlA : (l, u) ∈ A := by rw [hloc.eq]; simp
  obtain ⟨d', B, O', B₁, w, B₂, r₁, r₂, nq, es, hB, hin, rfl, rfl, rfl, hBq, hnq, hc, hrow, -, -⟩ :=
    hup.above_path hloc hl hpath
  have hqB : (q, w) ∈ B := by rw [hBq]; simp
  have hlq : (l, u) ∈ rowAt μ.view (q, w) := by simp [rowAt, hnq, hrow]
  obtain ⟨hpar, hne, hpathq⟩ := hpath.parent_eq hl
  rw [hpar]
  unfold carryRoom at hstop h
  unfold makeRoom
  rw [bind_assoc]
  refine run_fetchNode hnq ?_
  rw [available_eq hc, ← seps_eq hnq hc]
  split
  case isTrue hfull =>
    rw [if_pos hfull] at hstop h
    rw [bind_assoc]
    refine run_bind (hs hB hin hnd hasc hqB hloc hlq hpathq hE hstop) ?_
    rintro ⟨⟩ μ' ⟨d₁, O₁, hraised, hthick, path₁, hpath₁, hcarry⟩
    obtain ⟨p₁, hl₁⟩ := hraised.keep l (mem_ids_of_mem hlA) n hl
    cases path₁ with
    | nil => exact absurd hcarry (hcons _ _)
    | cons q₁ path₁ =>
      obtain ⟨hpar₁, -, -⟩ := hpath₁.parent_eq hl₁
      rw [bind_assoc]
      refine run_fetchNode hl₁ ?_
      rw [pure_bind, hpar₁]
      exact h μ' d₁ O₁ q₁ path₁ hraised
        (fun hA hκ => hthick hA (four_le_length (hA.row hin hqB) _ hκ.entrySize_le hfull)) hpath₁ hcarry
  case isFalse hroom =>
    rw [if_neg hroom] at h
    rw [pure_bind]
    exact h μ _ _ q path (Raised.refl hup hnd) (fun _ _ h => h) hpath rfl

theorem ascending_unsplit (h : Ascending (pre ++ (l, some κ) :: (r, u) :: post)) :
    Ascending (pre ++ (l, u) :: post) := by
  have h' : ((pre ++ (l, some κ) :: (r, u) :: post).map Prod.snd).Pairwise fun u u' : Option K => bound u < bound u' :=
    List.pairwise_map.2 h
  have hsub : ((pre ++ (l, u) :: post).map Prod.snd).Sublist ((pre ++ (l, some κ) :: (r, u) :: post).map Prod.snd) := by
    simp
  have h'' := h'.sublist hsub
  rwa [List.pairwise_map] at h''

/-- The separator placed into a parent with room, and the parent split if that filled it. -/
theorem run_place (hs : SplitSpec split carry) {path : List PageId} 
    (hup : Up μ.view μ.root d (pre ++ (l, u) :: post) O) (hnd : (ids (pre ++ (l, u) :: post) ++ O).Nodup)
    (hrn : r ∉ ids (pre ++ (l, u) :: post) ++ O) (hl : μ.view l = some n) (hr : μ.view r = some m)
    (hasc : Ascending (pre ++ (l, some κ) :: (r, u) :: post)) (hloc : Loc (pre ++ (l, u) :: post) x pre (l, u) post)
    (hpath : Path μ.view l (q :: path)) (hE : E .file_extend)
    (hstop : ∀ stop, carryPlace carry ((q :: path).map (seps μ.view)) κ x = .error stop → E stop.err) :
    Run μ (insertIntoNode txn q l κ r >>= fun _ => fetchNode q >>= fun check =>
        if check.isFull then split q else pure ⟨⟩) E fun _ μ' =>
      ∃ d' O', Raised μ.view O μ' (pre ++ (l, some κ) :: (r, u) :: post) d' O' ∧
        (SmallBounds (pre ++ (l, some κ) :: (r, u) :: post) → Thick μ.view O → Thick μ'.view O') ∧
        ∃ path', Path μ'.view (if KeyOps.lt x κ then l else r) path' ∧
          carryPlace carry ((q :: path).map (seps μ.view)) κ x = .ok (path'.map (seps μ'.view)) := by
  obtain ⟨d', B, O', B₁, w, B₂, r₁, r₂, nq, es, hB, hin, rfl, hA, rfl, hBq, hnq, hc, hrow, rfl, rfl⟩ :=
    hup.above_path hloc hl hpath
  rw [hA] at hnd hrn
  obtain ⟨-, hne, hpathq⟩ := hpath.parent_eq hl
  have hqB : q ∈ ids B := by rw [hBq]; simp
  have hqr : q ≠ r := fun h => hrn (by rw [← h]; simp [hqB])
  have hks := seps_eq hnq hc
  have hrow_asc : Ascending (r₁ ++ (l, some κ) :: (r, u) :: r₂) := hasc.sublist (by simp)
  refine run_insertIntoNode hnq hc hr hqr hrow hrow_asc (fun hbig => hstop .overflow ?_) fun nq' hput => ?_
  · rw [← hks] at hbig
    simp only [List.map_cons, carryPlace, if_pos (not_le.1 hbig)]
  set μ₂ : Mem K := (μ.set q nq').set r { m with parent_page := q } with hμ₂
  have hvq : μ₂.view q = some nq' := by simp [hμ₂, hqr]
  have hvr : μ₂.view r = some { m with parent_page := q } := by simp [hμ₂]
  have hvo : ∀ p, p ≠ q → p ≠ r → μ₂.view p = μ.view p := fun p h1 h2 => by simp [hμ₂, h1, h2]
  obtain ⟨hup₂, hin₂, hexp⟩ := placed_level hB hin hnd hBq hnq hrow hrn hput hvq hvr hvo
  have hraised := raised_placed hB hin hnd hBq hnq hrow hrn hput hvq hvr hvo rfl rfl hr
  have hA' : expand μ₂.view B = expand μ.view B₁ ++ r₁ ++ (l, some κ) :: (r, u) :: (r₂ ++ expand μ.view B₂) := by
    rw [hexp]; simp
  rw [← hA'] at hasc ⊢
  -- the separators above `l`, before and after
  obtain ⟨es₀, es', hc₀, hc', hkeys⟩ := hput.cells
  rw [hc] at hc₀; cases hc₀
  rw [← hks] at hkeys
  have hks' : seps μ₂.view q = sortByKey id (seps μ.view q ++ [κ]) := (seps_eq hvq hc').trans hkeys
  have hpathO : ∀ p ∈ path, p ∈ O' := hB.path_mem hqB hpathq
  have hpath_ne : ∀ p ∈ path, p ≠ q ∧ p ≠ r := fun p hp =>
    ⟨fun h => (List.nodup_append.1 (List.nodup_append.1 hnd).2.1).2.2 q hqB p (hpathO p hp) h.symm,
      fun h => hrn (by rw [← h]; simp [hpathO p hp])⟩
  have hup_seps : path.map (seps μ₂.view) = path.map (seps μ.view) := List.map_congr_left fun p hp => by
    simp only [seps, hvo p (hpath_ne p hp).1 (hpath_ne p hp).2]
  have hpathq₂ : Path μ₂.view q path := hpathq.congr fun p hp => by
    rcases List.mem_cons.1 hp with rfl | hp
    · exact placed_sameParent hBq hnq hrn hvq hvo hput.parent (by simp [hqB])
    · exact sameParent_of_eq (hvo p (hpath_ne p hp).1 (hpath_ne p hp).2)
  have hfit : ¬ CAPACITY < sepSize (sortByKey id (seps μ.view q ++ [κ])) := by
    have h := nq'.fits
    rw [hc', internal_bytes_length, hkeys] at h
    exact not_lt.2 h
  have hplace : carryPlace carry ((q :: path).map (seps μ.view)) κ x =
      if CAPACITY - sepSize (seps μ₂.view q) < 64 then carry (seps μ₂.view q :: path.map (seps μ₂.view)) x
      else .ok (seps μ₂.view q :: path.map (seps μ₂.view)) := by
    simp only [List.map_cons, carryPlace, if_neg hfit, hks', hup_seps]
  have hisFull : nq'.isFull = true ↔ CAPACITY - sepSize (seps μ₂.view q) < 64 := by
    rw [isFull_iff hc', seps_eq hvq hc']
  have hrow₂ : rowAt μ₂.view (q, w) = r₁ ++ (l, some κ) :: (r, u) :: r₂ := by
    rw [← hput.row_eq]; simp [rowAt, hvq]
  refine run_fetchNode hvq ?_
  rw [hplace] at hstop ⊢
  obtain ⟨pre', post', hside⟩ := hloc.side (r := r) (κ := κ)
  rw [← hA'] at hside
  have hc_row : (if KeyOps.lt x κ then (l, some κ) else (r, u)) ∈ rowAt μ₂.view (q, w) := by
    rw [hrow₂]; split <;> simp
  have hthick₂ : Thick μ.view (ids B ++ O') → Thick μ₂.view (ids B ++ O') := fun h p hp => by
    by_cases hpq : p = q
    · rw [hpq, hks']
      intro hnil
      have hlen := congrArg List.length hnil
      simp [length_sortByKey] at hlen
    · have hpr : p ≠ r := fun h => hrn (by rw [← h]; exact List.mem_append_right _ hp)
      simpa only [seps, hvo p hpq hpr] using h p hp
  refine run_ite (fun hfull => ?_) fun hroom => ?_
  · rw [if_pos (hisFull.1 hfull)] at hstop ⊢
    refine run_mono (hs hup₂ hin₂ hraised.nodup hasc (by rw [hBq]; simp) hside hc_row hpathq₂ hE hstop) ?_
    rintro ⟨⟩ μ₃ ⟨d₃, O₃, hraised₃, hthick₃, path₃, hpath₃, hcarry⟩
    refine ⟨d₃, O₃, hraised.trans hraised₃ (fun _ h => h), fun hA h => hthick₃ hA ?_ (hthick₂ h), path₃, ?_, hcarry⟩
    · refine four_le_length (hA.row hin₂ (b := (q, w)) (by rw [hBq]; simp)) 64 ?_ (hisFull.1 hfull)
      simp [CAPACITY, PAGE_SIZE, NODE_HEADER_SIZE]
    rwa [apply_ite Prod.fst] at hpath₃
  · rw [if_neg fun h => hroom (hisFull.2 h)] at hstop ⊢
    refine run_pure ⟨_, _, hraised, fun _ => hthick₂, q :: path, ?_, rfl⟩
    obtain ⟨_, nq₂, es₂, hnq₂, hc₂, hch₂⟩ := hin₂ (q, w) (by rw [hBq]; simp)
    obtain ⟨m', hm', hmp'⟩ := hch₂ _ (by rwa [rowAt_eq hnq₂ hc₂] at hc_row)
    rw [apply_ite Prod.fst] at hm'
    dsimp only at hmp'
    rw [← hmp'] at hne hpathq₂ ⊢
    exact .up hm' hne hpathq₂

/-- **`insert_into_parent`**, given `split_internal` one level up. -/
theorem intoParent_of_split (hs : SplitSpec split carry) (hcons : ∀ s x, carry s x ≠ .ok []) :
    IntoParentSpec txn split carry := by
  intro μ d pre post O l r u κ x n m path E hup hnd hrn hl hr hasc hloc hpath hE hstop
  have hlr : l ≠ r := fun h => hrn (by rw [← h]; simp)
  unfold insertIntoParent
  refine run_fetchNode hl (run_ite (fun hpar => ?_) fun hpar => ?_)
  · -- the root: a new root above it
    obtain rfl : path = [] := hpath.unique (.root hl hpar)
    obtain ⟨rfl, rfl, rfl, rfl⟩ := hup.at_root hl hpar
    refine run_mono (run_insertNewRoot hl hr hlr hE fun hbig => hstop .overflow (if_neg hbig)) ?_
    rintro ⟨⟩ μ' ⟨new, hraised, hpl, hpr, hseps, hsize⟩
    refine ⟨1, [new], hraised, fun _ _ p hp => ?_, [new], by split <;> assumption, ?_⟩
    · rw [List.mem_singleton.1 hp, hseps]; simp
    simp [carryInto, hsize, hseps]
  · cases path with
    | nil => cases hpath with | root hl' hp => rw [hl] at hl'; cases hl'; exact absurd hp hpar
    | cons q path =>
      refine run_makeRoom hs hcons hup hnd (ascending_unsplit hasc) (loc_separator hasc) hl hpath hE (fun stop he => ?_)
        fun μ₁ d₁ O₁ q₁ path₁ hraised hthick hpath₁ hroom => ?_
      · exact hstop stop (by simp only [List.map_cons, carryInto, he]; rfl)
      obtain ⟨p₁, hl₁⟩ := hraised.keep l (by simp) n hl
      have hrA : r ∉ ids (pre ++ (l, u) :: post) := fun h => hrn (List.mem_append_left _ h)
      have hrO : r ∉ O₁ := fun h => by
        rcases hraised.fresh r h with h | h
        · exact hrn (List.mem_append_right _ h)
        · rw [hr] at h; cases h
      have hr₁ : μ₁.view r = some m := (hraised.frame r hrA hrO).trans hr
      have hinto : carryInto carry ((q :: path).map (seps μ.view)) κ x =
          carryPlace carry ((q₁ :: path₁).map (seps μ₁.view)) κ x := by
        simp only [List.map_cons, carryInto]
        rw [hroom]; rfl
      rw [hinto] at hstop ⊢
      refine run_mono (run_place hs hraised.up hraised.nodup (by simp only [List.mem_append, not_or] at hrA ⊢; exact ⟨hrA, hrO⟩)
        hl₁ hr₁ hasc hloc hpath₁ hE hstop) ?_
      rintro ⟨⟩ μ₂ ⟨d₂, O₂, hraised₂, hthick₂, path₂, hpath₂, hplace⟩
      refine ⟨d₂, O₂, hraised.trans hraised₂ (fun p hp => ?_), fun hA h => hthick₂ hA (hthick (fun c hc => ?_) ?_ h),
        path₂, hpath₂, hplace⟩
      · exact mem_ids_insert.2 (Or.inr hp)
      · -- the bounds of the level before are among those after
        rcases List.mem_append.1 hc with hc | hc
        · exact hA c (by simp [hc])
        · rcases List.mem_cons.1 hc with rfl | hc
          · exact hA (r, u) (by simp)
          · exact hA c (by simp [hc])
      · exact hA (l, some κ) (by simp) κ rfl

end into

end GSDBEngine
