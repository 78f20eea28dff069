import GSDBEngine.Proof.Parent

/-!
# Splits of internal nodes

`split_internal` moves the upper half of a node to a new page and its middle separator
into the parent. The level below stays as it was.

* `halved_level`: the two halves and their children.
* `run_insertIntoParent`, `run_splitInternal`: the two methods, by induction on the fuel.
-/

namespace GSDBEngine

set_option linter.unusedSectionVars false

open KeyRank BTree

variable {K L : Type} [KeyOps K] [LinearOrder L] [KeyRank K L]
variable {v v' v'' : View K} {root : PageId} {d : ℕ} {A B pre post : Level K} {O : List PageId} {b c : Cell K}
  {x κ : K} {p q l r : PageId} {μ μ' : Mem K} {E : Err K → Prop} {txn : ℕ}

/-! ### `split_internal`, over `insert_into_parent` -/

section halved

variable {es₁ es₂ : List (InternalEntry K)} {e : InternalEntry K} {rm : PageId} {w : Option K} {np np' nr : Node K}
  {B₁ B₂ : Level K}

theorem children_eq (es : List (InternalEntry K)) : children es rm = ids (cellsOf es rm w) := by
  simp [children, ids, cellsOf, Function.comp_def]

theorem cellsOf_halved : cellsOf (es₁ ++ e :: es₂) rm w = cellsOf es₁ e.child_page_id (some e.key) ++ cellsOf es₂ rm w := by
  simp [cellsOf]

variable
  (hup : Up v root d B O) (hin : ∀ b ∈ B, Inner v b) (hnd : (ids (expand v B) ++ (ids B ++ O)).Nodup)
  (hB : B = B₁ ++ (p, w) :: B₂) (hv : v p = some np) (hc : np.cells = .internal (es₁ ++ e :: es₂))
  (hrn : r ∉ ids (expand v B) ++ (ids B ++ O)) (hne : r ≠ INVALID_PAGE)
  (hvp : v' p = some np') (hpp : np'.parent_page = np.parent_page) (hpc : np'.cells = .internal es₁)
  (hpr : np'.rightmost_child = e.child_page_id)
  (hvr : v' r = some nr) (hrc : nr.cells = .internal es₂) (hrr : nr.rightmost_child = np.rightmost_child)
  (hvc : ∀ c ∈ children es₂ np.rightmost_child, ∀ m, v c = some m → v' c = some { m with parent_page := r })
  (hvo : ∀ q, q ≠ p → q ≠ r → q ∉ children es₂ np.rightmost_child → v' q = v q)

include hB hv hc in
theorem halved_mem {q : PageId} (hq : q ∈ children es₂ np.rightmost_child) : q ∈ ids (expand v B) := by
  rw [children_eq (w := w)] at hq
  obtain ⟨u, hu⟩ := mem_ids.1 hq
  refine mem_ids_of_mem (c := (q, u)) (mem_expand.2 ⟨(p, w), by rw [hB]; simp, ?_⟩)
  rw [rowAt_eq hv hc, cellsOf_halved]
  exact List.mem_append_right _ hu

include hB hv hc hnd hrn hvo

theorem halved_above {q : PageId} (hq : q ∈ ids B ++ O) (hqp : q ≠ p) : v' q = v q := by
  refine hvo q hqp (fun h => hrn (by rw [← h]; exact List.mem_append_right _ hq)) fun h => ?_
  exact (List.nodup_append.1 hnd).2.2 q (halved_mem hB hv hc h) q hq rfl

theorem halved_child {c : Cell K} (hcm : c ∈ expand v B) (hcs : c.1 ∉ children es₂ np.rightmost_child) :
    v' c.1 = v c.1 := by
  have hcA := mem_ids_of_mem hcm
  refine hvo c.1 (fun h => ?_) (fun h => ?_) hcs
  · exact (List.nodup_append.1 hnd).2.2 c.1 hcA p (by rw [hB]; simp) h
  · exact hrn (by rw [← h]; exact List.mem_append_left _ hcA)

include hvp hpc hpr hvr hrc hrr hin hne hvc

/-- Both halves have their children under them, the same children. -/
theorem halved_level : (∀ b ∈ B₁ ++ ([(p, some e.key), (r, w)] ++ B₂), Inner v' b) ∧
    expand v' (B₁ ++ ([(p, some e.key), (r, w)] ++ B₂)) = expand v B := by
  have hpB : (p, w) ∈ B := by rw [hB]; simp
  obtain ⟨hpne, n, es, hn, hcn, hch⟩ := hin (p, w) hpB
  rw [hv] at hn; cases hn
  rw [hc] at hcn; cases hcn
  have hndB := (List.nodup_append.1 (List.nodup_append.1 hnd).2.1).1
  have hrow : rowAt v (p, w) = cellsOf es₁ e.child_page_id (some e.key) ++ cellsOf es₂ np.rightmost_child w := by
    rw [rowAt_eq (c := (p, w)) hv hc, cellsOf_halved]
  have hA : ids (expand v B) = ids (expand v B₁) ++ (ids (cellsOf es₁ e.child_page_id (some e.key)) ++
      children es₂ np.rightmost_child) ++ ids (expand v B₂) := by
    rw [children_eq (w := w), hB, expand_append, expand_cons, hrow]
    simp only [ids_append, List.append_assoc]
  have hkeep {c : Cell K} := halved_child hnd hB hv hc hrn hvo (c := c)
  have hndA := (List.nodup_append.1 hnd).1
  rw [hA] at hndA
  obtain ⟨hleft, -, hright⟩ := List.nodup_append.1 hndA
  obtain ⟨-, hmid, hcross⟩ := List.nodup_append.1 hleft
  have hpinner : Inner v' (p, some e.key) := by
    refine ⟨hpne, np', es₁, hvp, hpc, fun c hcm => ?_⟩
    rw [hpr] at hcm
    have hcrow : c ∈ rowAt v (p, w) := by rw [hrow]; exact List.mem_append_left _ hcm
    obtain ⟨m, hm, hmp⟩ := hch c (by rwa [rowAt_eq (c := (p, w)) hv hc] at hcrow)
    refine ⟨m, ?_, hmp⟩
    rw [hkeep (mem_expand.2 ⟨_, hpB, hcrow⟩) fun h => ?_, hm]
    exact (List.nodup_append.1 hmid).2.2 c.1 (mem_ids_of_mem hcm) c.1 h rfl
  have hrinner : Inner v' (r, w) := by
    refine ⟨hne, nr, es₂, hvr, hrc, fun c hcm => ?_⟩
    rw [hrr] at hcm
    have hcrow : c ∈ rowAt v (p, w) := by rw [hrow]; exact List.mem_append_right _ hcm
    obtain ⟨m, hm, -⟩ := hch c (by rwa [rowAt_eq (c := (p, w)) hv hc] at hcrow)
    exact ⟨_, hvc c.1 (by rw [children_eq (w := w)]; exact mem_ids_of_mem hcm) m hm, rfl⟩
  obtain ⟨hin', hexp⟩ := rewrite_level v v' B₁ [(p, some e.key), (r, w)] B₂
    (fun b hb => hin b (ids_other hndB hB hb).1) (by simpa using ⟨hpinner, hrinner⟩)
    (fun b hb => by
      obtain ⟨hbB, hbp⟩ := ids_other hndB hB hb
      exact sameRow_of_eq (halved_above hnd hB hv hc hrn hvo (List.mem_append_left _ (mem_ids_of_mem hbB)) hbp))
    fun b hb c hcb => by
      refine sameParent_of_eq (hkeep (mem_expand.2 ⟨b, (ids_other hndB hB hb).1, hcb⟩) fun h => ?_)
      -- a child of another node is not among those moved
      rcases List.mem_append.1 hb with hb | hb
      · exact hcross c.1 (mem_ids_of_mem (mem_expand.2 ⟨b, hb, hcb⟩)) c.1 (List.mem_append_right _ h) rfl
      · exact hright c.1 (List.mem_append_right _ (List.mem_append_right _ h)) c.1
          (mem_ids_of_mem (mem_expand.2 ⟨b, hb, hcb⟩)) rfl
  refine ⟨hin', ?_⟩
  have hnew : expand v' [(p, some e.key), (r, w)] = rowAt v (p, w) := by
    rw [expand_cons, expand_cons, expand_nil, List.append_nil, rowAt_eq (c := (p, some e.key)) hvp hpc,
      rowAt_eq (c := (r, w)) hvr hrc, hpr, hrr, hrow]
  rw [hexp, hnew, hB, expand_append, expand_cons (c := (p, w))]

omit hpc hpr hvr hrc hrr hin hne hvc in
include hup hpp in
theorem halved_up : Up v' root d B O := by
  refine hup.congr (fun q hq => sameRow_of_eq ?_) fun q hq => ?_
  · refine halved_above hnd hB hv hc hrn hvo (List.mem_append_right _ hq) fun h => ?_
    exact (List.nodup_append.1 (List.nodup_append.1 hnd).2.1).2.2 p (by rw [hB]; simp) q hq h.symm
  · by_cases hqp : q = p
    · subst hqp
      intro n hn
      rw [hv] at hn; cases hn
      exact ⟨np', hvp, hpp⟩
    · exact sameParent_of_eq (halved_above hnd hB hv hc hrn hvo hq hqp)

end halved

/-- The level above rebuilt, the level below is as it was. -/
theorem raised_below {B' : Level K} {d₁ : ℕ} {O₁ : List PageId} (h : Raised v' O μ B' d₁ O₁)
    (hin : ∀ b ∈ B', Inner v' b) (hexp : expand v' B' = A) (hnd : (ids A ++ (ids B ++ O)).Nodup)
    (hsub : ids B ⊆ ids B') (hnew : ∀ q ∈ ids B', q ∈ ids B ∨ v q = none)
    (hkeep : ∀ q ∈ ids A, v q ≠ none ∧ Moved v v' q) (hframe : ∀ q, q ∉ ids A → q ∉ ids B' → v' q = v q)
    (hnone : ∀ q, v' q = none → v q = none) :
    Raised v (ids B ++ O) μ A (d₁ + 1) (ids B' ++ O₁) ∧ (∀ b ∈ B', Inner μ.view b) ∧ expand μ.view B' = A := by
  have hdis : ∀ q ∈ ids A, q ∉ ids B' ∧ q ∉ O₁ := fun q hq => by
    obtain ⟨hq0, -⟩ := hkeep q hq
    have hqBO : q ∉ ids B ++ O := fun h => (List.nodup_append.1 hnd).2.2 q hq q h rfl
    refine ⟨fun hB' => ?_, fun hO₁ => ?_⟩
    · rcases hnew q hB' with h | h
      · exact hqBO (List.mem_append_left _ h)
      · exact hq0 h
    · rcases h.fresh q hO₁ with h | h
      · exact hqBO (List.mem_append_right _ h)
      · exact hq0 (hnone q h)
  have hsame : ∀ q ∈ ids A, μ.view q = v' q := fun q hq => h.frame q (hdis q hq).1 (hdis q hq).2
  have hrow : ∀ b ∈ B', SameRow v' μ.view b.1 := fun b hb => (h.keep b.1 (mem_ids_of_mem hb)).sameRow
  have hin' : ∀ b ∈ B', Inner μ.view b := fun b hb =>
    (hin b hb).congr (hrow b hb) fun c hc => sameParent_of_eq
      (hsame _ (by rw [← hexp]; exact mem_ids_of_mem (mem_expand.2 ⟨b, hb, hc⟩)))
  have hexp' : expand μ.view B' = A := by
    rw [← hexp]
    refine expand_congr fun b hb => ?_
    obtain ⟨-, n, es, hv, -⟩ := hin b hb
    exact rowAt_sameRow hv (hrow b hb)
  refine ⟨⟨hexp' ▸ .down h.up hin', ?_, ?_, ?_, ?_, ?_⟩, hin', hexp'⟩
  · refine List.nodup_append.2 ⟨(List.nodup_append.1 hnd).1, h.nodup, fun q hq q' hq' hqq => ?_⟩
    subst hqq
    rcases List.mem_append.1 hq' with h' | h'
    · exact (hdis q hq).1 h'
    · exact (hdis q hq).2 h'
  · exact fun q hq => (hkeep q hq).2.trans (moved_of_eq (hsame q hq))
  · intro q hA hBO
    rw [List.mem_append, not_or] at hBO
    rw [h.frame q hBO.1 hBO.2, hframe q hA hBO.1]
  · intro q hq
    rcases List.mem_append.1 hq with hq | hq
    · exact (hnew q hq).imp_left fun h => List.mem_append_left _ h
    · rcases h.fresh q hq with h' | h'
      · exact Or.inl (List.mem_append_right _ h')
      · exact Or.inr (hnone q h')
  · intro q hq
    rcases List.mem_append.1 hq with hq | hq
    · exact List.mem_append_left _ (hsub hq)
    · exact List.mem_append_right _ (h.mono q hq)

theorem split_at {α : Type} {l : List α} {i : ℕ} {e : α} (h : l[i]? = some e) : l = l.take i ++ e :: l.drop (i + 1) := by
  obtain ⟨hi, rfl⟩ := List.getElem?_eq_some_iff.1 h
  simp

/-- The halves of a node fit. -/
theorem halves_fit {np : Node K} {es₁ es₂ : List (InternalEntry K)} {e : InternalEntry K}
    (hc : np.cells = .internal (es₁ ++ e :: es₂)) :
    (Cells.internal es₁).bytes.length ≤ CAPACITY ∧ (Cells.internal es₂).bytes.length ≤ CAPACITY := by
  have h := np.fits
  rw [hc, internal_bytes_length, List.map_append, sepSize_append, List.map_cons, ← List.singleton_append,
    sepSize_append] at h
  rw [internal_bytes_length, internal_bytes_length]
  omega

/-- **`split_internal`**, given `insert_into_parent` one level up. -/
theorem split_of_into {fuel : ℕ} (hinto : IntoParentSpec txn (splitInternal fuel txn) (carrySplit (K := K) fuel)) :
    SplitSpec (splitInternal (fuel + 1) txn) (carrySplit (K := K) (fuel + 1)) := by
  intro μ d B pre post O p w c x path E hup hin hnd hasc hpB hloc hcrow hpath hE hstop
  obtain ⟨B₁, b, B₂, r₁, r₂, hlocb, hrow, -, -⟩ := hloc.parent hin
  obtain rfl : b = (p, w) := parent_unique hin (List.nodup_append.1 (List.nodup_append.1 hnd).2.1).1
    (by rw [hlocb.eq]; simp) hpB (by rw [hrow]; simp) hcrow
  have hB := hlocb.eq
  obtain ⟨hpne, np, es, hv, hc, hch⟩ := hin (p, w) hpB
  have hks : seps μ.view p = es.map InternalEntry.key := seps_eq hv hc
  unfold splitInternal
  refine run_fetchNode hv (run_internalEntries hc ?_)
  dsimp only
  cases hmid : es[es.length / 2]? with
  | none =>
    refine run_throw (hstop .empty ?_)
    simp [carrySplit, hks, hmid]
  | some e =>
    dsimp only
    have hcarry : carrySplit (fuel + 1) (seps μ.view p :: path.map (seps μ.view)) x = (do
        let up ← carryInto (carrySplit fuel) (path.map (seps μ.view)) e.key x
        .ok ((if KeyOps.lt x e.key then (es.take (es.length / 2)).map InternalEntry.key
          else (es.drop (es.length / 2 + 1)).map InternalEntry.key) :: up)) := by
      simp [carrySplit, hks, hmid, List.map_take, List.map_drop]
    have hsplit := split_at hmid
    have hhalves : 4 ≤ es.length → es.take (es.length / 2) ≠ [] ∧ es.drop (es.length / 2 + 1) ≠ [] := fun h => by
      constructor <;> rw [← List.length_pos_iff]
      · rw [List.length_take]; omega
      · rw [List.length_drop]; omega
    generalize es.take (es.length / 2) = es₁ at hsplit hcarry hhalves ⊢
    generalize es.drop (es.length / 2 + 1) = es₂ at hsplit hcarry hhalves ⊢
    clear hmid
    subst hsplit
    obtain ⟨hfit₁, hfit₂⟩ := halves_fit hc
    refine run_allocNode hE fun r F hr hrne => ?_
    have hpr : p ≠ r := fun h => by rw [← h, hv] at hr; cases hr
    refine run_setInternalEntries (n := Node.init .INTERNAL) (by simp) (fun h => absurd hfit₂ h) fun _ => ?_
    rw [Mem.set_set]
    refine run_setRightmostChild (n := (Node.init .INTERNAL).withCells (.internal es₂) hfit₂) (by simp) ?_
    rw [Mem.set_set]
    refine run_setParentPage (n := { (Node.init .INTERNAL).withCells (.internal es₂) hfit₂ with
      rightmost_child := np.rightmost_child }) (by simp) ?_
    rw [Mem.set_set]
    generalize hnr : ({ (Node.init .INTERNAL).withCells (.internal es₂) hfit₂ with
      rightmost_child := np.rightmost_child, parent_page := np.parent_page } : Node K) = nr
    have hrc : nr.cells = .internal es₂ := by rw [← hnr]; rfl
    have hrr : nr.rightmost_child = np.rightmost_child := by rw [← hnr]
    refine run_setInternalEntries (n := np) (by simp [hpr, hv]) (fun h => absurd hfit₁ h) fun _ => ?_
    refine run_setRightmostChild (n := np.withCells (.internal es₁) hfit₁) (by simp) ?_
    rw [Mem.set_set]
    generalize hnp' : ({ np.withCells (.internal es₁) hfit₁ with rightmost_child := e.child_page_id } : Node K) = np'
    have hpc : np'.cells = .internal es₁ := by rw [← hnp']; rfl
    have hpr' : np'.rightmost_child = e.child_page_id := by rw [← hnp']
    have hpp : np'.parent_page = np.parent_page := by rw [← hnp']; rfl
    have hrn : r ∉ ids (expand μ.view B) ++ (ids B ++ O) := fun h => by
      obtain ⟨n, hn⟩ := (Up.down hup hin).alive_ids h
      rw [hr] at hn; cases hn
    have hpB' : p ∈ ids B ++ O := List.mem_append_left _ (mem_ids_of_mem hpB)
    have hchild : ∀ q ∈ children es₂ np.rightmost_child, q ≠ p ∧ q ≠ r ∧ ∃ m, μ.view q = some m := fun q hq => by
      have hqA := halved_mem hB hv hc hq
      refine ⟨(List.nodup_append.1 hnd).2.2 q hqA p hpB', fun h => hrn (by rw [← h]; exact List.mem_append_left _ hqA), ?_⟩
      exact (Up.down hup hin).alive_ids (List.mem_append_left _ hqA)
    refine run_adoptChildren (fun q hq => ?_) ?_
    · obtain ⟨hqp, hqr, m, hm⟩ := hchild q hq
      exact ⟨m, by simp [hqp, hqr, hm]⟩
    refine run_writePage (run_writePage ?_)
    -- the memory both halves are in, with the children of the right one moved under it
    set μ₁ : Mem K := ({ μ with free := F }.set r nr).set p np' with hμ₁
    set μ₂ : Mem K := { μ₁ with view := μ₁.view.adopt r (children es₂ np.rightmost_child) } with hμ₂
    have hvp : μ₂.view p = some np' := by
      rw [hμ₂]; dsimp only
      rw [View.adopt_of_not_mem fun h => (hchild p h).1 rfl]; simp [hμ₁]
    have hvr : μ₂.view r = some nr := by
      rw [hμ₂]; dsimp only
      rw [View.adopt_of_not_mem fun h => (hchild r h).2.1 rfl]; simp [hμ₁, hpr.symm]
    have hvc : ∀ q ∈ children es₂ np.rightmost_child, ∀ m, μ.view q = some m →
        μ₂.view q = some { m with parent_page := r } := fun q hq m hm =>
      View.adopt_of_mem hq (by simp [hμ₁, (hchild q hq).1, (hchild q hq).2.1, hm])
    have hvo : ∀ q, q ≠ p → q ≠ r → q ∉ children es₂ np.rightmost_child → μ₂.view q = μ.view q := fun q h1 h2 h3 => by
      rw [hμ₂]; dsimp only
      rw [View.adopt_of_not_mem h3]; simp [hμ₁, h1, h2]
    obtain ⟨hin₂, hexp₂⟩ := halved_level hin hnd hB hv hc hrn hrne hvp hpc hpr' hvr hrc hrr hvc hvo
    have hup₂ : Up μ₂.view μ₂.root d B O := halved_up hup hnd hB hv hc hrn hvp hpp hvo
    have hasc₂ := hasc
    rw [← hexp₂] at hasc₂
    have hpath_in : ∀ q ∈ path, q ∈ O := hup.path_mem (mem_ids_of_mem hpB) hpath
    have hpath_eq : ∀ q ∈ path, μ₂.view q = μ.view q := fun q hq =>
      halved_above hnd hB hv hc hrn hvo (List.mem_append_right _ (hpath_in q hq)) fun h =>
        (List.nodup_append.1 (List.nodup_append.1 hnd).2.1).2.2 p (mem_ids_of_mem hpB) q (hpath_in q hq) h.symm
    have hseps : path.map (seps μ₂.view) = path.map (seps μ.view) := List.map_congr_left fun q hq => by
      simp only [seps, hpath_eq q hq]
    have hpath₂ : Path μ₂.view p path := hpath.congr fun q hq => by
      rcases List.mem_cons.1 hq with rfl | hq
      · intro n hn
        rw [hv] at hn; cases hn
        exact ⟨np', hvp, hpp⟩
      · exact sameParent_of_eq (hpath_eq q hq)
    rw [hcarry] at hstop ⊢
    rw [hB] at hup₂ hlocb
    have hnd₂ : (ids (B₁ ++ (p, w) :: B₂) ++ O).Nodup := by rw [← hB]; exact (List.nodup_append.1 hnd).2.1
    refine run_mono (hinto (x := x) hup₂ hnd₂ (fun h => hrn (List.mem_append_right _ (by rwa [hB]))) hvp hvr
      (hasc₂.of_expand hin₂) hlocb hpath₂ hE fun stop he => ?_) ?_
    · rw [hseps] at he
      exact hstop stop (by rw [he]; rfl)
    rintro ⟨⟩ μ₃ ⟨d₁, O₁, hraised, hthick, path₁, hpath₁, hinto₁⟩
    rw [hseps] at hinto₁
    have hsp : seps μ₃.view p = es₁.map InternalEntry.key := by
      rw [seps_sameRow hvp (hraised.keep p (by simp)).sameRow, seps_eq hvp hpc]
    have hsr : seps μ₃.view r = es₂.map InternalEntry.key := by
      rw [seps_sameRow hvr (hraised.keep r (by simp)).sameRow, seps_eq hvr hrc]
    have hmoved : ∀ q ∈ ids (expand μ.view B), μ.view q ≠ none ∧ Moved μ.view μ₂.view q := fun q hq => by
      obtain ⟨m, hm⟩ := (Up.down hup hin).alive_ids (List.mem_append_left _ hq)
      refine ⟨by rw [hm]; exact Option.some_ne_none m, ?_⟩
      by_cases hqc : q ∈ children es₂ np.rightmost_child
      · intro n hn
        exact ⟨r, hvc q hqc n hn⟩
      · refine moved_of_eq (hvo q (fun h => ?_) (fun h => ?_) hqc)
        · exact (List.nodup_append.1 hnd).2.2 q hq p hpB' h
        · exact hrn (by rw [← h]; exact List.mem_append_left _ hq)
    have hmemB : ∀ q, q ∈ ids (B₁ ++ (p, some e.key) :: (r, w) :: B₂) ↔ q = r ∨ q ∈ ids B := by
      intro q; rw [hB]; exact mem_ids_insert
    obtain ⟨hbelow, hin₃, hexp₃⟩ := raised_below hraised hin₂ hexp₂ hnd (fun q hq => (hmemB q).2 (Or.inr hq))
      (fun q hq => ((hmemB q).1 hq).symm.imp_right fun h => h ▸ hr) hmoved
      (fun q hA hB' => hvo q (fun h => hB' ((hmemB q).2 (Or.inr (h ▸ mem_ids_of_mem hpB))))
        (fun h => hB' ((hmemB q).2 (Or.inl h))) fun h => hA (halved_mem hB hv hc h))
      (fun q hq => by
        by_cases hqA : q ∈ ids (expand μ.view B)
        · obtain ⟨m, hm⟩ := (Up.down hup hin).alive_ids (List.mem_append_left _ hqA)
          obtain ⟨q', hq'⟩ := (hmoved q hqA).2 m hm
          rw [hq] at hq'; cases hq'
        · by_cases hqp : q = p
          · rw [hqp, hvp] at hq; cases hq
          · by_cases hqr : q = r
            · rw [hqr]; exact hr
            · rw [← hvo q hqp hqr fun h => hqA (halved_mem hB hv hc h)]; exact hq)
    refine ⟨_, _, hbelow, fun hA hlen h q hq => ?_, (if KeyOps.lt x e.key then p else r) :: path₁, ?_, ?_⟩
    · rw [← hexp₂] at hA
      obtain ⟨hne₁, hne₂⟩ := hhalves (by rwa [hks, List.length_map] at hlen)
      rcases List.mem_append.1 hq with hq | hq
      · by_cases hqp : q = p
        · rw [hqp, hsp]; simpa using hne₁
        · rcases (hmemB q).1 hq with rfl | hqB
          · rw [hsr]; simpa using hne₂
          · have hq₂ := halved_above hnd hB hv hc hrn hvo (List.mem_append_left O hqB) hqp
            obtain ⟨m, hm⟩ := hup.alive_ids (List.mem_append_left _ hqB)
            rw [seps_sameRow (hq₂.trans hm) (hraised.keep q hq).sameRow]
            simpa only [seps, hq₂] using h q (List.mem_append_left _ hqB)
      · refine hthick (hA.above hin₂) (fun q hqO => ?_) q hq
        have hq₂ := halved_above hnd hB hv hc hrn hvo (List.mem_append_right _ hqO) fun h =>
          (List.nodup_append.1 (List.nodup_append.1 hnd).2.1).2.2 p (mem_ids_of_mem hpB) q hqO h.symm
        simpa only [seps, hq₂] using h q (List.mem_append_right _ hqO)
    · obtain ⟨pre', post', hside⟩ := hlocb.side (r := r) (κ := e.key)
      rw [← hexp₃] at hloc hasc
      have hcr := hside.in_row hasc.rising hin₃ hloc
      have hpath₃ : Path μ₃.view _ path₁ → _ := (hin₃ _ hside.mem).path hcr
      rw [apply_ite Prod.fst] at hpath₃
      exact hpath₃ hpath₁
    · rw [hinto₁]
      show Except.ok _ = Except.ok _
      rw [List.map_cons, apply_ite (seps μ₃.view), hsp, hsr]

theorem carrySplit_ne_nil (fuel : ℕ) (s : Spine K) (x : K) : carrySplit fuel s x ≠ .ok [] := by
  cases fuel with
  | zero => intro h; cases h
  | succ fuel =>
    cases s with
    | nil => intro h; cases h
    | cons ks up =>
      unfold carrySplit
      split
      · intro h; cases h
      · cases carryInto (carrySplit fuel) up _ x <;> intro h <;> cases h

/-- **`split_internal`**, by induction on the levels it may climb. -/
theorem run_splitInternal : ∀ fuel : ℕ, SplitSpec (splitInternal fuel txn) (carrySplit (K := K) fuel)
  | 0 => fun _ _ _ _ _ _ _ _ _ _ _ _ _ _ _ _ _ _ _ _ _ hstop => run_throw (hstop .fuel rfl)
  | fuel + 1 => split_of_into (intoParent_of_split (run_splitInternal fuel) (carrySplit_ne_nil fuel))

theorem run_insertIntoParent (fuel : ℕ) : IntoParentSpec txn (splitInternal fuel txn) (carrySplit (K := K) fuel) :=
  intoParent_of_split (run_splitInternal fuel) (carrySplit_ne_nil fuel)

end GSDBEngine
