import GSDBEngine.Proof.Own
import GSDBEngine.Proof.Replay
import GSDBEngine.Proof.Remove

/-!
# Trees beside each other

Any number of trees stand on pages of their own (`Forest`). A call hands pages over
between one tree and the free list, and leaves the pages of the others alone. What a tree
stands on is what is reachable from its root, so every page has one owner.

* `Forest.step`: the trees after one of them changed.
* `step_forest`: one step of the system.
* `pages_partitioned`: **in every run that spares the last entry of a leaf, every page
  is fixed, free, or in one tree.**
-/

namespace GSDBEngine

set_option linter.unusedSectionVars false

open KeyRank BTree Eff

variable {K L : Type} [KeyOps K] [LinearOrder L] [KeyRank K L]
variable {v v' : View K} {root : PageId} {d : ℕ} {A B : Level K} {O : List PageId} {p q c : PageId} {c' : Cell K} {μ μ' : Mem K}
  {s s' : Store K} {roots : ℕ → PageId} {i : ℕ} {x : K}

/-! ### What is reachable -/

theorem children_mem {n : Node K} {es : List (InternalEntry K)} (hv : v p = some n) (hc : n.cells = .internal es) (w : Option K) :
    Child v p c ↔ c ∈ ids (rowAt v (p, w)) := by
  rw [rowAt_eq (c := (p, w)) hv hc, ← children_eq]
  constructor
  · rintro ⟨n', es', hv', hc', hmem⟩
    rw [hv] at hv'; cases hv'
    rw [hc] at hc'; cases hc'
    exact hmem
  · exact fun hmem => ⟨n, es, hv, hc, hmem⟩

theorem Up.reachable (h : Up v root d A O) : ∀ p ∈ ids A ++ O, Reachable v root p := by
  induction h with
  | root =>
    intro p hp
    obtain rfl : p = _ := by simpa using hp
    exact Relation.ReflTransGen.refl
  | @down d B O hB hin ih =>
    intro p hp
    rcases List.mem_append.1 hp with hp | hp
    · obtain ⟨u, hu⟩ := mem_ids.1 hp
      obtain ⟨b, hb, hc⟩ := mem_expand.1 hu
      obtain ⟨-, n, es, hv, hcells, -⟩ := hin b hb
      refine (ih b.1 (List.mem_append_left _ (mem_ids_of_mem hb))).tail ?_
      exact (children_mem hv hcells b.2).2 (mem_ids_of_mem hc)
    · exact ih p hp

theorem Up.closed (h : Up v root d A O) : ∀ p ∈ O, ∀ c, Child v p c → c ∈ ids A ++ O := by
  induction h with
  | root => intro p hp; cases hp
  | @down d B O hB hin ih =>
    intro p hp c hc
    rcases List.mem_append.1 hp with hp | hp
    · obtain ⟨w, hw⟩ := mem_ids.1 hp
      obtain ⟨-, n, es, hv, hcells, -⟩ := hin _ hw
      obtain ⟨u, hu⟩ := mem_ids.1 ((children_mem hv hcells w).1 hc)
      exact List.mem_append_left _ (mem_ids_of_mem (mem_expand.2 ⟨_, hw, hu⟩))
    · rcases List.mem_append.1 (ih p hp c hc) with h | h
      · exact List.mem_append_right _ (List.mem_append_left _ h)
      · exact List.mem_append_right _ (List.mem_append_right _ h)

theorem Up.root_mem (h : Up v root d A O) : root ∈ ids A ++ O := by
  induction h with
  | root => simp
  | down _ _ ih => exact List.mem_append_right _ ih

/-- **The pages of a tree are what is reachable from its root.** -/
theorem TreeOK.reachable_iff (h : TreeOK v root d A O) : Reachable v root p ↔ p ∈ ids A ++ O := by
  refine ⟨fun hr => ?_, h.up.reachable p⟩
  induction hr with
  | refl => exact h.up.root_mem
  | @tail b c _ hbc ih =>
    rcases List.mem_append.1 ih with hb | hb
    · obtain ⟨u, hu⟩ := mem_ids.1 hb
      obtain ⟨-, n, es, hv, hc⟩ := h.leaves _ hu
      obtain ⟨n', es', hv', hc', -⟩ := hbc
      rw [hv] at hv'; cases hv'
      rw [hc] at hc'; cases hc'
    · exact h.up.closed b hb c hbc

theorem TreeOK.alive (h : TreeOK v root d A O) (hp : p ∈ ids A ++ O) : v p ≠ none := by
  obtain ⟨n, hn⟩ := h.up.alive_ids hp
  rw [hn]; exact Option.some_ne_none n

/-- A tree on pages that stay. -/
theorem TreeOK.congr (h : TreeOK v root d A O) (hs : ∀ p ∈ ids A ++ O, v' p = v p) : TreeOK v' root d A O where
  toLeavesOK := (h.toLeavesOK.moved fun p hp => moved_of_eq (hs p (List.mem_append_left _ hp))).1
  up := h.up.congr (fun p hp => sameRow_of_eq (hs p (List.mem_append_right _ hp))) fun p hp => sameParent_of_eq (hs p hp)
  nodup := h.nodup

/-! ### Trees on pages of their own -/

/-- Where a tree stands: its depth, its leaves, and the pages above them. -/
structure Tree (K : Type) where
  depth : ℕ
  leaves : Level K
  above : List PageId

def Tree.pages (t : Tree K) : List PageId := ids t.leaves ++ t.above

/-- The trees that have been constructed stand on pages of their own, and every node is in one. -/
structure Forest (v : View K) (roots : ℕ → PageId) (t : ℕ → Tree K) : Prop where
  tree : ∀ i, roots i ≠ INVALID_PAGE → TreeOK v (roots i) (t i).depth (t i).leaves (t i).above
  apart : ∀ i j p, roots i ≠ INVALID_PAGE → roots j ≠ INVALID_PAGE → p ∈ (t i).pages → p ∈ (t j).pages → i = j
  cover : ∀ p, v p ≠ none → ∃ i, roots i ≠ INVALID_PAGE ∧ p ∈ (t i).pages

/-- The pages of tree `i`, none before it is constructed. -/
def pagesOf (roots : ℕ → PageId) (t : ℕ → Tree K) (i : ℕ) : List PageId :=
  if roots i = INVALID_PAGE then [] else (t i).pages

/-- **The trees after tree `i` changed**, or was constructed. -/
theorem Forest.step {t : ℕ → Tree K} (h : Forest v roots t) (i : ℕ) (hr : root ≠ INVALID_PAGE) (ht : TreeOK v' root d A O)
    (ho : Owned v (pagesOf roots t i) v' (ids A ++ O)) :
    Forest v' (Function.update roots i root) (Function.update t i ⟨d, A, O⟩) := by
  -- the other trees are not touched
  have hother : ∀ j, j ≠ i → roots j ≠ INVALID_PAGE → ∀ p ∈ (t j).pages, p ∉ pagesOf roots t i ∧ p ∉ ids A ++ O := by
    intro j hji hj p hp
    have hnot : p ∉ pagesOf roots t i := fun hmem => by
      unfold pagesOf at hmem
      split at hmem
      · cases hmem
      · exact hji (h.apart j i p hj ‹_› hp hmem)
    exact ⟨hnot, fun hmem => (h.tree j hj).alive hp ((ho.fresh p hmem).resolve_left hnot)⟩
  refine ⟨fun j hj => ?_, fun j k p hj hk hpj hpk => ?_, fun p hp => ?_⟩
  · by_cases hji : j = i
    · subst hji; simpa using ht
    · rw [Function.update_of_ne hji] at hj ⊢
      rw [Function.update_of_ne hji]
      exact (h.tree j hj).congr fun p hp => ho.frame p (hother j hji hj p hp).1 (hother j hji hj p hp).2
  · by_cases hji : j = i <;> by_cases hki : k = i
    · rw [hji, hki]
    · subst hji
      rw [Function.update_self] at hpj
      rw [Function.update_of_ne hki] at hk hpk
      exact absurd hpj (hother k hki hk p hpk).2
    · subst hki
      rw [Function.update_self] at hpk
      rw [Function.update_of_ne hji] at hj hpj
      exact absurd hpk (hother j hji hj p hpj).2
    · rw [Function.update_of_ne hji] at hj hpj
      rw [Function.update_of_ne hki] at hk hpk
      exact h.apart j k p hj hk hpj hpk
  · by_cases hpA : p ∈ ids A ++ O
    · exact ⟨i, by simpa using hr, by rw [Function.update_self]; exact hpA⟩
    · by_cases hpi : p ∈ pagesOf roots t i
      · exact absurd (ho.gone p hpi hpA) hp
      · rw [ho.frame p hpi hpA] at hp
        obtain ⟨j, hj, hpj⟩ := h.cover p hp
        have hji : j ≠ i := fun hji => hpi (by rw [pagesOf, if_neg (hji ▸ hj)]; exact hji ▸ hpj)
        exact ⟨j, by rwa [Function.update_of_ne hji], by rwa [Function.update_of_ne hji]⟩

/-! ### Calls -/

/-- **A new tree**: one empty leaf, on a page that was free or not there. -/
theorem run_createRoot {txn : ℕ} {E : Err K → Prop} (hE : E .file_extend) :
    Run μ (createRootPage txn >>= fun page_id => modify fun s => { s with root_page := page_id }) E fun _ μ' =>
      ∃ p, p ≠ INVALID_PAGE ∧ TreeOK μ'.view μ'.root 0 [(p, none)] [] ∧ content μ'.view [(p, none)] = [] ∧
        Owned μ.view [] μ'.view [p] := by
  unfold createRootPage
  simp only [bind_assoc]
  refine run_allocNode hE fun p F hp hne => run_writePage ?_
  rw [pure_bind]
  refine run_last (run_setRoot (run_pure ?_))
  set v' : View K := Function.update μ.view p (some (Node.init .LEAF)) with hv'
  have hvp : v' p = some (Node.init .LEAF) := by simp [hv']
  have hleaf : leafAt v' p = [] := leafAt_eq hvp rfl
  refine ⟨p, hne, ⟨⟨fun c hc => ?_, ⟨⟨_, hvp, rfl⟩, trivial⟩, ?_, fun e he => ?_⟩, .root hvp rfl, by simp⟩, ?_, ?_⟩
  · rw [List.mem_singleton.1 hc]
    exact ⟨hne, _, [], hvp, rfl⟩
  · show (tokens v' [(p, none)]).Pairwise _
    rw [tokens_cons, hleaf]
    simp
  · have he' : e ∈ content v' [(p, none)] := he
    rw [content_cons, hleaf] at he'
    cases he'
  · show content v' [(p, none)] = []
    rw [content_cons, hleaf]; rfl
  · refine ⟨fun q _ hq => ?_, fun q hq => ?_, fun q hq => absurd hq List.not_mem_nil⟩
    · have hqp : q ≠ p := by simpa using hq
      exact Function.update_of_ne hqp _ _
    · rw [List.mem_singleton.1 hq]
      exact Or.inr hp

/-- What the descent finds, as the code computes it. -/
theorem findLeafPage_eq (hs : Holds s μ) (ht : TreeOK μ.view μ.root d A O) {pre post : Level K} (hloc : Loc A x pre c' post) :
    findLeafPage x s = .ok c'.1 s := by
  have hrun : Run μ (findLeafPage x) (fun _ => False) fun p μ' => p = c'.1 := by
    have h := run_findLeafPage (E := fun _ => False) (Q := fun p _ => p = c'.1) ht.loose hloc (f := pure) (run_pure rfl)
    rwa [bind_pure] at h
  have h1 := hrun s hs
  have h2 := wp_findLeafPage (s := s) x
  unfold wp at h1 h2
  cases hf : findLeafPage x s with
  | ok p s' =>
    rw [hf] at h1 h2
    obtain ⟨-, -, -, rfl⟩ := h1
    rw [show s' = s from h2]
  | error e s' =>
    rw [hf] at h1
    exact h1.elim

/-- **A call on one tree**: the tree is one again, on its own pages and pages that were free. -/
theorem wp_call {t : ℕ → Tree K} (h : Forest μ.view roots t) (hs : Holds s μ) (cl : Call K) (hroot : μ.root = roots cl.tree)
    (hused : cl.wellUsed roots)
    (hspare : cl.sparing s) (txn : ℕ) :
    wp (cl.body txn) (fun _ _ => True) (fun _ s' => ∃ μ', Holds s' μ' ∧ s'.fixed = s.fixed ∧ ∃ d A O,
      TreeOK μ'.view μ'.root d A O ∧ Owned μ.view (pagesOf roots t cl.tree) μ'.view (ids A ++ O)) s := by
  cases cl with
  | construct i =>
    have hpages : pagesOf roots t i = [] := if_pos hused
    refine run_mono (run_createRoot (E := fun _ => True) trivial) ?_ s hs
    rintro ⟨⟩ μ' ⟨p, -, ht, -, ho⟩
    rw [show (Call.construct i : Call K).tree = i from rfl, hpages]
    exact ⟨_, _, _, ht, ho⟩
  | insert i key value =>
    have hpages : pagesOf roots t i = (t i).pages := if_neg hused
    have ht := h.tree i hused
    rw [← show μ.root = roots i from hroot] at ht
    refine run_mono (run_insertTx (E := fun _ => True) ht trivial (fun _ _ _ => trivial)
      fun pre l u post n es path hloc hl hc _ hx => ⟨fun _ _ => trivial, fun _ _ => trivial, fun hfull e he => ⟨?_, ?_, ?_⟩⟩) ?_ s hs
    · have hav : n.available = CAPACITY - (Cells.leaf es).bytes.length := by rw [Node.available, Node.used_space, hc]
      refine (hspare l n es (findLeafPage_eq hs ht hloc) (by rw [hs.view]; exact hl) hc hx (by rw [hav]; exact hfull)).imp_right ?_
      exact fun hlt => lt_true.1 (hlt e (List.mem_of_getElem? he))
    · exact fun _ _ _ _ => trivial
    · exact fun _ => trivial
    · rintro ⟨⟩ μ' ⟨-, d', A', O', ht', -, ho, -⟩
      rw [show (Call.insert i key value).tree = i from rfl, hpages]
      exact ⟨_, _, _, ht', ho⟩
  | remove i key =>
    have hpages : pagesOf roots t i = (t i).pages := if_neg hused
    have ht := h.tree i hused
    rw [← show μ.root = roots i from hroot] at ht
    refine run_mono (run_removeTx (E := fun _ => True) ht trivial (fun _ => trivial) (fun _ _ _ => trivial)
      fun pre c post hloc => ?_) ?_ s hs
    · have := hspare c.1 (findLeafPage_eq hs ht hloc)
      rw [hs.view] at this
      exact this.level
    · rintro ⟨⟩ μ' ⟨-, d', A', O', ht', -, ho, -⟩
      rw [show (Call.remove i key : Call K).tree = i from rfl, hpages]
      exact ⟨_, _, _, ht', ho⟩

/-! ### Runs of the system -/

/-- The trees of the system, on their pages; the free list, and the frames as the open transaction has logged them. -/
structure Stands (fixed : PageId → Prop) (σ : System K) (t : ℕ → Tree K) (F : List PageId) : Prop where
  forest : Forest σ.store.view σ.roots t
  holds : Holds σ.store ⟨σ.store.view, σ.store.root_page, F⟩
  fixed_eq : σ.store.fixed = fixed
  idle : σ.running = none → Idle σ.store
  sync : ∀ txn, σ.running = some txn → ∃ old, Sync (LogInv.any K txn) old ∅ σ.store

theorem Stands.enter {fixed : PageId → Prop} {σ : System K} {t : ℕ → Tree K} {F : List PageId} (h : Stands fixed σ t F) (i : ℕ) :
    Holds (σ.enter i) ⟨σ.store.view, σ.roots i, F⟩ :=
  ⟨rfl, rfl, h.holds.chain, h.holds.nodup, h.holds.listed, h.holds.pages⟩

/-- The store of the system when a memory of a tree holds. -/
theorem Holds.leave (h : Holds s μ) : Holds s ⟨s.view, s.root_page, μ.free⟩ :=
  ⟨rfl, rfl, h.chain, h.nodup, h.listed, h.pages⟩

/-- A call that returned, in the trees of the system. -/
theorem Stands.called {fixed : PageId → Prop} {σ : System K} {t : ℕ → Tree K} {F : List PageId} (h : Stands fixed σ t F)
    {c : Call K} (hu : c.wellUsed σ.roots) (hsp : c.sparing (σ.enter c.tree)) {txn : ℕ} (hrun : σ.running = some txn)
    (hok : c.body txn (σ.enter c.tree) = .ok () s') : ∃ t' F', Stands fixed (σ.leave c.tree s') t' F' := by
  obtain ⟨old, hsync⟩ := h.sync txn hrun
  have hcall := wp_call h.forest (h.enter c.tree) c rfl hu hsp txn
  obtain ⟨μ', hs', hfix, d, A, O, ht, ho⟩ := (wp_ok hcall hok :)
  have hsync' := wp_ok (callOK_body c (sync_root hsync (σ.roots c.tree))) hok
  obtain ⟨n, hn⟩ := ht.up.alive_ids ht.up.root_mem
  have hforest : Forest (σ.leave c.tree s').store.view (σ.leave c.tree s').roots (Function.update t c.tree ⟨d, A, O⟩) := by
    show Forest s'.view (Function.update σ.roots c.tree s'.root_page) _
    rw [hs'.view, hs'.root]
    exact h.forest.step c.tree (hs'.ne_invalid hn) ht ho
  refine ⟨_, μ'.free, ⟨hforest, hs'.leave, hfix.trans h.fixed_eq, fun hnone => ?_, fun txn' htxn => ⟨old, ?_⟩⟩⟩
  · rw [show (σ.leave c.tree s').running = σ.running from rfl, hrun] at hnone; cases hnone
  · rw [show (σ.leave c.tree s').running = σ.running from rfl, hrun] at htxn; cases htxn
    exact hsync'

/-- A refused call leaves the trees. -/
theorem Stands.left {fixed : PageId → Prop} {σ : System K} {t : ℕ → Tree K} {F : List PageId} (h : Stands fixed σ t F)
    (i : ℕ) : Stands fixed (σ.leave i (σ.enter i)) t F where
  forest := by
    have hroots : (σ.leave i (σ.enter i)).roots = σ.roots := Function.update_eq_self ..
    rw [hroots]; exact h.forest
  holds := ⟨rfl, rfl, h.holds.chain, h.holds.nodup, h.holds.listed, h.holds.pages⟩
  fixed_eq := h.fixed_eq
  idle hn := ⟨(h.idle hn).header, (h.idle hn).pages⟩
  sync txn ht := by
    obtain ⟨old, hs⟩ := h.sync txn ht
    exact ⟨old, sync_root hs _⟩

/-- **One step** keeps the trees on pages of their own. -/
theorem step_forest {fixed : PageId → Prop} {σ σ' : System K} {ev : System.Event K} {t : ℕ → Tree K} {F : List PageId}
    (h : Stands fixed σ t F) (hu : ev.wellUsed σ) (hsp : ev.sparing σ) (hstep : System.Step ev σ σ') :
    ∃ t' F', Stands fixed σ' t' F' := by
  cases hstep with
  | openTree i root =>
    have hroots : Function.update σ.roots i root = σ.roots := by rw [show root = σ.roots i from hu]; exact Function.update_eq_self ..
    rw [hroots]
    exact ⟨t, F, { h with }⟩
  | begin hrun hb =>
    obtain ⟨hs, hfix⟩ := holds_begin h.holds hb
    refine ⟨t, F, ⟨?_, hs.leave, hfix.trans h.fixed_eq, nofun, fun txn htxn => ⟨σ.store.page, ?_⟩⟩⟩
    · rw [show (_ : Store K).view = _ from hs.view]; exact h.forest
    · cases htxn
      exact sync_begin (h.idle hrun) hb
  | @returned _ c txn s hrun hok => exact h.called hu hsp hrun hok
  | @refused _ c txn e s hrun herr hr =>
    obtain ⟨old, hsync⟩ := h.sync txn hrun
    obtain rfl := wp_error (callOK_body c (sync_root hsync (σ.roots c.tree))) herr hr
    exact ⟨t, F, h.left c.tree⟩
  | @own _ c txn e s₁ s hrun hb herr hr =>
    have h' := h.left c.tree
    have hi : Idle (σ.enter c.tree) := ⟨(h.idle hrun).header, (h.idle hrun).pages⟩
    obtain rfl := wp_error (callOK_body c (sync_begin hi hb)) herr hr
    obtain ⟨hs, hfix⟩ := holds_begin h'.holds hb
    refine ⟨t, F, ⟨?_, hs.leave, hfix.trans h.fixed_eq, fun _ => ?_, fun txn' htxn => ?_⟩⟩
    · have hroot : s.root_page = σ.roots c.tree := by cases hb; rfl
      have hroots : (σ.leave c.tree s).roots = σ.roots := by
        show Function.update σ.roots c.tree s.root_page = _
        rw [hroot]; exact Function.update_eq_self ..
      rw [hroots, show (σ.leave c.tree s).store.view = _ from hs.view]
      exact h.forest
    · cases hb
      exact ⟨hi.header, hi.pages⟩
    · rw [show (σ.leave c.tree s).running = σ.running from rfl, hrun] at htxn; cases htxn
  | @commit _ txn s hrun hc =>
    obtain ⟨old, hsync⟩ := h.sync txn hrun
    obtain ⟨hi, hs, hfix⟩ := holds_commit hsync h.holds hc
    refine ⟨t, F, ⟨?_, hs.leave, hfix.trans h.fixed_eq, fun _ => hi, nofun⟩⟩
    rw [show (_ : Store K).view = _ from hs.view]; exact h.forest
  | checkpoint hrun =>
    exact ⟨t, F, ⟨h.forest, ⟨rfl, rfl, h.holds.chain, h.holds.nodup, h.holds.listed, h.holds.pages⟩, h.fixed_eq,
      fun hn => ⟨(h.idle hn).header, (h.idle hn).pages⟩, fun txn htxn => by rw [hrun] at htxn; cases htxn⟩⟩

theorem bare_stands {σ : System K} (ho : σ.Opened) (hb : σ.Bare) : ∃ t F, Stands σ.store.fixed σ t F := by
  obtain ⟨F, hchain, hnd, hlisted⟩ := hb.free
  refine ⟨fun _ => ⟨0, [], []⟩, F, ⟨⟨fun i hi => absurd (hb.roots i) hi, fun i j p hi => absurd (hb.roots i) hi,
    fun p hp => absurd (hb.nodes p) hp⟩, ⟨rfl, rfl, hchain, hnd, hlisted, hb.pages⟩, rfl, fun _ => ⟨ho.header, ho.pages⟩,
    fun txn htxn => by rw [ho.running] at htxn; cases htxn⟩⟩

theorem run_stands {σ σ' : System K} (ho : σ.Opened) (hb : σ.Bare)
    (hrun : System.RunWhere (fun ev σ => ev.wellUsed σ ∧ ev.sparing σ) σ σ') : ∃ t F, Stands σ.store.fixed σ' t F := by
  induction hrun with
  | refl => exact bare_stands ho hb
  | step _ hok hstep ih =>
    obtain ⟨t, F, h⟩ := ih
    exact step_forest h hok.1 hok.2 hstep

/-- The trees on their pages make a partition. -/
theorem Stands.partition {fixed : PageId → Prop} {σ : System K} {t : ℕ → Tree K} {F : List PageId} (h : Stands fixed σ t F) :
    σ.Partition fixed F := by
  have hin : ∀ i p, σ.InTree i p ↔ σ.roots i ≠ INVALID_PAGE ∧ p ∈ (t i).pages := fun i p =>
    and_congr_right fun hi => (h.forest.tree i hi).reachable_iff
  have hnode : ∀ i p, σ.InTree i p → ∃ n, σ.store.view p = some n := fun i p hp => by
    obtain ⟨hi, hp⟩ := (hin i p).1 hp
    exact (h.forest.tree i hi).up.alive_ids hp
  have hfree := freeChain_free h.holds.chain
  rw [← h.fixed_eq]
  refine ⟨h.holds.chain, h.holds.nodup, fun p => ⟨fun hp => ?_, ?_⟩, fun p hf hp => ?_, fun p i hf hp => ?_, fun p i hF hp => ?_,
    fun p i j hi hj => ?_⟩
  · cases hpage : σ.store.page p with
    | node n =>
      obtain ⟨i, hi, hpi⟩ := h.forest.cover p (by rw [view_some.2 ⟨hp, hpage⟩]; exact Option.some_ne_none n)
      exact Or.inr (Or.inr ⟨i, (hin i p).2 ⟨hi, hpi⟩⟩)
    | free next under => exact Or.inr (Or.inl (h.holds.listed p hp next under hpage))
    | zero => exact Or.inl ⟨hp, by rw [hpage]; exact nofun, by rw [hpage]; exact nofun⟩
    | header hd => exact Or.inl ⟨hp, by rw [hpage]; exact nofun, by rw [hpage]; exact nofun⟩
  · rintro (hf | hF | ⟨i, hi⟩)
    · exact hf.1
    · exact (hfree p hF).1
    · obtain ⟨n, hn⟩ := hnode i p hi
      exact (view_some.1 hn).1
  · obtain ⟨-, next, under, hpage⟩ := hfree p hp
    exact hf.2.2 next under hpage
  · obtain ⟨n, hn⟩ := hnode i p hp
    exact hf.2.1 n (view_some.1 hn).2
  · obtain ⟨-, next, under, hpage⟩ := hfree p hF
    obtain ⟨n, hn⟩ := hnode i p hp
    rw [(view_some.1 hn).2] at hpage; cases hpage
  · obtain ⟨hi, hpi⟩ := (hin i p).1 hi
    obtain ⟨hj, hpj⟩ := (hin j p).1 hj
    exact h.forest.apart i j p hi hj hpi hpj

namespace LostLeaf

open StaleId

def keyOf (n : Int32) : SqlKey := ⟨[.int n], rfl⟩

/-- A row of `size` bytes. -/
def row (n : Int32) (size : ℕ) : Call SqlKey := .insert 0 (keyOf n) (List.replicate size 0)

def calls : List (Call SqlKey) :=
  [.construct 0, row 1 1900, row 2 2100, row 3 1900, row 4 100, .remove 0 (keyOf 4), .remove 0 (keyOf 1)]

def returns {α : Type} (m : M SqlKey α) (s : Store SqlKey) : Bool :=
  match m s with
  | .ok _ _ => true
  | .error _ _ => false

/-- Whether the call is made on a tree that is there, and returns. -/
def succeeds (σ : System SqlKey) (c : Call SqlKey) : Bool :=
  (match c with
    | .construct i => σ.roots i == INVALID_PAGE
    | .insert i _ _ => σ.roots i != INVALID_PAGE
    | .remove i _ => σ.roots i != INVALID_PAGE) &&
  returns (c.body σ.store.wal.next_transaction_id)
    ({ σ with store := after walBegin σ.store, running := some σ.store.wal.next_transaction_id }.enter c.tree)

/-- The calls one after the other, each in a transaction of its own. -/
def transactAll (σ : System SqlKey) : List (Call SqlKey) → Option (System SqlKey)
  | [] => some σ
  | c :: cs => if succeeds σ c then transactAll (transact σ c) cs else none

theorem returns_ok {m : M SqlKey Unit} {s : Store SqlKey} (h : returns m s = true) : m s = .ok () (after m s) := by
  unfold returns at h
  unfold after
  cases hm : m s with
  | ok a s' => rfl
  | error e s' => rw [hm] at h; cases h

theorem succeeds_used {σ : System SqlKey} {c : Call SqlKey} (h : succeeds σ c = true) : c.wellUsed σ.roots := by
  unfold succeeds at h
  rw [Bool.and_eq_true] at h
  cases c <;> simpa [Call.wellUsed] using h.1

/-- A run of calls that return. -/
theorem run_transactAll {σ₀ : System SqlKey} : ∀ {cs : List (Call SqlKey)} {σ σ' : System SqlKey},
    System.RunWhere System.Event.wellUsed σ₀ σ → σ.running = none → transactAll σ cs = some σ' →
    System.RunWhere System.Event.wellUsed σ₀ σ' := by
  intro cs
  induction cs with
  | nil => intro σ σ' h _ hσ'; cases hσ'; exact h
  | cons c cs ih =>
    intro σ σ' h hrun hσ'
    unfold transactAll at hσ'
    split at hσ'
    · rename_i hc
      have hused := succeeds_used hc
      have hok := returns_ok (Bool.and_eq_true .. ▸ hc).2
      exact ih (.step (.step (.step h (show System.Event.wellUsed .begin σ from trivial) (.begin hrun rfl))
        (show System.Event.wellUsed (.call c) _ from hused) (.returned rfl hok))
        (show System.Event.wellUsed .commit _ from trivial) (.commit rfl rfl)) rfl hσ'
    · cases hσ'

/-- Calls on tree 0 leave the roots of the others. -/
theorem roots_transactAll : ∀ {cs : List (Call SqlKey)} {σ σ' : System SqlKey}, (∀ c ∈ cs, c.tree = 0) →
    transactAll σ cs = some σ' → ∀ i, i ≠ 0 → σ'.roots i = σ.roots i := by
  intro cs
  induction cs with
  | nil => intro σ σ' _ h i _; cases h; rfl
  | cons c cs ih =>
    intro σ σ' hcs h i hi
    unfold transactAll at h
    split at h
    · rw [ih (fun c' hc' => hcs c' (by simp [hc'])) h i hi]
      exact Function.update_of_ne (by rw [hcs c (by simp)]; exact hi) _ _
    · cases h

/-- Whether a page holds a leaf. -/
def isLeafPage : Page SqlKey → Bool
  | .node n => n.isLeaf
  | _ => false

/-- Pages 1 and 4 hold leaves, and the root is page 4. -/
def lost (σ : System SqlKey) : Bool :=
  decide (σ.store.total_pages = 5) && isLeafPage (σ.store.page 1) && isLeafPage (σ.store.page 4) && (σ.roots 0 == 4)

set_option maxRecDepth 100000 in
theorem lost_calls : (transactAll newSystem calls).any lost = true := by decide +kernel

theorem newSystem_bare : newSystem.Bare where
  roots _ := rfl
  nodes p := by
    unfold Store.view newSystem
    dsimp only
    split
    · split
      · rename_i h
        split at h <;> cases h
      · rfl
    · rfl
  free := ⟨[], rfl, List.nodup_nil, fun p _ next under h => by
    unfold newSystem at h
    dsimp only at h
    split at h <;> cases h⟩
  pages := by decide

theorem isLeafPage_node {pg : Page SqlKey} (h : isLeafPage pg = true) : ∃ n es, pg = .node n ∧ n.cells = .leaf es := by
  unfold isLeafPage at h
  split at h
  · rename_i n
    unfold Node.isLeaf at h
    split at h
    · rename_i es hes
      exact ⟨n, es, rfl, hes⟩
    · cases h
  · cases h

/-- A leaf is all there is of a tree it is the root of. -/
theorem reachable_leaf {v : View SqlKey} {r p : PageId} {n : Node SqlKey} {es : List (LeafEntry SqlKey)} (hv : v r = some n)
    (hc : n.cells = .leaf es) (h : Reachable v r p) : p = r := by
  induction h with
  | refl => rfl
  | tail _ hstep ih =>
    obtain ⟨n', es', hv', hc', -⟩ := hstep
    rw [ih, hv] at hv'; cases hv'
    rw [hc] at hc'; cases hc'

end LostLeaf

end GSDBEngine
