import GSDBEngine.Proof.Carry

/-!
# Levels rebuilt

A split rebuilds the levels above the page it splits, and keeps the level below. The
pages of that level hold what they held, perhaps under another parent (`Moved`), the
pages outside the tree are not touched, and the pages of the new levels are old or
were free (`Raised`).

* `IntoParentSpec`, `SplitSpec`: what `insert_into_parent` and `split_internal` do,
  each over the other one level up.
* `SmallBounds.seps`: the separators above a level are among its bounds.
* `run_insertNewRoot`: the tree grows a level.
-/

namespace GSDBEngine

set_option linter.unusedSectionVars false

open KeyRank BTree

variable {K L : Type} [KeyOps K] [LinearOrder L] [KeyRank K L]
variable {v v' v'' : View K} {root : PageId} {d : ℕ} {A B pre post : Level K} {O : List PageId} {b c : Cell K}
  {x κ : K} {p q l r : PageId} {μ μ' : Mem K} {E : Err K → Prop} {txn : ℕ}

/-! ### Pages that only change their parent -/

/-- Page `p` holds the same node, perhaps under another parent. -/
def Moved (v v' : View K) (p : PageId) : Prop :=
  ∀ n, v p = some n → ∃ q, v' p = some { n with parent_page := q }

theorem moved_of_eq (h : v' p = v p) : Moved v v' p := fun n hn => ⟨n.parent_page, h.trans hn⟩

theorem Moved.trans (h : Moved v v' p) (h' : Moved v' v'' p) : Moved v v'' p := by
  intro n hn
  obtain ⟨q, hq⟩ := h n hn
  obtain ⟨q', hq'⟩ := h' _ hq
  exact ⟨q', hq'⟩

theorem Moved.sameRow (h : Moved v v' p) : SameRow v v' p := by
  intro n hn
  obtain ⟨q, hq⟩ := h n hn
  exact ⟨_, hq, rfl, rfl⟩

theorem seps_sameRow {n : Node K} (hv : v p = some n) (h : SameRow v v' p) : seps v' p = seps v p := by
  obtain ⟨n', hv', hc, -⟩ := h n hv
  simp [seps, hv, hv', hc]

theorem leafAt_moved {n : Node K} (hv : v p = some n) (h : Moved v v' p) : leafAt v' p = leafAt v p := by
  obtain ⟨q, hq⟩ := h n hv
  simp [leafAt, hv, hq]

/-- The pages of a level with one more cell after `l`. -/
theorem mem_ids_insert {u u' w : Option K} :
    q ∈ ids (pre ++ (l, u) :: (r, w) :: post) ↔ q = r ∨ q ∈ ids (pre ++ (l, u') :: post) := by
  simp only [ids_append, ids_cons, List.mem_append, List.mem_cons]
  tauto

/-! ### Paths -/

theorem Path.congr {path : List PageId} (h : Path v p path) (hs : ∀ q ∈ p :: path, SameParent v v' q) :
    Path v' p path := by
  induction h with
  | root hv hpar =>
    obtain ⟨n', hv', hp'⟩ := hs _ (by simp) _ hv
    exact .root hv' (hp'.trans hpar)
  | @up p n ps hv hpar _ ih =>
    obtain ⟨n', hv', hp'⟩ := hs p (by simp) n hv
    have := ih fun q hq => hs q (by simp only [List.mem_cons] at hq ⊢; tauto)
    rw [← hp'] at hpar this ⊢
    exact .up hv' hpar this

theorem Path.unique {path path' : List PageId} (h : Path v p path) (h' : Path v p path') : path = path' := by
  induction h generalizing path' with
  | root hv hpar =>
    cases h' with
    | root => rfl
    | up hv' hpar' => rw [hv] at hv'; cases hv'; exact absurd hpar hpar'
  | up hv hpar _ ih =>
    cases h' with
    | root hv' hpar' => rw [hv] at hv'; cases hv'; exact absurd hpar' hpar
    | up hv' hpar' h' => rw [hv] at hv'; cases hv'; rw [ih h']

/-- A path stays in the pages above. -/
theorem Up.path_mem (h : Up v root d A O) : ∀ {p : PageId} {path : List PageId}, p ∈ ids A → Path v p path →
    ∀ q ∈ path, q ∈ O := by
  induction h with
  | root hv hpar =>
    intro p path hp hpath
    rw [show p = root by simpa using hp] at hpath
    rw [hpath.unique (.root hv hpar)]
    intro q hq
    cases hq
  | @down d B O hB hin ih =>
    intro p path hp hpath q hq
    obtain ⟨u, hu⟩ := mem_ids.1 hp
    obtain ⟨b, hb, hcb⟩ := mem_expand.1 hu
    obtain ⟨hne, n, es, hv, hc, hch⟩ := hin b hb
    rw [rowAt_eq hv hc] at hcb
    obtain ⟨m, hm, hpar⟩ := hch _ hcb
    cases hpath with
    | root => cases hq
    | up hv' hpar' hpath' =>
      rw [hm] at hv'; cases hv'
      rw [hpar] at hq hpath'
      rcases List.mem_cons.1 hq with rfl | hq
      · exact List.mem_append_left _ (mem_ids_of_mem hb)
      · exact List.mem_append_right _ (ih (mem_ids_of_mem hb) hpath' q hq)

/-- Every page of a level has a path. -/
theorem Up.exists_path (h : Up v root d A O) : ∀ {p : PageId}, p ∈ ids A → ∃ path, Path v p path := by
  induction h with
  | root hv hpar => intro p hp; rw [show p = _ by simpa using hp]; exact ⟨[], .root hv hpar⟩
  | @down d B O hB hin ih =>
    intro p hp
    obtain ⟨u, hu⟩ := mem_ids.1 hp
    obtain ⟨b, hb, hcb⟩ := mem_expand.1 hu
    obtain ⟨hne, n, es, hv, hc, hch⟩ := hin b hb
    rw [rowAt_eq hv hc] at hcb
    obtain ⟨m, hm, hpar⟩ := hch _ hcb
    obtain ⟨path, hpath⟩ := ih (mem_ids_of_mem hb)
    exact ⟨b.1 :: path, hpar ▸ .up hm (hpar ▸ hne) (hpar ▸ hpath)⟩

theorem Inner.path (hb : Inner v b) (hc : c ∈ rowAt v b) {path : List PageId} (hpath : Path v b.1 path) :
    Path v c.1 (b.1 :: path) := by
  obtain ⟨hne, n, es, hv, hcells, hch⟩ := hb
  rw [rowAt_eq hv hcells] at hc
  obtain ⟨m, hm, hmp⟩ := hch c hc
  rw [← hmp] at hne hpath ⊢
  exact .up hm hne hpath

/-! ### The separators above a level -/

/-- The bounds of the level take at most a quarter of a page each. -/
def SmallBounds (A : Level K) : Prop := ∀ c ∈ A, ∀ k, c.2 = some k → Small k

/-- The pages `O` have a separator each. -/
def Thick (v : View K) (O : List PageId) : Prop := ∀ p ∈ O, seps v p ≠ []

theorem seps_row {k : K} {w : Option K} {n : Node K} {es : List (InternalEntry K)} (hv : v p = some n)
    (hc : n.cells = .internal es) (hk : k ∈ seps v p) : ∃ c ∈ rowAt v (p, w), c.2 = some k := by
  rw [seps_eq hv hc] at hk
  obtain ⟨e, he, rfl⟩ := List.mem_map.1 hk
  refine ⟨(e.child_page_id, some e.key), ?_, rfl⟩
  rw [rowAt_eq (c := (p, w)) hv hc]
  exact List.mem_append_left _ (List.mem_map.2 ⟨e, he, rfl⟩)

/-- A bound of a level is a bound of the next. -/
theorem bound_below (hin : ∀ b ∈ B, Inner v b) (hb : b ∈ B) : ∃ c ∈ expand v B, c.2 = b.2 := by
  obtain ⟨r, p, hr⟩ := rowAt_last (hin b hb)
  exact ⟨(p, b.2), mem_expand.2 ⟨b, hb, by rw [hr]; simp⟩, rfl⟩

theorem SmallBounds.above (hin : ∀ b ∈ B, Inner v b) (h : SmallBounds (expand v B)) : SmallBounds B := by
  intro b hb k hk
  obtain ⟨c, hc, hcb⟩ := bound_below hin hb
  exact h c hc k (hcb.trans hk)

theorem SmallBounds.row (hin : ∀ b ∈ B, Inner v b) (h : SmallBounds (expand v B)) (hb : b ∈ B) :
    ∀ k ∈ seps v b.1, Small k := by
  intro k hk
  obtain ⟨-, n, es, hv, hc, -⟩ := hin b hb
  obtain ⟨c, hcr, hck⟩ := seps_row (w := b.2) hv hc hk
  exact h c (mem_expand.2 ⟨b, hb, hcr⟩) k hck

/-- The separators above a level are among its bounds. -/
theorem SmallBounds.seps (hup : Up v root d A O) : SmallBounds A → ∀ p ∈ O, ∀ k ∈ seps v p, Small k := by
  induction hup with
  | root => intro _ p hp; cases hp
  | @down d B O hB hin ih =>
    intro h p hp
    rcases List.mem_append.1 hp with hp | hp
    · obtain ⟨u, hu⟩ := mem_ids.1 hp
      exact h.row hin hu
    · exact ih (h.above hin) p hp

/-! ### A level rewritten at one place -/

section rewrite

/-- Cells `X'` of a level rewritten, the others with their rows as they are. -/
theorem rewrite_level (v v' : View K) (pre X' post : Level K) (hin : ∀ a ∈ pre ++ post, Inner v a) (hX : ∀ a ∈ X', Inner v' a)
    (hside : ∀ a ∈ pre ++ post, SameRow v v' a.1) (hch : ∀ a ∈ pre ++ post, ∀ c ∈ rowAt v a, SameParent v v' c.1) :
    (∀ a ∈ pre ++ (X' ++ post), Inner v' a) ∧
      expand v' (pre ++ (X' ++ post)) = expand v pre ++ (expand v' X' ++ expand v post) := by
  have hrow : ∀ a ∈ pre ++ post, rowAt v' a = rowAt v a := fun a ha => by
    obtain ⟨-, n, es, hv, -⟩ := hin a ha
    exact rowAt_sameRow hv (hside a ha)
  refine ⟨fun a ha => ?_, ?_⟩
  · rcases List.mem_append.1 ha with ha | ha
    · have ha' := List.mem_append_left post ha
      exact (hin a ha').congr (hside a ha') (hch a ha')
    · rcases List.mem_append.1 ha with ha | ha
      · exact hX a ha
      · have ha' := List.mem_append_right pre ha
        exact (hin a ha').congr (hside a ha') (hch a ha')
  · rw [expand_append, expand_append, expand_congr fun a ha => hrow a (List.mem_append_left _ ha),
      expand_congr fun a ha => hrow a (List.mem_append_right _ ha)]

variable {B₁ B₂ : Level K} {w : Option K} {nq nq' : Node K} {es' : List (InternalEntry K)}

/-- Pages of a level other than one of its cells. -/
theorem ids_other (hnd : (ids B).Nodup) (hB : B = B₁ ++ (q, w) :: B₂) {b : Cell K} (hb : b ∈ B₁ ++ B₂) :
    b ∈ B ∧ b.1 ≠ q := by
  subst hB
  rw [ids_append, ids_cons, List.nodup_middle, ← ids_append] at hnd
  have hmem := mem_ids_of_mem hb
  refine ⟨?_, fun hbq => (List.nodup_cons.1 hnd).1 (by rwa [hbq] at hmem)⟩
  rcases List.mem_append.1 hb with hb | hb <;> simp [hb]

/-- **A level with the row of `q` rewritten**: the levels above are as they were. -/
theorem reseat (hup : Up v root d B O) (hin : ∀ b ∈ B, Inner v b) (hnd : (ids B ++ O).Nodup)
    (hB : B = B₁ ++ (q, w) :: B₂) (hv : v q = some nq) (hvq : v' q = some nq') (hpar : nq'.parent_page = nq.parent_page)
    (hc' : nq'.cells = .internal es') (hch : ∀ c ∈ nq'.row w, ∃ m, v' c.1 = some m ∧ m.parent_page = q)
    (hother : ∀ p ∈ ids B ++ O, p ≠ q → v' p = v p) (hside : ∀ b ∈ B₁ ++ B₂, ∀ c ∈ rowAt v b, SameParent v v' c.1) :
    Up v' root d B O ∧ (∀ b ∈ B, Inner v' b) ∧ expand v' B = expand v B₁ ++ (nq'.row w ++ expand v B₂) := by
  obtain ⟨hndB, -, hdis⟩ := List.nodup_append.1 hnd
  have hqB : q ∈ ids B := by rw [hB]; simp
  have hrow : rowAt v' (q, w) = nq'.row w := by simp [rowAt, hvq]
  have hinner : Inner v' (q, w) := by
    refine ⟨(hin (q, w) (by rw [hB]; simp)).1, nq', es', hvq, hc', fun c hc => hch c ?_⟩
    rw [Node.row, hc']; exact hc
  have hlevel := rewrite_level v v' B₁ [(q, w)] B₂ (fun b hb => hin b (ids_other hndB hB hb).1)
    (by simpa using hinner)
    (fun b hb => sameRow_of_eq (hother b.1 (List.mem_append_left _ (mem_ids_of_mem (ids_other hndB hB hb).1))
      (ids_other hndB hB hb).2)) hside
  rw [expand_cons, expand_nil, List.append_nil, hrow] at hlevel
  refine ⟨hup.congr (fun p hp => sameRow_of_eq ?_) fun p hp => ?_, ?_⟩
  · exact hother p (List.mem_append_right _ hp) fun h => hdis q hqB p hp h.symm
  · by_cases hpq : p = q
    · subst hpq
      intro n hn
      rw [hv] at hn; cases hn
      exact ⟨nq', hvq, hpar⟩
    · exact sameParent_of_eq (hother p hp hpq)
  · rw [hB]; exact hlevel

end rewrite

/-! ### The specifications -/

/-- The level `A` under rebuilt levels `O'`; `v` and `O` are as before. -/
structure Raised (v : View K) (O : List PageId) (μ : Mem K) (A : Level K) (d : ℕ) (O' : List PageId) :
    Prop where
  up : Up μ.view μ.root d A O'
  nodup : (ids A ++ O').Nodup
  /-- the pages of the level keep what they hold -/
  keep : ∀ p ∈ ids A, Moved v μ.view p
  /-- pages outside the tree are not touched -/
  frame : ∀ p, p ∉ ids A → p ∉ O' → μ.view p = v p
  fresh : ∀ p ∈ O', p ∈ O ∨ v p = none
  mono : ∀ p ∈ O, p ∈ O'

/-- What `insert_into_parent` does for a page `l` just split at `κ` into `l` and `r`. -/
def IntoParentSpec (txn : ℕ) (split : PageId → M K Unit) (carry : Spine K → K → Except Stop (Spine K)) : Prop :=
  ∀ ⦃μ : Mem K⦄ ⦃d : ℕ⦄ ⦃pre post : Level K⦄ ⦃O : List PageId⦄ ⦃l r : PageId⦄ ⦃u : Option K⦄ ⦃κ x : K⦄
    ⦃n m : Node K⦄ ⦃path : List PageId⦄ ⦃E : Err K → Prop⦄,
    Up μ.view μ.root d (pre ++ (l, u) :: post) O → (ids (pre ++ (l, u) :: post) ++ O).Nodup →
    r ∉ ids (pre ++ (l, u) :: post) ++ O → μ.view l = some n → μ.view r = some m →
    Ascending (pre ++ (l, some κ) :: (r, u) :: post) →
    Loc (pre ++ (l, u) :: post) x pre (l, u) post → Path μ.view l path → E .file_extend →
    (∀ stop, carryInto carry (path.map (seps μ.view)) κ x = .error stop → E stop.err) →
    Run μ (insertIntoParent split txn l κ r) E fun _ μ' =>
      ∃ d' O', Raised μ.view O μ' (pre ++ (l, some κ) :: (r, u) :: post) d' O' ∧
        (SmallBounds (pre ++ (l, some κ) :: (r, u) :: post) → Thick μ.view O → Thick μ'.view O') ∧
        ∃ path', Path μ'.view (if KeyOps.lt x κ then l else r) path' ∧
          carryInto carry (path.map (seps μ.view)) κ x = .ok (path'.map (seps μ'.view))

/-- What `split_internal` does to a page `p` of the level `B`; `c` is the child of `p` on the side of `x`. -/
def SplitSpec (split : PageId → M K Unit) (carry : Spine K → K → Except Stop (Spine K)) : Prop :=
  ∀ ⦃μ : Mem K⦄ ⦃d : ℕ⦄ ⦃B pre post : Level K⦄ ⦃O : List PageId⦄ ⦃p : PageId⦄ ⦃w : Option K⦄ ⦃c : Cell K⦄ ⦃x : K⦄
    ⦃path : List PageId⦄ ⦃E : Err K → Prop⦄,
    Up μ.view μ.root d B O → (∀ b ∈ B, Inner μ.view b) → (ids (expand μ.view B) ++ (ids B ++ O)).Nodup →
    Ascending (expand μ.view B) → (p, w) ∈ B → Loc (expand μ.view B) x pre c post → c ∈ rowAt μ.view (p, w) →
    Path μ.view p path → E .file_extend →
    (∀ stop, carry (seps μ.view p :: path.map (seps μ.view)) x = .error stop → E stop.err) →
    Run μ (split p) E fun _ μ' =>
      ∃ d' O', Raised μ.view (ids B ++ O) μ' (expand μ.view B) d' O' ∧
        (SmallBounds (expand μ.view B) → 4 ≤ (seps μ.view p).length → Thick μ.view (ids B ++ O) → Thick μ'.view O') ∧
        ∃ path', Path μ'.view c.1 path' ∧
          carry (seps μ.view p :: path.map (seps μ.view)) x = .ok (path'.map (seps μ'.view))

theorem Raised.alive {d' : ℕ} {O' : List PageId} (h : Raised v O μ A d' O') (hp : p ∈ ids A ++ O') :
    μ.view p ≠ none := by
  obtain ⟨n, hn⟩ := h.up.alive_ids hp
  rw [hn]; exact Option.some_ne_none n

/-- A page of the new level is not among the pages that were above. -/
theorem Raised.not_above {d' : ℕ} {O' : List PageId} (h : Raised v O μ A d' O') (hp : p ∈ ids A) : p ∉ O := fun hO =>
  (List.nodup_append.1 h.nodup).2.2 p hp p (h.mono p hO) rfl

theorem Raised.refl (hup : Up μ.view μ.root d A O) (hnd : (ids A ++ O).Nodup) : Raised μ.view O μ A d O where
  up := hup
  nodup := hnd
  keep _ _ := moved_of_eq rfl
  frame _ _ _ := rfl
  fresh _ hp := Or.inl hp
  mono _ hp := hp

theorem Raised.trans {d₁ d₂ : ℕ} {O₁ O₂ : List PageId} (h : Raised v O μ A d₁ O₁)
    (h' : Raised μ.view O₁ μ' B d₂ O₂) (hsub : ids A ⊆ ids B) : Raised v O μ' B d₂ O₂ where
  up := h'.up
  nodup := h'.nodup
  keep p hp := by
    by_cases hA : p ∈ ids A
    · exact (h.keep p hA).trans (h'.keep p hp)
    · exact (moved_of_eq (h.frame p hA (h'.not_above hp))).trans (h'.keep p hp)
  frame p hB hO := by
    rw [h'.frame p hB hO, h.frame p (fun hA => hB (hsub hA)) fun hO₁ => hO (h'.mono p hO₁)]
  fresh p hp := by
    rcases h'.fresh p hp with hO₁ | hnone
    · exact h.fresh p hO₁
    · have hA : p ∉ ids A := fun hA => h.alive (List.mem_append_left _ hA) hnone
      have hO₁ : p ∉ O₁ := fun hO₁ => h.alive (List.mem_append_right _ hO₁) hnone
      exact Or.inr ((h.frame p hA hO₁).symm.trans hnone)
  mono p hp := h'.mono p (h.mono p hp)

/-- The pages `P` of a tree became the pages `P'`: a page taken held no node, a page given up holds none, and the
pages of others stay. -/
structure Owned (v : View K) (P : List PageId) (v' : View K) (P' : List PageId) : Prop where
  frame : ∀ p, p ∉ P → p ∉ P' → v' p = v p
  fresh : ∀ p ∈ P', p ∈ P ∨ v p = none
  gone : ∀ p ∈ P, p ∉ P' → v' p = none

theorem Owned.same {P : List PageId} (h : ∀ p, p ∉ P → v' p = v p) : Owned v P v' P where
  frame p hp _ := h p hp
  fresh _ hp := Or.inl hp
  gone _ hp hp' := absurd hp hp'

theorem Owned.trans {P P' P'' : List PageId} (h : Owned v P v' P') (h' : Owned v' P' v'' P'') : Owned v P v'' P'' where
  frame p hp hp'' := by
    by_cases hp' : p ∈ P'
    · rw [h'.gone p hp' hp'', (h.fresh p hp').resolve_left hp]
    · rw [h'.frame p hp' hp'', h.frame p hp hp']
  fresh p hp'' := by
    by_cases hp : p ∈ P
    · exact Or.inl hp
    · rcases h'.fresh p hp'' with hp' | hnone
      · exact h.fresh p hp'
      · by_cases hp' : p ∈ P'
        · exact h.fresh p hp'
        · exact Or.inr ((h.frame p hp hp').symm.trans hnone)
  gone p hp hp'' := by
    by_cases hp' : p ∈ P'
    · exact h'.gone p hp' hp''
    · rw [h'.frame p hp' hp'', h.gone p hp hp']

theorem Raised.owned {d' : ℕ} {O' : List PageId} (h : Raised v O μ A d' O') : Owned v (ids A ++ O) μ.view (ids A ++ O') where
  frame p _ hp := by
    rw [List.mem_append, not_or] at hp
    exact h.frame p hp.1 hp.2
  fresh p hp := by
    rcases List.mem_append.1 hp with hp | hp
    · exact Or.inl (List.mem_append_left _ hp)
    · exact (h.fresh p hp).imp_left (List.mem_append_right _)
  gone p hp hp' := by
    rw [List.mem_append, not_or] at hp'
    rcases List.mem_append.1 hp with hp | hp
    · exact absurd hp hp'.1
    · exact absurd (h.mono p hp) hp'.2

/-! ### A new root -/

theorem run_insertNewRoot {n m : Node K} (hl : μ.view l = some n) (hr : μ.view r = some m) (hlr : l ≠ r)
    (hE : E .file_extend) (hov : ¬ sepSize [κ] ≤ CAPACITY → E .overflow) :
    Run μ (insertNewRoot txn l κ r) E fun _ μ' =>
      ∃ new, Raised μ.view [] μ' [(l, some κ), (r, none)] 1 [new] ∧
        Path μ'.view l [new] ∧ Path μ'.view r [new] ∧ seps μ'.view new = [κ] ∧ sepSize [κ] ≤ CAPACITY := by
  unfold insertNewRoot
  refine run_allocNode hE fun new F hnew hne => ?_
  have hnl : new ≠ l := fun h => by rw [h, hl] at hnew; cases hnew
  have hnr : new ≠ r := fun h => by rw [h, hr] at hnew; cases hnew
  refine run_setInternalEntries (n := Node.init .INTERNAL) (by simp)
    (fun h => hov (by rwa [internal_bytes_length] at h)) fun hfit => ?_
  have hsize : sepSize [κ] ≤ CAPACITY := by rwa [internal_bytes_length] at hfit
  set nw : Node K := (Node.init .INTERNAL).withCells (.internal [⟨κ, l⟩]) hfit with hnw
  refine run_setRightmostChild (n := nw) (by simp) (run_writePage ?_)
  set nw' : Node K := { nw with rightmost_child := r } with hnw'
  refine run_setParentPage (n := n) (by simp [hnl.symm, hl]) (run_writePage ?_)
  refine run_setParentPage (n := m) (by simp [hnr.symm, hlr.symm, hr]) (run_writePage ?_)
  refine run_last (run_setRoot (run_pure ⟨new, ?_⟩))
  set v' : View K := ((((({ μ with free := F }.set new (Node.init .INTERNAL)).set new nw).set new nw').set l
    { n with parent_page := new }).set r { m with parent_page := new }).view with hv'
  have hvn : v' new = some nw' := by simp [hv', hnl, hnr]
  have hvl : v' l = some { n with parent_page := new } := by simp [hv', hlr]
  have hvr : v' r = some { m with parent_page := new } := by simp [hv']
  have hvo : ∀ p, p ≠ new → p ≠ l → p ≠ r → v' p = μ.view p := by
    intro p h1 h2 h3
    simp [hv', h1, h2, h3]
  have hpar : nw'.parent_page = INVALID_PAGE := rfl
  have hexp : expand v' [(new, none)] = [(l, some κ), (r, none)] := by
    rw [expand_cons, rowAt_eq hvn rfl]; rfl
  have hinner : Inner v' (new, none) := by
    refine ⟨hne, nw', _, hvn, rfl, fun c hc => ?_⟩
    rcases List.mem_cons.1 hc with rfl | hc
    · exact ⟨_, hvl, rfl⟩
    · rw [List.mem_singleton.1 hc]; exact ⟨_, hvr, rfl⟩
  refine ⟨⟨?_, ?_, ?_, ?_, ?_, by simp⟩, ?_, ?_, ?_, hsize⟩
  · rw [← hexp]
    exact .down (.root hvn hpar) (by simpa using hinner)
  · simp [hlr, hnl.symm, hnr.symm]
  · intro p hp
    rcases List.mem_cons.1 hp with rfl | hp
    · intro n' hn'
      rw [hl] at hn'; cases hn'
      exact ⟨_, hvl⟩
    · rw [show p = r by simpa using hp]
      intro n' hn'
      rw [hr] at hn'; cases hn'
      exact ⟨_, hvr⟩
  · intro p hp hp'
    simp only [ids_cons, ids_nil, List.mem_cons, List.not_mem_nil, or_false, not_or] at hp hp'
    exact hvo p hp' hp.1 hp.2
  · intro p hp
    rw [show p = new by simpa using hp]
    exact Or.inr hnew
  · exact .up hvl hne (.root hvn hpar)
  · exact .up hvr hne (.root hvn hpar)
  · exact seps_eq hvn rfl

end GSDBEngine
