import GSDBEngine.Proof.Order
import Mathlib.Data.List.Perm.Subperm

/-!
# Trees, and what a search finds

`TreeOK v root d A O`: the pages `A` (leaves, left to right) and `O` (above them) are
a B+ tree of depth `d`: parents in place, leaves chained, keys and bounds in order
through the whole leaf level, no page twice.

* `run_findLeaf`: the descent ends at the leaf of the key, with the parents of that
  leaf as its path.
* `content_loc`: the entries of the tree around a key's leaf.
* `run_search`, `run_scanAll`: the reads.
-/

namespace GSDBEngine

set_option linter.unusedSectionVars false

open KeyRank BTree

variable {K L : Type} [KeyOps K] [LinearOrder L] [KeyRank K L]
variable {v v' : View K} {root : PageId} {d : ℕ} {A B pre post : Level K} {O : List PageId} {b c : Cell K}
  {x : K} {p : PageId} {μ : Mem K} {α : Type} {E : Err K → Prop} {Q : α → Mem K → Prop}

/-- The entries of a leaf. -/
def leafAt (v : View K) (p : PageId) : List (LeafEntry K) :=
  match v p with
  | some n =>
    match n.cells with
    | .leaf es => es
    | .internal _ => []
  | none => []

/-- The entries of a level of leaves. -/
def content (v : View K) (A : Level K) : List (LeafEntry K) := A.flatMap fun c => leafAt v c.1

def entryTok (e : LeafEntry K) : WithTop L ×ₗ Bool := toLex (↑(rank e.key), true)

def fenceTok (u : Option K) : WithTop L ×ₗ Bool := toLex (bound u, false)

/-- The keys and bounds of a level of leaves, as they follow one another. -/
def tokens (v : View K) (A : Level K) : List (WithTop L ×ₗ Bool) :=
  A.flatMap fun c => (leafAt v c.1).map entryTok ++ [fenceTok c.2]

/-- The chain of `next_leaf`. -/
def Linked (v : View K) : List PageId → Prop
  | [] => True
  | p :: ps => (∃ n, v p = some n ∧ n.next_leaf = ps.headD INVALID_PAGE) ∧ Linked v ps

/-- A level of leaves: chained, with keys and bounds in order. -/
structure LeavesOK (v : View K) (A : Level K) : Prop where
  leaves : ∀ c ∈ A, c.1 ≠ INVALID_PAGE ∧ ∃ n es, v c.1 = some n ∧ n.cells = .leaf es
  linked : Linked v (ids A)
  order : (tokens v A).Pairwise (· < ·)
  /-- values are as `set_leaf_entries` stores them -/
  kept : ∀ e ∈ content v A, e.stored = e

/-- A B+ tree with leaf level `A` and the pages `O` above. -/
structure TreeOK (v : View K) (root : PageId) (d : ℕ) (A : Level K) (O : List PageId) : Prop extends LeavesOK v A where
  up : Up v root d A O
  nodup : (ids A ++ O).Nodup

/-- Enough of a tree to search it: bounds may be equal. -/
structure Loose (v : View K) (root : PageId) (d : ℕ) (A : Level K) (O : List PageId) : Prop where
  leaves : ∀ c ∈ A, c.1 ≠ INVALID_PAGE ∧ ∃ n es, v c.1 = some n ∧ n.cells = .leaf es
  order : (tokens v A).Pairwise (· ≤ ·)
  up : Up v root d A O
  nodup : (ids A ++ O).Nodup

/-- Enough of a tree to scan it. -/
structure Chained (v : View K) (root : PageId) (d : ℕ) (A : Level K) (O : List PageId) : Prop extends Loose v root d A O where
  linked : Linked v (ids A)

theorem TreeOK.loose (h : TreeOK v root d A O) : Loose v root d A O := ⟨h.leaves, h.order.imp le_of_lt, h.up, h.nodup⟩

theorem TreeOK.chained (h : TreeOK v root d A O) : Chained v root d A O := ⟨h.loose, h.linked⟩

/-- The pages on the way up from `p`, by the parent fields. -/
inductive Path (v : View K) : PageId → List PageId → Prop
  | root {p : PageId} {n : Node K} : v p = some n → n.parent_page = INVALID_PAGE → Path v p []
  | up {p : PageId} {n : Node K} {ps : List PageId} : v p = some n → n.parent_page ≠ INVALID_PAGE →
      Path v n.parent_page ps → Path v p (n.parent_page :: ps)

/-! ### Tokens -/

section tokens

variable {e e' : LeafEntry K} {u u' : Option K}

@[simp] theorem entry_lt_entry : (entryTok e : WithTop L ×ₗ Bool) < entryTok e' ↔ rank e.key < rank e'.key := by
  simp [entryTok, Prod.Lex.toLex_lt_toLex]

@[simp] theorem entry_lt_fence : entryTok e < fenceTok u ↔ ↑(rank e.key) < bound u := by
  simp [entryTok, fenceTok, Prod.Lex.toLex_lt_toLex]

@[simp] theorem fence_lt_entry : fenceTok u < entryTok e ↔ bound u ≤ ↑(rank e.key) := by
  simp [entryTok, fenceTok, Prod.Lex.toLex_lt_toLex, le_iff_lt_or_eq]

@[simp] theorem fence_lt_fence : (fenceTok u : WithTop L ×ₗ Bool) < fenceTok u' ↔ bound u < bound u' := by
  simp [fenceTok, Prod.Lex.toLex_lt_toLex]

@[simp] theorem entry_le_entry : (entryTok e : WithTop L ×ₗ Bool) ≤ entryTok e' ↔ rank e.key ≤ rank e'.key := by
  simp [entryTok, Prod.Lex.toLex_lt_toLex, le_iff_lt_or_eq]

@[simp] theorem entry_le_fence : entryTok e ≤ fenceTok u ↔ ↑(rank e.key) < bound u := by
  rw [le_iff_lt_or_eq, entry_lt_fence, or_iff_left]
  simp [entryTok, fenceTok]

@[simp] theorem fence_le_entry : fenceTok u ≤ entryTok e ↔ bound u ≤ ↑(rank e.key) := by
  rw [le_iff_lt_or_eq, fence_lt_entry, or_iff_left]
  simp [entryTok, fenceTok]

@[simp] theorem fence_le_fence : (fenceTok u : WithTop L ×ₗ Bool) ≤ fenceTok u' ↔ bound u ≤ bound u' := by
  simp [fenceTok, Prod.Lex.toLex_lt_toLex, le_iff_lt_or_eq]

@[simp] theorem tokens_cons : tokens v (c :: A) = (leafAt v c.1).map entryTok ++ fenceTok c.2 :: tokens v A := by
  simp [tokens]

@[simp] theorem tokens_append : tokens v (A ++ B) = tokens v A ++ tokens v B := List.flatMap_append

@[simp] theorem content_cons : content v (c :: A) = leafAt v c.1 ++ content v A := rfl

@[simp] theorem content_append : content v (A ++ B) = content v A ++ content v B := List.flatMap_append

@[simp] theorem content_nil : content v ([] : Level K) = [] := rfl

@[simp] theorem tokens_nil : tokens v ([] : Level K) = [] := rfl

theorem fence_mem_tokens (hc : c ∈ A) : fenceTok c.2 ∈ tokens v A :=
  List.mem_flatMap.2 ⟨c, hc, by simp⟩

theorem entry_mem_tokens (he : e ∈ content v A) : entryTok e ∈ tokens v A := by
  obtain ⟨c, hc, hec⟩ := List.mem_flatMap.1 he
  exact List.mem_flatMap.2 ⟨c, hc, List.mem_append_left _ (List.mem_map_of_mem hec)⟩

/-- Bounds are related as their tokens are. -/
theorem pairwise_bounds {R : WithTop L ×ₗ Bool → WithTop L ×ₗ Bool → Prop} :
    (tokens v A).Pairwise R → A.Pairwise fun c c' => R (fenceTok c.2) (fenceTok c'.2) := by
  induction A with
  | nil => intro _; exact List.Pairwise.nil
  | cons c A ih =>
    intro h
    rw [tokens_cons] at h
    obtain ⟨hf, hrest⟩ := List.pairwise_cons.1 (List.pairwise_append.1 h).2.1
    exact List.pairwise_cons.2 ⟨fun c' hc' => hf _ (fence_mem_tokens hc'), ih hrest⟩

theorem ascending_of_order (h : (tokens v A).Pairwise (· < ·)) : Ascending A :=
  (pairwise_bounds h).imp fun h => fence_lt_fence.1 h

theorem rising_of_order (h : (tokens v A).Pairwise (· ≤ ·)) : Rising A :=
  (pairwise_bounds h).imp fun h => fence_le_fence.1 h

theorem content_pairwise {R : WithTop L ×ₗ Bool → WithTop L ×ₗ Bool → Prop} : (tokens v A).Pairwise R →
    (content v A).Pairwise fun e e' => R (entryTok e) (entryTok e') := by
  induction A with
  | nil => intro _; exact List.Pairwise.nil
  | cons c A ih =>
    intro h
    rw [tokens_cons] at h
    obtain ⟨hl, hfA, hcross⟩ := List.pairwise_append.1 h
    rw [content_cons]
    refine List.pairwise_append.2 ⟨List.pairwise_map.1 hl, ih (List.pairwise_cons.1 hfA).2, fun e he e' he' => ?_⟩
    exact hcross _ (List.mem_map_of_mem he) _ (List.mem_cons_of_mem _ (entry_mem_tokens he'))

theorem content_sorted (h : (tokens v A).Pairwise (· < ·)) : (content v A).Pairwise fun e e' => rank e.key < rank e'.key :=
  (content_pairwise h).imp fun h => entry_lt_entry.1 h

/-- The entries before a key's leaf are smaller than the key, those after it larger. -/
theorem content_loc (hord : (tokens v A).Pairwise (· ≤ ·)) (h : Loc A x pre c post) :
    content v A = content v pre ++ leafAt v c.1 ++ content v post ∧
      (∀ e ∈ content v pre, rank e.key < rank x) ∧ ∀ e ∈ content v post, rank x < rank e.key := by
  refine ⟨by rw [h.eq]; simp, fun e he => ?_, fun e he => ?_⟩
  · obtain ⟨c', hc', hec⟩ := List.mem_flatMap.1 he
    obtain ⟨p₁, p₂, rfl⟩ := List.append_of_mem hc'
    rw [h.eq] at hord
    simp only [tokens_append, tokens_cons, List.append_assoc] at hord
    have h1 := (List.pairwise_append.1 (List.pairwise_append.1 hord).2.1).2.2 _ (List.mem_map_of_mem hec)
      (fenceTok c'.2) (by simp)
    exact WithTop.coe_lt_coe.1 ((entry_le_fence.1 h1).trans_le (h.low c' hc'))
  · rw [h.eq, tokens_append, tokens_cons] at hord
    have h1 := (List.pairwise_cons.1 (List.pairwise_append.1 (List.pairwise_append.1 hord).2.1).2.1).1 _
      (entry_mem_tokens he)
    exact WithTop.coe_lt_coe.1 ((h.high c (by simp)).trans_le (fence_le_entry.1 h1))

end tokens

/-! ### The descent -/

/-- Every key has its cell, on every level. -/
theorem Up.exists_loc (h : Up v root d A O) (hasc : Rising A) (x : K) : ∃ pre c post, Loc A x pre c post := by
  induction h with
  | root => exact ⟨_, _, _, loc_root _ x⟩
  | down hB hin ih =>
    obtain ⟨pre, b, post, hb⟩ := ih (hasc.of_expand hin)
    obtain ⟨-, n, es, hv, hc, -⟩ := hin b (by rw [hb.eq]; simp)
    obtain ⟨pre', u, post', hl, -⟩ := hb.child hasc hin hv hc
    exact ⟨_, _, _, hl⟩

/-- The loop, `d` levels down. -/
theorem run_descend (hup : Up μ.view root d A O) :
    ∀ {pre c post}, Rising A → Loc A x pre c post →
      ∃ path, Path μ.view c.1 path ∧ ∀ {E : Err K → Prop} {Q : PageId × List PageId → Mem K → Prop} (f : ℕ),
        Run μ (findLeafLoop x f c.1 path) E Q → Run μ (findLeafLoop x (f + d) root []) E Q := by
  induction hup with
  | root hv hpar =>
    intro pre c post _ hloc
    obtain ⟨-, rfl, -⟩ := hloc.unique (loc_root root x)
    exact ⟨[], .root hv hpar, fun f h => h⟩
  | @down d B O hB hin ih =>
    intro pre c post hasc hloc
    obtain ⟨B₁, b, B₂, r₁, r₂, hb, hr, -, -⟩ := hloc.parent hin
    obtain ⟨path, hpath, hrun⟩ := ih (hasc.of_expand hin) hb
    obtain ⟨hb0, n, es, hv, hc, hch⟩ := hin b (by rw [hb.eq]; simp)
    obtain ⟨pre', u, post', hl, hmem⟩ := hb.child hasc hin hv hc
    obtain ⟨-, rfl, -⟩ := hloc.unique hl
    rw [rowAt_eq hv hc] at hmem
    obtain ⟨m, hm, hpar⟩ := hch _ hmem
    have hne : m.parent_page ≠ INVALID_PAGE := by rw [hpar]; exact hb0
    refine ⟨b.1 :: path, hpar ▸ .up hm hne (hpar ▸ hpath), fun f h => ?_⟩
    have hstep := hrun (f + 1) (E := _) (Q := _) (run_fetchNode hv (by rw [hc]; exact h))
    rwa [show f + (d + 1) = f + 1 + d by omega]

theorem Up.length_pos (h : Up v root d A O) : 1 ≤ A.length := by
  induction h with
  | root => simp
  | @down d B O hB hin ih =>
    cases B with
    | nil => simp at ih
    | cons b B =>
      obtain ⟨r, p, hr⟩ := rowAt_last (hin b (by simp))
      rw [expand_cons, hr]; simp; omega

theorem Up.depth_le (h : Up v root d A O) : d ≤ O.length := by
  induction h with
  | root => simp
  | down hB hin ih =>
    have := hB.length_pos
    simp only [List.length_append, ids, List.length_map]; omega

theorem Holds.length_le {s : Store K} (hs : Holds s μ) {l : List PageId} (hnd : l.Nodup)
    (hl : ∀ p ∈ l, ∃ n, μ.view p = some n) : l.length ≤ s.total_pages := by
  have hsub : l ⊆ List.range s.total_pages := fun p hp => by
    obtain ⟨n, hn⟩ := hl p hp
    exact List.mem_range.2 (hs.node hn).1
  simpa using (List.subperm_of_subset hnd hsub).length_le

/-- **The descent finds the leaf of the key**, and its path is the parents of that leaf. -/
theorem run_findLeaf (ht : Loose μ.view μ.root d A O) {pre c post} (hloc : Loc A x pre c post) :
    ∃ path, Path μ.view c.1 path ∧
      Run μ (findLeafPageWithPath x) E (fun r μ' => μ' = μ ∧ r = (c.1, path)) := by
  obtain ⟨path, hpath, hrun⟩ := run_descend ht.up (rising_of_order ht.order) hloc
  refine ⟨path, hpath, run_get fun s hs => ?_⟩
  obtain ⟨-, n, es, hv, hc⟩ := ht.leaves c (by rw [hloc.eq]; simp)
  have hd : d ≤ s.total_pages := by
    have h1 := hs.length_le ht.nodup fun p hp => ht.up.alive_ids hp
    have h2 := ht.up.depth_le
    rw [List.length_append] at h1; omega
  have hroot : s.root_page = μ.root := hs.root
  rw [hroot, show s.total_pages + 1 = (s.total_pages - d) + 1 + d by omega]
  exact hrun _ (run_fetchNode hv (by rw [hc]; exact run_pure ⟨rfl, rfl⟩))

/-! ### `search` -/

theorem findInLeaf_append {es es' : List (LeafEntry K)} (h : ∀ e ∈ es, rank e.key ≠ rank x) :
    findInLeaf (es ++ es') x = findInLeaf es' x := by
  unfold findInLeaf
  rw [List.find?_append, List.find?_eq_none.2 fun e he => by simpa using eq_false.2 (h e he)]
  simp

theorem findInLeaf_left {es es' : List (LeafEntry K)} (h : ∀ e ∈ es', rank e.key ≠ rank x) :
    findInLeaf (es ++ es') x = findInLeaf es x := by
  have hnone : es'.find? (fun e => KeyOps.eq e.key x) = none :=
    List.find?_eq_none.2 fun e he => by simpa using eq_false.2 (h e he)
  unfold findInLeaf
  rw [List.find?_append, hnone, Option.or_none]

theorem findInLeaf_none {es : List (LeafEntry K)} : findInLeaf es x = none ↔ ∀ e ∈ es, rank e.key ≠ rank x := by
  unfold findInLeaf
  rw [Option.map_eq_none_iff, List.find?_eq_none]
  refine forall₂_congr fun e _ => ?_
  rw [Bool.not_eq_true, eq_false]

/-- The leaf of a key has what the tree has of it. -/
theorem findInLeaf_content (hord : (tokens v A).Pairwise (· ≤ ·)) (h : Loc A x pre c post) :
    findInLeaf (content v A) x = findInLeaf (leafAt v c.1) x := by
  obtain ⟨heq, hbefore, hafter⟩ := content_loc hord h
  rw [heq, List.append_assoc, findInLeaf_append fun e he => (hbefore e he).ne,
    findInLeaf_left fun e he => (hafter e he).ne']

theorem leafAt_eq {n : Node K} {es : List (LeafEntry K)} (hv : v p = some n) (hc : n.cells = .leaf es) :
    leafAt v p = es := by
  simp [leafAt, hv, hc]

theorem run_findLeafPage (ht : Loose μ.view μ.root d A O) {pre c post} (hloc : Loc A x pre c post)
    {f : PageId → M K α} (h : Run μ (f c.1) E Q) : Run μ (findLeafPage x >>= f) E Q := by
  obtain ⟨path, -, hrun⟩ := run_findLeaf (E := E) ht hloc
  unfold findLeafPage
  rw [bind_assoc]
  refine run_bind hrun ?_
  rintro _ _ ⟨rfl, rfl⟩
  exact h

/-- **`search` reads the tree's entry of the key.** -/
theorem run_search (ht : Loose μ.view μ.root d A O) :
    Run μ (search x) E fun r μ' => μ' = μ ∧ r = findInLeaf (content μ.view A) x := by
  obtain ⟨pre, c, post, hloc⟩ := ht.up.exists_loc (rising_of_order ht.order) x
  obtain ⟨-, n, es, hv, hc⟩ := ht.leaves c (by rw [hloc.eq]; simp)
  unfold search
  refine run_findLeafPage ht hloc (run_getLeafEntries hv hc (run_pure ⟨rfl, ?_⟩))
  rw [findInLeaf_content ht.order hloc, leafAt_eq hv hc]

/-! ### `scan_all` -/

theorem children_head (es : List (InternalEntry K)) (rm : PageId) (w : Option K) :
    (ids (cellsOf es rm w)).head? = some ((es.head?.map InternalEntry.child_page_id).getD rm) := by
  cases es <;> simp [cellsOf]

/-- The first page of a level, from the first of the level above. -/
theorem run_leftmost (hup : Up μ.view root d A O) : ∃ p, (ids A).head? = some p ∧
    ∀ {E : Err K → Prop} {Q : PageId → Mem K → Prop} (f : ℕ),
      Run μ (findLeftmostLeafLoop f p) E Q → Run μ (findLeftmostLeafLoop (f + d) root) E Q := by
  induction hup with
  | root hv hpar => exact ⟨_, rfl, fun f h => h⟩
  | @down d B O hB hin ih =>
    obtain ⟨p, hp, hrun⟩ := ih
    cases B with
    | nil => cases hp
    | cons b B =>
      obtain rfl : b.1 = p := by simpa using hp
      obtain ⟨-, n, es, hv, hc, -⟩ := hin b (by simp)
      refine ⟨(es.head?.map InternalEntry.child_page_id).getD n.rightmost_child, ?_, fun {E Q} f h => ?_⟩
      · rw [expand_cons, rowAt_eq hv hc, ids_append, List.head?_append, children_head]; rfl
      · have hstep := hrun (f + 1) (E := E) (Q := Q) (run_fetchNode hv (by rw [hc]; exact h))
        rwa [show f + (d + 1) = f + 1 + d by omega]

theorem run_scanLeaves : ∀ {A : Level K} {f : ℕ}, A.length < f → Linked μ.view (ids A) →
    (∀ c ∈ A, c.1 ≠ INVALID_PAGE ∧ ∃ n es, μ.view c.1 = some n ∧ n.cells = .leaf es) →
    Run μ (scanLeaves f ((ids A).headD INVALID_PAGE)) E fun r μ' => μ' = μ ∧ r = content μ.view A := by
  intro A
  induction A with
  | nil =>
    intro f hf _ _
    obtain ⟨f, rfl⟩ := Nat.exists_eq_succ_of_ne_zero (Nat.ne_of_gt hf)
    unfold scanLeaves
    exact run_ite (fun _ => run_pure ⟨rfl, rfl⟩) fun h => absurd rfl h
  | cons c A ih =>
    intro f hf hlink hleaf
    obtain ⟨f, rfl⟩ := Nat.exists_eq_succ_of_ne_zero (Nat.ne_of_gt (Nat.lt_of_le_of_lt (Nat.zero_le _) hf))
    obtain ⟨hne, n, es, hv, hc⟩ := hleaf c (by simp)
    obtain ⟨⟨n', hv', hnext⟩, hlink⟩ := hlink
    rw [hv] at hv'; cases hv'
    unfold scanLeaves
    refine run_ite (fun h => absurd h hne) fun _ => run_fetchNode hv (run_leafEntries hc ?_)
    rw [hnext]
    refine run_bind (ih (by simpa using hf) hlink fun c hc => hleaf c (by simp [hc])) ?_
    rintro _ _ ⟨rfl, rfl⟩
    refine run_pure ⟨rfl, ?_⟩
    rw [content_cons, leafAt_eq hv hc]

theorem run_findLeftmost (ht : Loose μ.view μ.root d A O) :
    Run μ (findLeftmostLeaf (K := K)) E fun q μ' => μ' = μ ∧ q = (ids A).headD INVALID_PAGE := by
  obtain ⟨p, hp, hrun⟩ := run_leftmost ht.up
  unfold findLeftmostLeaf
  refine run_get fun s hs => ?_
  have hd : d ≤ s.total_pages := by
    have h1 := hs.length_le ht.nodup fun p hp => ht.up.alive_ids hp
    have h2 := ht.up.depth_le
    rw [List.length_append] at h1; omega
  obtain ⟨u, hu⟩ := mem_ids.1 (List.mem_of_mem_head? hp)
  obtain ⟨-, n, es, hv, hc⟩ := ht.leaves _ hu
  have hroot : s.root_page = μ.root := hs.root
  have hhead : p = (ids A).headD INVALID_PAGE := by rw [List.headD_eq_head?_getD, hp]; rfl
  rw [hroot, show s.total_pages + 1 = (s.total_pages - d) + 1 + d by omega]
  exact hrun _ (run_fetchNode hv (by rw [hc]; exact run_pure ⟨rfl, hhead⟩))

/-- **`scan_all` reads every entry, in order.** -/
theorem run_scanAll (ht : Chained μ.view μ.root d A O) :
    Run μ (scanAll (K := K)) E fun r μ' => μ' = μ ∧ r = content μ.view A := by
  unfold scanAll
  refine run_bind (run_findLeftmost ht.toLoose) ?_
  rintro _ _ ⟨rfl, rfl⟩
  refine run_get fun s hs => ?_
  have hlen : A.length < s.total_pages + 1 := by
    have h1 := hs.length_le ht.nodup fun p hp => ht.up.alive_ids hp
    simp only [List.length_append, ids, List.length_map] at h1; omega
  exact run_scanLeaves hlen ht.linked ht.leaves

end GSDBEngine
