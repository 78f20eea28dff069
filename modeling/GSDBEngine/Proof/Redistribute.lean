import GSDBEngine.Proof.Below
import GSDBEngine.Proof.MapRun

/-!
# Redistribution between siblings

`try_redistribute` moves an entry or a child between a page and a sibling, and writes a new separator into the parent. The
leaves and the entries stay what they are; the bounds may come to be equal, which a search does not mind.

* `Recut.loose`: entries borrowed between leaves, the separator being the first key of the right one.
* `Renoded.loose`: a child borrowed between internal nodes.
* `redistribute_divides`: **the separator still divides the siblings, unless the right sibling was a leaf and lent its only entry.**
-/

namespace GSDBEngine

set_option linter.unusedSectionVars false

open KeyRank BTree

variable {K L : Type} [KeyOps K] [LinearOrder L] [KeyRank K L]
variable {v v' : View K} {root : PageId} {d k : ℕ} {A A' B pre post B₁ B₂ r₁ r₂ : Level K} {O P : List PageId} {κ : K}
  {p q l r : PageId} {u u' w : Option K} {μ μ' : Mem K} {txn : ℕ} {nq nl nr nq' nl' nr' : Node K}
  {es₁ es₂ esl esr : List (LeafEntry K)} {e : LeafEntry K}

/-- The right sibling of `p` is a leaf with a single entry, and the left one, if any, has none to spare. -/
def LendsLast (v : View K) (q p : PageId) : Prop :=
  ∃ κ r nr e, Between v q p κ r ∧ v r = some nr ∧ nr.cells = .leaf [e] ∧
    ∀ l κ' nl, Between v q l κ' p → v l = some nl → nl.isUnderfull = true

/-- The same leaves and entries left to right, under the same pages, in a tree that can be searched. -/
def Regrouped (v : View K) (A : Level K) (d : ℕ) (O : List PageId) (μ' : Mem K) : Prop :=
  ∃ A', Loose μ'.view μ'.root d A' O ∧ ids A' = ids A ∧ content μ'.view A' = content v A

/-! ### Between leaves -/

theorem le_fence_of_lt_entry {t : WithTop L ×ₗ Bool} (h : t < entryTok e) : t ≤ fenceTok (some e.key) := by
  obtain ⟨a, b⟩ := t
  rcases Prod.Lex.toLex_lt_toLex.1 h with hlt | ⟨heq, hb⟩
  · exact Prod.Lex.toLex_le_toLex.2 (Or.inl hlt)
  · refine Prod.Lex.toLex_le_toLex.2 (Or.inr ⟨heq, ?_⟩)
    cases b with
    | false => exact le_rfl
    | true => exact absurd hb (lt_irrefl _)

/-- A key of its leaf for a bound, in front of it. -/
theorem tokens_cut {T₁ T₂ : List (WithTop L ×ₗ Bool)} (h : (T₁ ++ ((es₁ ++ e :: es₂).map entryTok ++ T₂)).Pairwise (· < ·)) :
    (T₁ ++ (es₁.map entryTok ++ fenceTok (some e.key) :: ((e :: es₂).map entryTok ++ T₂))).Pairwise (· ≤ ·) := by
  have h' : ((T₁ ++ es₁.map entryTok) ++ ((e :: es₂).map entryTok ++ T₂)).Pairwise (· < ·) := by simpa using h
  obtain ⟨-, hright, hcross⟩ := List.pairwise_append.1 h'
  have hself : (fenceTok (some e.key) : WithTop L ×ₗ Bool) ≤ entryTok e := fence_le_entry.2 (by simp)
  rw [← List.append_assoc]
  refine pairwise_insert (h'.imp le_of_lt) (fun t ht => ?_) fun t ht => ?_
  · exact le_fence_of_lt_entry (hcross t ht _ List.mem_cons_self)
  · rcases List.mem_cons.1 ht with rfl | ht
    · exact hself
    · exact hself.trans ((List.pairwise_cons.1 hright).1 t ht).le

section leaf

variable (h : Adjacent μ.view μ.root d B O B₁ B₂ r₁ r₂ q w nq l κ r u) (hL : LeavesOK μ.view (expand μ.view B))
  (hl : μ.view l = some nl) (hlc : nl.cells = .leaf esl) (hr : μ.view r = some nr) (hrc : nr.cells = .leaf esr)
include h hL hl hlc hr hrc

/-- **Entries borrowed between leaves.** -/
theorem Recut.loose (hrec : Recut μ q l r nq nl nr w (r₁ ++ (l, some e.key) :: (r, u) :: r₂) es₁ (e :: es₂) μ' nq' nl' nr')
    (hcut : esl ++ esr = es₁ ++ e :: es₂) : Regrouped μ.view (expand μ.view B) (d + 1) (ids B ++ O) μ' := by
  have hpair := pair_level h
  have hreb := hrec.rebalanced h hl hr
  obtain ⟨hl', hr', -, -⟩ := hrec.pages h
  obtain ⟨hside, hTpre, hTpost, hCpre, hCpost⟩ := leaves_side hL μ'.view hpair hl hlc hr hrc (hrec.side h)
  have hord := tokens_pair hL hpair hl hlc hr hrc
  rw [hcut] at hord
  have hids : ids ((expand μ.view B₁ ++ r₁) ++ (l, some e.key) :: (r, u) :: (r₂ ++ expand μ.view B₂)) = ids (expand μ.view B) := by
    rw [hpair]
    simp
  refine ⟨_, ⟨fun c hc => ?_, ?_, ?_, ?_⟩, hids, ?_⟩
  · rcases List.mem_append.1 hc with hc | hc
    · exact hside c (List.mem_append_left _ hc)
    · rcases List.mem_cons.1 hc with rfl | hc
      · exact ⟨(hL.leaves (l, some κ) (by rw [hpair]; simp)).1, nl', es₁, hl', hrec.left⟩
      · rcases List.mem_cons.1 hc with rfl | hc
        · exact ⟨(hL.leaves (r, u) (by rw [hpair]; simp)).1, nr', _, hr', hrec.right⟩
        · exact hside c (List.mem_append_right _ hc)
  · rw [tokens_append, tokens_cons, tokens_cons, leafAt_eq hl' hrec.left, leafAt_eq hr' hrec.right, hTpre, hTpost]
    exact tokens_cut hord
  · rw [hreb.same_root, ← hreb.level]
    exact .down hreb.up hreb.inner
  · rw [hids]
    exact h.nodup
  · rw [content_pair hpair hl hlc hr hrc, hcut, content_append, content_cons, content_cons, leafAt_eq hl' hrec.left,
      leafAt_eq hr' hrec.right, hCpre, hCpost]
    simp only [List.append_assoc]

/-- The only entry of the right leaf borrowed: it is now on the left, and the separator is its own key. -/
theorem Recut.lost (hrec : Recut μ q l r nq nl nr w (r₁ ++ (l, some e.key) :: (r, u) :: r₂) (esl ++ [e]) [] μ' nq' nl' nr') :
    Between μ'.view q l e.key r ∧ ¬ Divides μ'.view l e.key r := by
  obtain ⟨hl', -, hq', -⟩ := hrec.pages h
  obtain ⟨es, hc⟩ := hrec.parent.cells
  have hrow : rowAt μ'.view (q, w) = r₁ ++ (l, some e.key) :: (r, u) :: r₂ := by
    rw [← hrec.parent.row_eq]
    simp [rowAt, hq']
  refine ⟨between_of_row hq' hc hrow, fun hdiv => ?_⟩
  exact lt_irrefl _ (hdiv.1 e (.leaf hl' hrec.left (by simp)))

end leaf

/-! ### Between internal nodes -/

/-- **A child borrowed between internal nodes**: the leaves below keep their bounds. -/
theorem Renoded.loose (h : Renoded v root d B O q l r μ' A') (hsame : ids A' = ids (expand v B))
    (hU : Under v (expand v (expand v B)) k A P) (hL : LeavesOK v A)
    (hnd : (ids A ++ (P ++ (ids (expand v B) ++ (ids B ++ O)))).Nodup) :
    Regrouped v A (d + 1 + 1 + k) (P ++ (ids (expand v B) ++ (ids B ++ O))) μ' := by
  have hndU : ((ids A ++ P) ++ (ids (expand v B) ++ (ids B ++ O))).Nodup := by rwa [List.append_assoc]
  have hnd₂ := hndU.sublist (hU.top.append (List.Sublist.refl _))
  have hdis := (List.nodup_append.1 hndU).2.2
  have hlow := h.settled hnd₂
  -- everything below the children is as it was
  have hbelow : ∀ p ∈ ids A ++ P, p ∉ ids (expand v (expand v B)) → μ'.view p = v p := fun p hp hpD =>
    h.frame p hpD fun hpO => hdis p hp p hpO rfl
  have hU' := hU.congr (List.nodup_append.1 hndU).1 (fun p hp => (hlow.keep p hp).sameRow) hbelow
  have hmoved : ∀ p ∈ ids A, Moved v μ'.view p := by
    intro p hp
    by_cases hpD : p ∈ ids (expand v (expand v B))
    · exact hlow.keep p hpD
    · exact moved_of_eq (hbelow p (List.mem_append_left _ hp) hpD)
  obtain ⟨hL', hcont⟩ := hL.moved hmoved
  have hup := hlow.up.under_level hU'
  rw [hsame] at hup
  exact ⟨A, ⟨hL'.leaves, hL'.order.imp le_of_lt, hup, hnd⟩, rfl, hcont⟩

theorem Borrowed.loose {i j : ℕ} (hadj : Adjacent μ.view μ.root d B O B₁ B₂ r₁ r₂ q w nq l κ r u)
    (h : Borrowed μ d B O B₁ B₂ r₁ r₂ q l r u i j μ') (hU : Under μ.view (expand μ.view (expand μ.view B)) k A P)
    (hL : LeavesOK μ.view A) (hnd : (ids A ++ (P ++ (ids (expand μ.view B) ++ (ids B ++ O)))).Nodup) :
    Regrouped μ.view A (d + 1 + 1 + k) (P ++ (ids (expand μ.view B) ++ (ids B ++ O))) μ' := by
  obtain ⟨κ', hren, -⟩ := h
  refine hren.loose ?_ hU hL hnd
  rw [hadj.level]
  simp

/-! ### The call -/

theorem Adjacent.between (h : Adjacent v root d B O B₁ B₂ r₁ r₂ q w nq l κ r u) : Between v q l κ r := by
  obtain ⟨es, hc, -⟩ := h.cells
  exact between_of_row h.parent hc h.rowAt_eq

/-- The right sibling is the one found. -/
theorem Adjacent.right_unique (h : Adjacent v root d B O B₁ B₂ r₁ r₂ q w nq l κ r u) {κ' : K} {r' : PageId}
    (hb : Between v q l κ' r') : r' = r := by
  obtain ⟨X, u', Y, hrow⟩ := hb.row (w := w)
  rw [h.rowAt_eq] at hrow
  obtain ⟨-, -, hY⟩ := row_unique h.row_nodup hrow rfl
  exact (Prod.mk.inj (List.cons.inj hY).1).1.symm

/-- The left sibling of the left page is the cell before it. -/
theorem Adjacent.left_unique (h : Adjacent v root d B O B₁ B₂ r₁ r₂ q w nq l κ r u) {κ' : K} {l' : PageId}
    (hb : Between v q l' κ' l) : ∃ X, r₁ = X ++ [(l', some κ')] := by
  obtain ⟨X, u', Y, hrow⟩ := hb.row (w := w)
  rw [h.rowAt_eq, show X ++ (l', some κ') :: (l, u') :: Y = (X ++ [(l', some κ')]) ++ (l, u') :: Y by simp] at hrow
  exact ⟨X, (row_unique h.row_nodup hrow rfl).1⟩

/-- A page that may donate has a cell. -/
theorem entries_of_not_underfull {n : Node K} {es : List (LeafEntry K)} (hc : n.cells = .leaf es) (h : n.isUnderfull = false) : es ≠ [] := by
  rintro rfl
  have hcap : CAPACITY / 2 = 2039 := rfl
  simp [Node.isUnderfull, Node.used_space, hc, Cells.bytes, hcap] at h

/-- What a redistribution comes to. -/
def Outcome (μ : Mem K) (d : ℕ) (A : Level K) (O : List PageId) (q p : PageId) (μ' : Mem K) : Prop :=
  (¬ LendsLast μ.view q p ∧ Regrouped μ.view A d O μ') ∨
    (LendsLast μ.view q p ∧ ∃ l κ r, Between μ'.view q l κ r ∧ ¬ Divides μ'.view l κ r)

section call

variable {n : Node K} (hL : LeavesOK μ.view A) (hup : Up μ.view μ.root d B O) (hin : ∀ b ∈ B, Inner μ.view b)
  (hU : Under μ.view (expand μ.view B) k A P) (hnd : (ids A ++ (P ++ (ids B ++ O))).Nodup)
  (hp : (p, u) ∈ expand μ.view B) (hv : μ.view p = some n)
include hL hup hin hU hnd hp hv

/-- The left sibling lends. -/
theorem run_redistributeLeft (hadj : Adjacent μ.view μ.root d B O B₁ B₂ r₁ r₂ q w nq l κ p u) (hl : μ.view l = some nl)
    (hd : nl.isUnderfull = false) : Run μ (borrowLeft txn n.isLeaf p q l κ) (fun _ => True) fun _ =>
      Outcome μ (d + 1 + k) A (P ++ (ids B ++ O)) q p := by
  have hlends : ¬ LendsLast μ.view q p := by
    rintro ⟨-, -, -, -, -, -, -, hnone⟩
    rw [hnone l κ nl hadj.between hl] at hd
    cases hd
  have hlB : (l, some κ) ∈ expand μ.view B := hadj.mem_level (by simp)
  rcases hU.peel with ⟨rfl, rfl, rfl⟩ | ⟨hnodes, k', P', rfl, rfl, hU'⟩
  · -- the siblings are leaves
    obtain ⟨-, nl', esl, hl', hlc⟩ := hL.leaves _ hlB
    rw [hl] at hl'
    cases hl'
    obtain ⟨-, n', es, hv', hc⟩ := hL.leaves _ hp
    rw [hv] at hv'
    cases hv'
    have hleaf : n.isLeaf = true := by rw [Node.isLeaf, hc]
    rw [hleaf]
    refine run_mono (run_borrowLeafLeft_recut hadj hL hl hlc hv hc trivial (entries_of_not_underfull hlc hd)) ?_
    rintro ⟨⟩ μ' ⟨es₁, e, nq', nl', nr', rfl, hrec⟩
    exact Or.inl ⟨hlends, hrec.loose hadj hL hl hlc hv hc (by simp)⟩
  · obtain ⟨-, nl', esl, hl', hlc, -⟩ := hnodes _ hlB
    rw [hl] at hl'
    cases hl'
    obtain ⟨-, n', es, hv', hc, -⟩ := hnodes _ hp
    rw [hv] at hv'
    cases hv'
    have hleaf : n.isLeaf = false := by rw [Node.isLeaf, hc]
    rw [List.append_assoc] at hnd ⊢
    have hnd₂ : (ids (expand μ.view (expand μ.view B)) ++ (ids (expand μ.view B) ++ (ids B ++ O))).Nodup := by
      rw [← List.append_assoc (ids A)] at hnd
      exact hnd.sublist (hU'.top.append (List.Sublist.refl _))
    rw [hleaf]
    refine run_mono (run_borrowInternalLeft hadj hnodes hnd₂ hl hlc hv hc trivial fun hnil =>
      seps_of_not_underfull hl hlc hd (by rw [seps_eq hl hlc, hnil]; rfl)) fun _ μ' h => Or.inl ⟨hlends, ?_⟩
    rw [show d + 1 + (k' + 1) = d + 1 + 1 + k' by omega]
    exact h.loose hadj hU' hL hnd

/-- The right sibling lends. -/
theorem run_redistributeRight (hadj : Adjacent μ.view μ.root d B O B₁ B₂ r₁ r₂ q w nq p κ r u')
    (hr : μ.view r = some nr) (hd : nr.isUnderfull = false)
    (hnone : ∀ r' l κ' nl, r₁ = r' ++ [(l, some κ')] → μ.view l = some nl → nl.isUnderfull = true) :
    Run μ (borrowRight txn n.isLeaf p q r κ) (fun _ => True) fun _ => Outcome μ (d + 1 + k) A (P ++ (ids B ++ O)) q p := by
  have hrB : (r, u') ∈ expand μ.view B := hadj.mem_level (by simp)
  rcases hU.peel with ⟨rfl, rfl, rfl⟩ | ⟨hnodes, k', P', rfl, rfl, hU'⟩
  · obtain ⟨-, nr', esr, hr', hrc⟩ := hL.leaves _ hrB
    rw [hr] at hr'
    cases hr'
    obtain ⟨-, n', es, hv', hc⟩ := hL.leaves _ hp
    rw [hv] at hv'
    cases hv'
    have hleaf : n.isLeaf = true := by rw [Node.isLeaf, hc]
    rw [hleaf]
    refine run_mono (run_borrowLeafRight_recut hadj hL hv hc hr hrc trivial (entries_of_not_underfull hrc hd)) ?_
    rintro ⟨⟩ μ' ⟨e₀, es₂, nq', nl', nr', rfl, hrec⟩
    cases es₂ with
    | nil =>
      -- the only entry: its key becomes the separator
      refine Or.inr ⟨⟨κ, r, nr, e₀, hadj.between, hr, hrc, ?_⟩, p, e₀.key, r, hrec.lost hadj hL hv hc hr hrc⟩
      intro l κ' nl hb hl
      obtain ⟨X, hX⟩ := hadj.left_unique hb
      exact hnone X l κ' nl hX hl
    | cons e es₃ =>
      refine Or.inl ⟨?_, hrec.loose hadj hL hv hc hr hrc (by simp)⟩
      rintro ⟨κ', r', nr', e', hb, hr', hc', -⟩
      obtain rfl := hadj.right_unique hb
      rw [hr] at hr'
      cases hr'
      rw [hrc] at hc'
      cases hc'
  · obtain ⟨-, nr', esr, hr', hrc, -⟩ := hnodes _ hrB
    rw [hr] at hr'
    cases hr'
    obtain ⟨-, n', es, hv', hc, -⟩ := hnodes _ hp
    rw [hv] at hv'
    cases hv'
    have hleaf : n.isLeaf = false := by rw [Node.isLeaf, hc]
    have hlends : ¬ LendsLast μ.view q p := by
      rintro ⟨κ', r', nr', e', hb, hr', hc', -⟩
      obtain rfl := hadj.right_unique hb
      rw [hr] at hr'
      cases hr'
      rw [hrc] at hc'
      cases hc'
    rw [List.append_assoc] at hnd ⊢
    have hnd₂ : (ids (expand μ.view (expand μ.view B)) ++ (ids (expand μ.view B) ++ (ids B ++ O))).Nodup := by
      rw [← List.append_assoc (ids A)] at hnd
      exact hnd.sublist (hU'.top.append (List.Sublist.refl _))
    rw [hleaf]
    refine run_mono (run_borrowInternalRight hadj hnodes hnd₂ hv hc hr hrc trivial fun hnil =>
      seps_of_not_underfull hr hrc hd (by rw [seps_eq hr hrc, hnil]; rfl)) fun _ μ' h => Or.inl ⟨hlends, ?_⟩
    rw [show d + 1 + (k' + 1) = d + 1 + 1 + k' by omega]
    exact h.loose hadj hU' hL hnd

end call

/-- **`try_redistribute`**, where it does something. -/
theorem run_redistribute (ht : TreeOK μ.view μ.root d A O) (hq : q ∈ O) (hp : Child μ.view q p) :
    Run μ (tryRedistribute txn p q) (fun _ => True) fun done μ' => done = true → Outcome μ d A O q p μ' := by
  obtain ⟨d', B, O', k, P, hqB, hB, hin, hU, rfl, rfl⟩ := ht.up.split hq
  obtain ⟨w, hw⟩ := mem_ids.1 hqB
  obtain ⟨nq, es, hvq, hcq, hmem⟩ := hp
  rw [children_eq (w := w)] at hmem
  obtain ⟨u, hu⟩ := mem_ids.1 hmem
  rw [← rowAt_eq (c := (q, w)) hvq hcq] at hu
  have hpB : (p, u) ∈ expand μ.view B := mem_expand.2 ⟨(q, w), hw, hu⟩
  obtain ⟨path, hpath⟩ := hB.exists_path hqB
  obtain ⟨n, hv⟩ := (Up.down hB hin).alive hpB
  have hnd : (ids (expand μ.view B) ++ (ids B ++ O')).Nodup := by
    have hall := ht.nodup
    rw [← List.append_assoc] at hall
    exact hall.sublist (hU.top.append (List.Sublist.refl _))
  have hasc := hU.ascending (ascending_of_order ht.order)
  refine run_mono (run_tryRedistribute (P := Outcome μ (d' + 1 + k) A (P ++ (ids B ++ O')) q p) hB hin hnd hasc hpB hv
    ((hin _ hw).path hu hpath) ?_ ?_) ?_
  · intro B₁ B₂ r₁ r₂ w nq l κ nl hadj hl hd
    exact run_redistributeLeft ht.toLeavesOK hB hin hU ht.nodup hpB hv hadj hl hd
  · intro B₁ B₂ r₁ r₂ w nq κ r u' nr hadj _ hr hd hnone
    exact run_redistributeRight ht.toLeavesOK hB hin hU ht.nodup hpB hv hadj hr hd hnone
  · rintro done μ' (⟨-, h⟩ | ⟨rfl, -⟩) hdone
    · exact h
    · cases hdone

/-- After a redistribution under `q`: its separators divide its children, the pages and the entries are the same from left to right,
and a search finds every entry there was. -/
structure Redistributed (s s' : Store K) (d : ℕ) (A : Level K) (O : List PageId) (q : PageId) : Prop where
  divides : ∀ l κ r, Between s'.view q l κ r → Divides s'.view l κ r
  same : ∃ A', Up s'.view s'.root_page d A' O ∧ ids A' = ids A ∧ content s'.view A' = content s.view A
  found : ∀ e ∈ content s.view A, search e.key s' = .ok (some e.value) s'

theorem findInLeaf_mem {es : List (LeafEntry K)} (h : es.Pairwise fun e e' => rank e.key < rank e'.key) (he : e ∈ es) :
    findInLeaf es e.key = some e.value := by
  obtain ⟨es₁, es₂, rfl⟩ := List.append_of_mem he
  have hbefore : ∀ e' ∈ es₁, rank e'.key ≠ rank e.key := fun e' he' => ((List.pairwise_append.1 h).2.2 e' he' e (by simp)).ne
  rw [findInLeaf_append hbefore]
  simp [findInLeaf, eq_true.2]

theorem redistributed_iff {s s' : Store K} (hs : Holds s μ) (ht : TreeOK μ.view μ.root d A O) (hq : q ∈ O) (hp : Child μ.view q p)
    (hcall : tryRedistribute txn p q s = .ok true s') : Redistributed s s' d A O q ↔ ¬ LendsLast s.view q p := by
  have hrun := Eff.wp_ok (m := tryRedistribute txn p q) (run_redistribute ht hq hp s hs) hcall
  obtain ⟨μ', hs', -, hout⟩ := hrun
  rw [hs.view]
  rcases hout rfl with ⟨hno, A', hloose, hids, hcont⟩ | ⟨hyes, l, κ, r, hb, hdiv⟩
  · refine ⟨fun _ => hno, fun _ => ⟨fun l κ r hb => ?_, ⟨A', ?_, hids, ?_⟩, fun e he => ?_⟩⟩
    · rw [hs'.view] at hb ⊢
      exact hloose.divides hq hb
    · rw [hs'.view, hs'.root]
      exact hloose.up
    · rw [hs'.view, hs.view]
      exact hcont
    · rw [hs.view] at he
      have hfind := findInLeaf_mem (content_sorted ht.order) he
      rw [← hcont] at hfind
      rw [← hfind]
      exact reads_run (reads_search e.key) hs' (run_search hloose)
  · refine ⟨fun h => absurd (h.divides l κ r ?_) ?_, fun h => absurd hyes h⟩
    · rw [hs'.view]
      exact hb
    · rw [hs'.view]
      exact hdiv

/-- **The separator still divides the siblings**, nothing is lost and everything is found, unless the right sibling was a leaf
and lent its only entry. -/
theorem redistribute_divides {μ : Mem SqlKey} {s s' : Store SqlKey} {A : Level SqlKey} (hs : Holds s μ)
    (ht : TreeOK μ.view μ.root d A O) (hq : q ∈ O) (hp : Child μ.view q p) (hcall : tryRedistribute txn p q s = .ok true s') :
    Redistributed s s' d A O q ↔ ¬ LendsLast s.view q p :=
  redistributed_iff hs ht hq hp hcall

/-! ### Two leaves

The first has just lost its last entry, the second has one of more than half a page. -/

namespace TwoLeaves

open StaleId LostLeaf

def large : LeafEntry SqlKey := ⟨keyOf 2, List.replicate 2100 0⟩

theorem large_key : large.key = keyOf 2 := rfl

theorem large_stored : large.stored = large := by
  have hlen : large.value.length = 2100 := List.length_replicate
  have hsize : large.value_size = large.value.length := Nat.mod_eq_of_lt (by rw [hlen]; decide)
  show LeafEntry.mk large.key (large.value.take large.value_size) = large
  rw [hsize, List.take_length]

theorem large_fits : (Cells.leaf [large]).bytes.length ≤ CAPACITY := by decide +kernel

theorem top_fits : (Cells.internal [⟨keyOf 2, 1⟩] : Cells SqlKey).bytes.length ≤ CAPACITY := by decide +kernel

theorem empty_fits : (Cells.leaf [] : Cells SqlKey).bytes.length ≤ CAPACITY := Nat.zero_le _

def first : Node SqlKey := ⟨3, 2, INVALID_PAGE, [], .leaf [], empty_fits⟩

def second : Node SqlKey := ⟨3, INVALID_PAGE, INVALID_PAGE, [], .leaf [large], large_fits⟩

def top : Node SqlKey := ⟨INVALID_PAGE, INVALID_PAGE, 2, [], .internal [⟨keyOf 2, 1⟩], top_fits⟩

def store : Store SqlKey where
  page
    | 0 => .header newSystem.store.header
    | 1 => .node first
    | 2 => .node second
    | 3 => .node top
    | _ => .zero
  total_pages := 4
  header := newSystem.store.header
  wal := newSystem.store.wal
  root_page := 3

def mem : Mem SqlKey := ⟨store.view, 3, []⟩

def leaves : Level SqlKey := [(1, some (keyOf 2)), (2, none)]

theorem store_holds : Holds store mem where
  view := rfl
  root := rfl
  chain := rfl
  nodup := List.nodup_nil
  listed p hp next under h := by
    have hp' : p < 4 := hp
    obtain rfl | rfl | rfl | rfl : p = 0 ∨ p = 1 ∨ p = 2 ∨ p = 3 := by omega
    all_goals cases h
  pages := by decide

theorem store_tree : TreeOK mem.view mem.root 1 leaves [3] where
  leaves c hc := by
    simp only [leaves, List.mem_cons, List.not_mem_nil, or_false] at hc
    rcases hc with rfl | rfl
    · exact ⟨by decide, first, [], rfl, rfl⟩
    · exact ⟨by decide, second, [large], rfl, rfl⟩
  linked := ⟨⟨first, rfl, rfl⟩, ⟨second, rfl, rfl⟩, trivial⟩
  order := by
    have htokens : tokens mem.view leaves = [fenceTok (some (keyOf 2)), entryTok large, fenceTok none] := rfl
    rw [htokens]
    simp [large_key]
  kept e he := by
    have hcontent : content mem.view leaves = [large] := rfl
    rw [hcontent, List.mem_singleton] at he
    rw [he, large_stored]
  up := by
    have hroot : Up mem.view mem.root 0 [(3, none)] [] := .root (n := top) rfl rfl
    refine .down hroot fun b hb => ?_
    rw [List.mem_singleton.1 hb]
    refine ⟨by decide, top, _, rfl, rfl, fun c hc => ?_⟩
    have hc' : c ∈ leaves := hc
    simp only [leaves, List.mem_cons, List.not_mem_nil, or_false] at hc'
    rcases hc' with rfl | rfl
    · exact ⟨first, rfl, rfl⟩
    · exact ⟨second, rfl, rfl⟩
  nodup := by decide

theorem first_child : Child mem.view 3 1 := ⟨top, _, rfl, rfl, by simp [children]⟩

def lent : Store SqlKey := after (tryRedistribute 0 1 3) store

def redistributes : Bool :=
  match tryRedistribute 0 1 3 store with
  | .ok done _ => done
  | .error _ _ => false

theorem call_ok : tryRedistribute 0 1 3 store = .ok true lent := by
  have h : redistributes = true := by decide +kernel
  unfold redistributes at h
  unfold lent after
  cases hc : tryRedistribute 0 1 3 store with
  | ok done s =>
    rw [hc] at h
    rw [show done = true from h]
  | error e s =>
    rw [hc] at h
    cases h

end TwoLeaves

open TwoLeaves in
theorem redistribute_divides_store : Redistributed store lent 1 leaves [3] 3 ↔ ¬ LendsLast store.view 3 1 :=
  redistribute_divides store_holds store_tree (List.mem_singleton.2 rfl) first_child call_ok

open TwoLeaves in
/-- The entry with key 2 is borrowed, and 2 stays the separator. -/
theorem redistribute_loses : Holds store mem ∧ TreeOK mem.view mem.root 1 leaves [3] ∧ Child mem.view 3 1 ∧ first.isUnderfull = true ∧
    tryRedistribute 0 1 3 store = .ok true lent ∧ ¬ Redistributed store lent 1 leaves [3] 3 := by
  refine ⟨store_holds, store_tree, first_child, by decide, call_ok, fun h => ?_⟩
  refine (redistributed_iff store_holds store_tree (List.mem_singleton.2 rfl) first_child call_ok).1 h ?_
  refine ⟨LostLeaf.keyOf 2, 2, second, large, ⟨top, [], [], rfl, rfl, rfl⟩, rfl, rfl, ?_⟩
  -- nothing is left of the first child
  rintro l κ nl ⟨n, es₁, es₂, hn, hc, hhead⟩ -
  obtain rfl : top = n := Option.some.inj hn
  have hes : [⟨LostLeaf.keyOf 2, 1⟩] = es₁ ++ (⟨κ, l⟩ : InternalEntry SqlKey) :: es₂ := Cells.internal.inj hc
  obtain rfl : es₂ = [] := by
    cases es₁ with
    | nil => exact (List.cons.inj hes).2.symm
    | cons e es₁ => exact absurd (List.cons.inj hes).2 (by simp)
  cases hhead

end GSDBEngine
