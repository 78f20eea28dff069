import GSDBEngine.Proof.Split

/-!
# Insertion

`insert_into_leaf` puts the entry in its place among the entries of the tree;
`split_leaf` before it changes no entry, only the levels above. Both keep the tree a
tree.

* `run_insertIntoLeaf`, `run_splitLeaf`: the two steps.
* `run_insertTx`: the whole call, with `InsertFits` for what must fit where.
-/

namespace GSDBEngine

set_option linter.unusedSectionVars false

open KeyRank BTree

variable {K L : Type} [KeyOps K] [LinearOrder L] [KeyRank K L]
variable {v v' : View K} {root : PageId} {d : ℕ} {A B pre post : Level K} {O : List PageId} {b c : Cell K}
  {x κ : K} {p q l r : PageId} {μ μ' : Mem K} {E : Err K → Prop} {txn : ℕ} {u : Option K}

/-! ### The leaf level -/

theorem tokens_congr (h : ∀ c ∈ A, leafAt v' c.1 = leafAt v c.1) : tokens v' A = tokens v A := by
  induction A with
  | nil => rfl
  | cons c A ih => rw [tokens_cons, tokens_cons, h c (by simp), ih fun c hc => h c (by simp [hc])]

theorem content_congr (h : ∀ c ∈ A, leafAt v' c.1 = leafAt v c.1) : content v' A = content v A := by
  induction A with
  | nil => rfl
  | cons c A ih => rw [content_cons, content_cons, h c (by simp), ih fun c hc => h c (by simp [hc])]

/-- The same chain field. -/
def SameNext (v v' : View K) (p : PageId) : Prop :=
  ∀ n, v p = some n → ∃ n', v' p = some n' ∧ n'.next_leaf = n.next_leaf

theorem Linked.congr {ps : List PageId} (h : Linked v ps) (hs : ∀ p ∈ ps, SameNext v v' p) : Linked v' ps := by
  induction ps with
  | nil => trivial
  | cons p ps ih =>
    obtain ⟨⟨n, hv, hn⟩, hrest⟩ := h
    obtain ⟨n', hv', hn'⟩ := hs p (by simp) n hv
    exact ⟨⟨n', hv', hn'.trans hn⟩, ih hrest fun q hq => hs q (by simp [hq])⟩

/-- A leaf chained in after `l`. -/
theorem Linked.insert {ps qs : List PageId} {nl nr n : Node K} (h : Linked v (ps ++ l :: qs)) (hl : v l = some n)
    (hl' : v' l = some nl) (hnl : nl.next_leaf = r) (hr' : v' r = some nr) (hnr : nr.next_leaf = n.next_leaf)
    (ho : ∀ p ∈ ps ++ qs, SameNext v v' p) : Linked v' (ps ++ l :: r :: qs) := by
  induction ps with
  | nil =>
    obtain ⟨⟨n', hv, hn⟩, hrest⟩ := h
    rw [hl] at hv; cases hv
    exact ⟨⟨nl, hl', hnl⟩, ⟨nr, hr', hnr.trans hn⟩, hrest.congr fun q hq => ho q (by simp [hq])⟩
  | cons p ps ih =>
    obtain ⟨⟨n', hv, hn⟩, hrest⟩ := h
    obtain ⟨m, hm, hmn⟩ := ho p (by simp) n' hv
    refine ⟨⟨m, hm, ?_⟩, ih hrest fun q hq => ho q (by simp only [List.cons_append, List.mem_cons]; exact Or.inr hq)⟩
    rw [hmn, hn]
    cases ps <;> rfl

theorem Moved.sameNext (h : Moved v v' p) : SameNext v v' p := by
  intro n hn
  obtain ⟨q, hq⟩ := h n hn
  exact ⟨_, hq, rfl⟩

theorem sameNext_of_eq (h : v' p = v p) : SameNext v v' p := fun n hn => ⟨n, h.trans hn, rfl⟩

/-- The levels above a leaf level see nothing of the leaves but their parent fields. -/
theorem Up.leaf_congr (h : Up v root d A O) (hnd : (ids A ++ O).Nodup) {P : List PageId} (hP : P ⊆ ids A)
    (hpar : ∀ p ∈ P, SameParent v v' p) (ho : ∀ p ∈ ids A ++ O, p ∉ P → v' p = v p) : Up v' root d A O := by
  have hO : ∀ p ∈ O, v' p = v p := fun p hp =>
    ho p (List.mem_append_right _ hp) fun hq => (List.nodup_append.1 hnd).2.2 p (hP hq) p hp rfl
  refine h.congr (fun p hp => sameRow_of_eq (hO p hp)) fun p hp => ?_
  by_cases hq : p ∈ P
  · exact hpar p hq
  · exact sameParent_of_eq (ho p hp hq)

/-- A level of leaves among which only `l` was rewritten. -/
theorem TreeOK.rewrite (ht : TreeOK v root d A O) (v' : View K) {n n' : Node K} {es : List (LeafEntry K)} (hA : A = pre ++ (l, u) :: post)
    (hl : v l = some n) (hv' : v' = Function.update v l (some n')) (hpar : n'.parent_page = n.parent_page)
    (hnext : n'.next_leaf = n.next_leaf) (hc : n'.cells = .leaf es) (hkept : ∀ e ∈ es, e.stored = e)
    (hord : (tokens v pre ++ (es.map entryTok ++ fenceTok u :: tokens v post)).Pairwise (· < ·)) :
    TreeOK v' root d A O ∧ content v' A = content v pre ++ es ++ content v post := by
  have hlv : v' l = some n' := by rw [hv']; simp
  have ho : ∀ p, p ≠ l → v' p = v p := fun p hp => by rw [hv']; simp [hp]
  have hndA := (List.nodup_append.1 ht.nodup).1
  have hside : ∀ c ∈ pre ++ post, c.1 ≠ l := fun c hc hcl => by
    rw [hA, ids_append, ids_cons, List.nodup_middle] at hndA
    have hmem := mem_ids_of_mem hc
    rw [ids_append, hcl] at hmem
    exact (List.nodup_cons.1 hndA).1 hmem
  have hleaf : ∀ c ∈ pre ++ post, leafAt v' c.1 = leafAt v c.1 := fun c hc => by
    simp only [leafAt, ho c.1 (hside c hc)]
  have hpre := fun c (hc : c ∈ pre) => hleaf c (List.mem_append_left _ hc)
  have hpost := fun c (hc : c ∈ post) => hleaf c (List.mem_append_right _ hc)
  have hcont : content v' A = content v pre ++ es ++ content v post := by
    rw [hA, content_append, content_cons, content_congr hpre, content_congr hpost, leafAt_eq hlv hc]
    simp
  have hup : Up v' root d A O := by
    refine ht.up.leaf_congr ht.nodup (P := [l]) (by rw [hA]; simp) (fun p hp m hm => ?_)
      fun p _ hp => ho p (by simpa using hp)
    rw [List.mem_singleton.1 hp, hl] at hm; cases hm
    exact ⟨n', by rw [List.mem_singleton.1 hp]; exact hlv, hpar⟩
  refine ⟨⟨⟨?_, ?_, ?_, ?_⟩, hup, ht.nodup⟩, hcont⟩
  · intro c' hc'
    obtain ⟨hne, m, es', hm, hcm⟩ := ht.leaves c' hc'
    refine ⟨hne, ?_⟩
    by_cases hcl : c'.1 = l
    · exact ⟨n', es, by rw [hcl]; exact hlv, hc⟩
    · exact ⟨m, es', by rw [ho _ hcl]; exact hm, hcm⟩
  · refine ht.linked.congr fun p _ m hm => ?_
    by_cases hpl : p = l
    · subst hpl
      rw [hl] at hm; cases hm
      exact ⟨n', hlv, hnext⟩
    · exact ⟨m, by rw [ho p hpl]; exact hm, rfl⟩
  · rw [hA, tokens_append, tokens_cons, tokens_congr hpre, tokens_congr hpost, leafAt_eq hlv hc]
    exact hord
  · intro e he
    rw [hcont] at he
    rcases List.mem_append.1 he with he | he
    · rcases List.mem_append.1 he with he | he
      · exact ht.kept e (by rw [hA]; simp [he])
      · exact hkept e he
    · exact ht.kept e (by rw [hA]; simp [he])

/-- The pages above a leaf that was rewritten. -/
theorem TreeOK.above_same (ht : TreeOK v root d A O) (hc : c ∈ A) (ho : ∀ p, p ≠ c.1 → v' p = v p) :
    ∀ p ∈ O, v' p = v p := fun p hp =>
  ho p fun h => (List.nodup_append.1 ht.nodup).2.2 c.1 (mem_ids_of_mem hc) p hp h.symm

/-! ### The entry in its place -/

theorem pairwise_insert {α : Type} {R : α → α → Prop} {l₁ l₂ : List α} {t : α} (h : (l₁ ++ l₂).Pairwise R)
    (h₁ : ∀ a ∈ l₁, R a t) (h₂ : ∀ b ∈ l₂, R t b) : (l₁ ++ t :: l₂).Pairwise R := by
  obtain ⟨hl, hr, hlr⟩ := List.pairwise_append.1 h
  refine List.pairwise_append.2 ⟨hl, List.pairwise_cons.2 ⟨h₂, hr⟩, fun a ha b hb => ?_⟩
  rcases List.mem_cons.1 hb with rfl | hb
  · exact h₁ a ha
  · exact hlr a ha b hb

theorem mem_tokens {t : WithTop L ×ₗ Bool} (h : t ∈ tokens v A) :
    (∃ e ∈ content v A, t = entryTok e) ∨ ∃ c ∈ A, t = fenceTok c.2 := by
  obtain ⟨c, hc, htc⟩ := List.mem_flatMap.1 h
  rcases List.mem_append.1 htc with ht | ht
  · obtain ⟨e, he, rfl⟩ := List.mem_map.1 ht
    exact Or.inl ⟨e, List.mem_flatMap.2 ⟨c, hc, he⟩, rfl⟩
  · exact Or.inr ⟨c, hc, List.mem_singleton.1 ht⟩

/-- The tokens before a key's leaf are smaller than the key's, those after it larger. -/
theorem tokens_loc (hord : (tokens v A).Pairwise (· < ·)) (h : Loc A x pre c post) {e : LeafEntry K} (he : e.key = x) :
    (∀ t ∈ tokens v pre, t < entryTok e) ∧ (∀ t ∈ tokens v post, entryTok e < t) ∧ entryTok e < fenceTok c.2 := by
  obtain ⟨-, hbefore, hafter⟩ := content_loc (hord.imp le_of_lt) h
  subst he
  refine ⟨fun t ht => ?_, fun t ht => ?_, entry_lt_fence.2 (h.high c (by simp))⟩
  · rcases mem_tokens ht with ⟨e', he', rfl⟩ | ⟨c', hc', rfl⟩
    · exact entry_lt_entry.2 (hbefore e' he')
    · exact fence_lt_entry.2 (h.low c' hc')
  · rcases mem_tokens ht with ⟨e', he', rfl⟩ | ⟨c', hc', rfl⟩
    · exact entry_lt_entry.2 (hafter e' he')
    · exact entry_lt_fence.2 (h.high c' (by simp [hc']))

/-- Where a new key goes among sorted entries. -/
theorem exists_gap {es : List (LeafEntry K)} (hs : es.Pairwise fun e e' => rank e.key < rank e'.key)
    (hx : ∀ e ∈ es, rank e.key ≠ rank x) :
    ∃ es₁ es₂, es = es₁ ++ es₂ ∧ (∀ e ∈ es₁, rank e.key < rank x) ∧ ∀ e ∈ es₂, rank x < rank e.key := by
  induction es with
  | nil => exact ⟨[], [], rfl, by simp, by simp⟩
  | cons e es ih =>
    obtain ⟨hes, hs⟩ := List.pairwise_cons.1 hs
    rcases lt_or_gt_of_ne (hx e (by simp)) with hlt | hgt
    · obtain ⟨es₁, es₂, rfl, h₁, h₂⟩ := ih hs fun e' he' => hx e' (by simp [he'])
      exact ⟨e :: es₁, es₂, rfl, by simpa using ⟨hlt, h₁⟩, h₂⟩
    · refine ⟨[], e :: es, rfl, by simp, fun e' he' => ?_⟩
      rcases List.mem_cons.1 he' with rfl | he'
      · exact hgt
      · exact hgt.trans (hes e' he')

theorem leaf_sorted (hord : (tokens v A).Pairwise (· < ·)) (hc : c ∈ A) :
    (leafAt v c.1).Pairwise fun e e' => rank e.key < rank e'.key := by
  obtain ⟨A₁, A₂, rfl⟩ := List.append_of_mem hc
  have h := content_sorted hord
  rw [content_append, content_cons] at h
  exact (List.pairwise_append.1 (List.pairwise_append.1 h).2.1).1

theorem map_stored {es : List (LeafEntry K)} (h : ∀ e ∈ es, e.stored = e) : es.map LeafEntry.stored = es :=
  (List.map_congr_left h).trans (List.map_id es)

theorem stored_stored (e : LeafEntry K) : e.stored.stored = e.stored := by
  have hlen : e.value_size ≤ e.value.length := Nat.mod_le _ _
  have hlt : e.value_size < 2 ^ 32 := Nat.mod_lt _ (by decide)
  have hsize : e.stored.value_size = e.value_size := by
    show (e.value.take e.value_size).length % 2 ^ 32 = _
    rw [List.length_take, Nat.min_eq_left hlen, Nat.mod_eq_of_lt hlt]
  show LeafEntry.mk e.key ((e.value.take e.value_size).take e.stored.value_size) = _
  rw [hsize, List.take_take, Nat.min_self]
  rfl

/-- The entries `c'` are the entries `c` and `e`. -/
def Inserted (c c' : List (LeafEntry K)) (e : LeafEntry K) : Prop := ∃ c₁ c₂, c = c₁ ++ c₂ ∧ c' = c₁ ++ e :: c₂

/-- The cells of a leaf with one more entry. -/
def withEntry (es : List (LeafEntry K)) (x : K) (val : Bytes) : Cells K :=
  .leaf ((sortByKey LeafEntry.key (es ++ [⟨x, val⟩])).map LeafEntry.stored)

/-- **`insert_into_leaf`** in the leaf of the key. -/
theorem run_insertIntoLeaf {val : Bytes} {n : Node K} {es : List (LeafEntry K)} (ht : TreeOK μ.view μ.root d A O)
    (hloc : Loc A x pre (l, u) post) (hl : μ.view l = some n) (hc : n.cells = .leaf es)
    (hx : findInLeaf es x = none) (hov : ¬ (withEntry es x val).bytes.length ≤ CAPACITY → E .overflow) :
    Run μ (insertIntoLeaf txn l x val) E fun _ μ' => TreeOK μ'.view μ'.root d A O ∧
      Inserted (content μ.view A) (content μ'.view A) (LeafEntry.stored ⟨x, val⟩) ∧
      (∀ p, p ≠ l → μ'.view p = μ.view p) := by
  unfold insertIntoLeaf
  refine run_getLeafEntries hl hc (run_setLeafEntries hl hov fun hfit => run_last (run_writePage (run_pure ?_)))
  have hes : leafAt μ.view l = es := leafAt_eq hl hc
  have hsorted := leaf_sorted ht.order (c := (l, u)) (by rw [hloc.eq]; simp)
  have hkept : ∀ e ∈ es, e.stored = e := fun e he => ht.kept e (by rw [hloc.eq]; simp [hes, he])
  rw [hes] at hsorted
  obtain ⟨es₁, es₂, rfl, h₁, h₂⟩ := exists_gap hsorted (findInLeaf_none.1 hx)
  have hplaced : (sortByKey LeafEntry.key (es₁ ++ es₂ ++ [⟨x, val⟩])).map LeafEntry.stored =
      es₁ ++ LeafEntry.stored ⟨x, val⟩ :: es₂ := by
    rw [sortByKey_insert (pairwise_insert hsorted (t := ⟨x, val⟩) h₁ h₂), List.map_append, List.map_cons,
      map_stored fun e he => hkept e (by simp [he]), map_stored fun e he => hkept e (by simp [he])]
  -- the new entry among the tokens
  obtain ⟨hbefore, hafter, hfence⟩ := tokens_loc ht.order hloc (e := LeafEntry.stored ⟨x, val⟩) rfl
  have hord : (tokens μ.view pre ++ ((es₁ ++ LeafEntry.stored ⟨x, val⟩ :: es₂).map entryTok ++
      fenceTok u :: tokens μ.view post)).Pairwise (· < ·) := by
    have hold := ht.order
    rw [hloc.eq, tokens_append, tokens_cons, hes, List.map_append] at hold
    have hold' : ((tokens μ.view pre ++ es₁.map entryTok) ++
        (es₂.map entryTok ++ fenceTok u :: tokens μ.view post)).Pairwise (· < ·) := by simpa using hold
    have hnew := pairwise_insert hold' (t := entryTok (LeafEntry.stored ⟨x, val⟩)) (fun t ht => ?_) fun t ht => ?_
    · simpa using hnew
    · rcases List.mem_append.1 ht with ht | ht
      · exact hbefore t ht
      · obtain ⟨e, he, rfl⟩ := List.mem_map.1 ht
        exact entry_lt_entry.2 (h₁ e he)
    · rcases List.mem_append.1 ht with ht | ht
      · obtain ⟨e, he, rfl⟩ := List.mem_map.1 ht
        exact entry_lt_entry.2 (h₂ e he)
      · rcases List.mem_cons.1 ht with rfl | ht
        · exact hfence
        · exact hafter t ht
  have hstored : ∀ e ∈ es₁ ++ LeafEntry.stored ⟨x, val⟩ :: es₂, e.stored = e := fun e he => by
    rcases List.mem_append.1 he with he | he
    · exact hkept e (by simp [he])
    · rcases List.mem_cons.1 he with rfl | he
      · exact stored_stored _
      · exact hkept e (by simp [he])
  obtain ⟨htree, hcont⟩ := ht.rewrite (Function.update μ.view l
    (some (n.withCells (.leaf ((sortByKey LeafEntry.key (es₁ ++ es₂ ++ [⟨x, val⟩])).map LeafEntry.stored)) hfit)))
    hloc.eq hl rfl rfl rfl (congrArg Cells.leaf hplaced) hstored hord
  refine ⟨htree, ⟨content μ.view pre ++ es₁, es₂ ++ content μ.view post, ?_, ?_⟩, fun p hp => ?_⟩
  · rw [hloc.eq, content_append, content_cons, hes]; simp
  · rw [Mem.set_view, hcont]; simp
  · simp [hp]

/-! ### `split_leaf` -/

theorem LeavesOK.moved (h : LeavesOK v A) (hm : ∀ p ∈ ids A, Moved v v' p) :
    LeavesOK v' A ∧ content v' A = content v A := by
  have hleaf : ∀ c ∈ A, leafAt v' c.1 = leafAt v c.1 := fun c hc => by
    obtain ⟨-, n, es, hv, -⟩ := h.leaves c hc
    exact leafAt_moved hv (hm c.1 (mem_ids_of_mem hc))
  refine ⟨⟨fun c hc => ?_, h.linked.congr fun p hp => (hm p hp).sameNext, ?_, ?_⟩, content_congr hleaf⟩
  · obtain ⟨hne, n, es, hv, hcells⟩ := h.leaves c hc
    obtain ⟨q, hq⟩ := hm c.1 (mem_ids_of_mem hc) n hv
    exact ⟨hne, _, es, hq, hcells⟩
  · rw [tokens_congr hleaf]; exact h.order
  · rw [content_congr hleaf]; exact h.kept

/-- The separator of two halves fits between their tokens. -/
theorem tokens_halved {es₁ es₂ : List (LeafEntry K)} {e : LeafEntry K} {T₁ T₂ : List (WithTop L ×ₗ Bool)}
    (h : (T₁ ++ ((es₁ ++ e :: es₂).map entryTok ++ T₂)).Pairwise (· < ·)) (hT : ∀ t ∈ T₁, t < fenceTok (some e.key)) :
    (T₁ ++ (es₁.map entryTok ++ fenceTok (some e.key) :: ((e :: es₂).map entryTok ++ T₂))).Pairwise (· < ·) := by
  have h' : ((T₁ ++ es₁.map entryTok) ++ (entryTok e :: (es₂.map entryTok ++ T₂))).Pairwise (· < ·) := by simpa using h
  obtain ⟨-, hright, hcross⟩ := List.pairwise_append.1 h'
  have hself : (fenceTok (some e.key) : WithTop L ×ₗ Bool) < entryTok e := fence_lt_entry.2 (by simp)
  have hnew := pairwise_insert h' (t := fenceTok (some e.key)) (fun t ht => ?_) fun t ht => ?_
  · simpa using hnew
  · rcases List.mem_append.1 ht with ht' | ht'
    · exact hT t ht'
    · obtain ⟨e', he', rfl⟩ := List.mem_map.1 ht'
      have hlt := entry_lt_entry.1 (hcross _ ht (entryTok e) (by simp))
      exact entry_lt_fence.2 (by simpa using hlt)
  · rcases List.mem_cons.1 ht with rfl | ht
    · exact hself
    · exact hself.trans ((List.pairwise_cons.1 hright).1 t ht)

/-- What is before an entry of the leaf is below the later keys of the leaf. -/
theorem tokens_below {es₁ es₂ : List (LeafEntry K)} {e : LeafEntry K} {T₁ T₂ : List (WithTop L ×ₗ Bool)}
    (h : (T₁ ++ ((es₁ ++ e :: es₂).map entryTok ++ T₂)).Pairwise (· < ·)) (hne : es₁ ≠ []) :
    ∀ t ∈ T₁, t < fenceTok (some e.key) := by
  intro t ht
  obtain ⟨e₀, es₀, rfl⟩ := List.exists_cons_of_ne_nil hne
  obtain ⟨-, hright, hcross⟩ := List.pairwise_append.1 h
  have hin := (List.pairwise_map.1 (List.pairwise_append.1 hright).1).imp fun h => entry_lt_entry.1 h
  have hlt : rank e₀.key < rank e.key := (List.pairwise_append.1 hin).2.2 e₀ (by simp) e (by simp)
  exact (hcross t ht (entryTok e₀) (by simp)).trans (entry_lt_fence.2 (by simpa using hlt))

/-- The tokens before a leaf are below its middle key: something of the leaf, or the key
`x`, lies between. -/
theorem tokens_before {es₁ es₂ : List (LeafEntry K)} {e : LeafEntry K} (hord : (tokens v A).Pairwise (· < ·))
    (hloc : Loc A x pre (l, u) post) (hl : leafAt v l = es₁ ++ e :: es₂) (h : es₁ ≠ [] ∨ rank x < rank e.key) :
    ∀ t ∈ tokens v pre, t < fenceTok (some e.key) := by
  rcases h with hne | hxe
  · rw [hloc.eq, tokens_append, tokens_cons, hl] at hord
    exact tokens_below hord hne
  · obtain ⟨hbefore, -, -⟩ := tokens_loc hord hloc (e := ⟨x, []⟩) rfl
    exact fun t ht => (hbefore t ht).trans (entry_lt_fence.2 (by simpa using hxe))

/-- **The leaves with one halved**: the same entries, chained and in order. -/
theorem LeavesOK.halved {n nl nr : Node K} {es₁ es₂ : List (LeafEntry K)} {e : LeafEntry K} (h : LeavesOK v A)
    (v' : View K) (hnd : (ids A).Nodup) (hloc : Loc A x pre (l, u) post) (hl : v l = some n) (hc : n.cells = .leaf (es₁ ++ e :: es₂))
    (hr : r ∉ ids A) (hne : r ≠ INVALID_PAGE) (hvl : v' l = some nl) (hlc : nl.cells = .leaf es₁)
    (hln : nl.next_leaf = r) (hvr : v' r = some nr) (hrc : nr.cells = .leaf (e :: es₂))
    (hrn : nr.next_leaf = n.next_leaf) (hvo : ∀ p, p ≠ l → p ≠ r → v' p = v p)
    (hx : es₁ ≠ [] ∨ rank x < rank e.key) :
    LeavesOK v' (pre ++ (l, some e.key) :: (r, u) :: post) ∧
      content v' (pre ++ (l, some e.key) :: (r, u) :: post) = content v A := by
  have hside : ∀ c ∈ pre ++ post, v' c.1 = v c.1 := fun c hc => by
    have hmem := mem_ids_of_mem hc
    rw [ids_append] at hmem
    refine hvo c.1 (fun hcl => ?_) fun hcr => hr ?_
    · rw [hloc.eq, ids_append, ids_cons, List.nodup_middle] at hnd
      exact (List.nodup_cons.1 hnd).1 (hcl ▸ hmem)
    · rw [← hcr, hloc.eq, ids_append, ids_cons]
      rcases List.mem_append.1 hmem with h | h <;> simp [h]
  have hleaf : ∀ c ∈ pre ++ post, leafAt v' c.1 = leafAt v c.1 := fun c hc => by simp only [leafAt, hside c hc]
  have hpre := fun c (hc : c ∈ pre) => hleaf c (List.mem_append_left _ hc)
  have hpost := fun c (hc : c ∈ post) => hleaf c (List.mem_append_right _ hc)
  have hes := leafAt_eq hl hc
  have hcont : content v' (pre ++ (l, some e.key) :: (r, u) :: post) = content v A := by
    rw [hloc.eq]
    simp only [content_append, content_cons, content_congr hpre, content_congr hpost, leafAt_eq hvl hlc,
      leafAt_eq hvr hrc, hes, List.append_assoc]
  refine ⟨⟨fun c hc => ?_, ?_, ?_, by rw [hcont]; exact h.kept⟩, hcont⟩
  · rcases List.mem_append.1 hc with hc | hc
    · rw [hside c (by simp [hc])]
      exact h.leaves c (by rw [hloc.eq]; simp [hc])
    · rcases List.mem_cons.1 hc with rfl | hc
      · exact ⟨(h.leaves (l, u) (by rw [hloc.eq]; simp)).1, nl, es₁, hvl, hlc⟩
      · rcases List.mem_cons.1 hc with rfl | hc
        · exact ⟨hne, nr, e :: es₂, hvr, hrc⟩
        · rw [hside c (by simp [hc])]
          exact h.leaves c (by rw [hloc.eq]; simp [hc])
  · have hlink := h.linked
    rw [hloc.eq, ids_append, ids_cons] at hlink
    rw [ids_append, ids_cons, ids_cons]
    refine hlink.insert hl hvl hln hvr hrn fun p hp => ?_
    rw [← ids_append] at hp
    obtain ⟨w, hw⟩ := mem_ids.1 hp
    exact sameNext_of_eq (hside (p, w) hw)
  · have hold := h.order
    rw [hloc.eq, tokens_append, tokens_cons, hes] at hold
    simp only [tokens_append, tokens_cons, tokens_congr hpre, tokens_congr hpost, leafAt_eq hvl hlc, leafAt_eq hvr hrc]
    exact tokens_halved hold (tokens_before h.order hloc hes hx)

/-- The halves of a leaf fit. -/
theorem leaf_halves_fit {n : Node K} {es : List (LeafEntry K)} (hc : n.cells = .leaf es) (i : ℕ) :
    (Cells.leaf (es.take i)).bytes.length ≤ CAPACITY ∧ (Cells.leaf (es.drop i)).bytes.length ≤ CAPACITY := by
  have hsum : (Cells.leaf es).bytes = (Cells.leaf (es.take i)).bytes ++ (Cells.leaf (es.drop i)).bytes := by
    show es.flatMap _ = (es.take i).flatMap _ ++ (es.drop i).flatMap _
    rw [← List.flatMap_append, List.take_append_drop]
  have h := n.fits
  rw [hc, hsum, List.length_append] at h
  omega

theorem drop_eq_cons {α : Type} {l : List α} {i : ℕ} {e : α} (h : l[i]? = some e) : l.drop i = e :: l.drop (i + 1) := by
  obtain ⟨hi, rfl⟩ := List.getElem?_eq_some_iff.1 h
  exact List.drop_eq_getElem_cons hi

/-- **`split_leaf`**: the entries stay, half of the leaf's under a new page. -/
theorem run_splitLeaf {n : Node K} {es : List (LeafEntry K)} {path : List PageId} (ht : TreeOK μ.view μ.root d A O)
    (hloc : Loc A x pre (l, u) post) (hl : μ.view l = some n) (hc : n.cells = .leaf es) (hpath : Path μ.view l path)
    (hE : E .file_extend) (hempty : es = [] → E .undefined)
    (hx : ∀ e, es[es.length / 2]? = some e → 2 ≤ es.length ∨ rank x < rank e.key)
    (hstop : ∀ e, es[es.length / 2]? = some e → ∀ fuel, (ids A ++ O).length + 2 ≤ fuel → ∀ stop,
      carryInto (carrySplit fuel) (path.map (seps μ.view)) e.key x = .error stop → E stop.err) :
    Run μ (splitLeaf txn l) E fun _ μ' => ∃ e r d' O', es[es.length / 2]? = some e ∧
      TreeOK μ'.view μ'.root d' (pre ++ (l, some e.key) :: (r, u) :: post) O' ∧
      content μ'.view (pre ++ (l, some e.key) :: (r, u) :: post) = content μ.view A ∧
      leafAt μ'.view l = es.take (es.length / 2) ∧ leafAt μ'.view r = es.drop (es.length / 2) ∧
      Owned μ.view (ids A ++ O) μ'.view (ids (pre ++ (l, some e.key) :: (r, u) :: post) ++ O') ∧
      (SmallBounds (pre ++ (l, some e.key) :: (r, u) :: post) → Thick μ.view O → Thick μ'.view O') := by
  have hes := leafAt_eq hl hc
  have hkept : ∀ e ∈ es, e.stored = e := fun e he => ht.kept e (by rw [hloc.eq]; simp [hes, he])
  unfold splitLeaf
  refine run_fetchNode hl (run_leafEntries hc ?_)
  dsimp only
  obtain ⟨hfit₁, hfit₂⟩ := leaf_halves_fit hc (es.length / 2)
  rw [← map_stored fun e he => hkept e (List.mem_of_mem_take he)] at hfit₁
  rw [← map_stored fun e he => hkept e (List.mem_of_mem_drop he)] at hfit₂
  refine run_allocNode hE fun r F hr hrne => ?_
  have hlr : l ≠ r := fun h => by rw [← h, hl] at hr; cases hr
  refine run_setLeafEntries (n := Node.init .LEAF) (by simp) (fun h => absurd hfit₂ h) fun _ => ?_
  rw [Mem.set_set]
  refine run_setNextLeaf (n := (Node.init .LEAF).withCells _ hfit₂) (by simp) ?_
  rw [Mem.set_set]
  refine run_setParentPage (n := { (Node.init .LEAF).withCells _ hfit₂ with next_leaf := n.next_leaf }) (by simp) ?_
  rw [Mem.set_set]
  refine run_setLeafEntries (n := n) (by simp [hlr, hl]) (fun h => absurd hfit₁ h) fun _ => ?_
  refine run_setNextLeaf (n := n.withCells _ hfit₁) (by simp) ?_
  rw [Mem.set_set]
  generalize hnr : ({ (Node.init .LEAF).withCells _ hfit₂ with
    next_leaf := n.next_leaf, parent_page := n.parent_page } : Node K) = nr
  generalize hnl : ({ n.withCells _ hfit₁ with next_leaf := r } : Node K) = nl
  cases hmid : es[es.length / 2]? with
  | none =>
    have hnil : es = [] := by
      rw [List.getElem?_eq_none_iff] at hmid
      exact List.length_eq_zero_iff.1 (by omega)
    subst hnil
    rw [List.drop_nil, List.head?_nil]
    exact run_throw (hempty rfl)
  | some e =>
    have hdrop := drop_eq_cons hmid
    have hsplit : es = es.take (es.length / 2) ++ e :: es.drop (es.length / 2 + 1) := by
      rw [← hdrop, List.take_append_drop]
    rw [show (es.drop (es.length / 2)).head? = some e by rw [hdrop]; rfl]
    refine run_writePage (run_writePage ?_)
    set μ₂ : Mem K := ({ μ with free := F }.set r nr).set l nl with hμ₂
    have hvl : μ₂.view l = some nl := by simp [hμ₂]
    have hvr : μ₂.view r = some nr := by simp [hμ₂, hlr.symm]
    have hvo : ∀ p, p ≠ l → p ≠ r → μ₂.view p = μ.view p := fun p h1 h2 => by simp [hμ₂, h1, h2]
    have hlc : nl.cells = .leaf (es.take (es.length / 2)) := by
      rw [← hnl]; exact congrArg Cells.leaf (map_stored fun e he => hkept e (List.mem_of_mem_take he))
    have hrc : nr.cells = .leaf (e :: es.drop (es.length / 2 + 1)) := by
      rw [← hnr, ← hdrop]; exact congrArg Cells.leaf (map_stored fun e he => hkept e (List.mem_of_mem_drop he))
    have hrA : r ∉ ids A ++ O := fun h => by
      obtain ⟨m, hm⟩ := ht.up.alive_ids h
      rw [hr] at hm; cases hm
    have hlA : l ∈ ids A := by rw [hloc.eq]; simp
    have hxs : es.take (es.length / 2) ≠ [] ∨ rank x < rank e.key := by
      refine (hx e hmid).imp_left fun h => ?_
      rw [← List.length_pos_iff, List.length_take]; omega
    obtain ⟨hleaves, hcont⟩ := ht.toLeavesOK.halved μ₂.view (List.nodup_append.1 ht.nodup).1 hloc hl
      (hc.trans (congrArg Cells.leaf hsplit)) (fun h => hrA (List.mem_append_left _ h)) hrne hvl hlc (by rw [← hnl]) hvr hrc
      (by rw [← hnr]) hvo hxs
    have hpl : nl.parent_page = n.parent_page := by rw [← hnl]; rfl
    have hkeep : ∀ p ∈ ids A ++ O, p ∉ [l] → μ₂.view p = μ.view p := fun p hp hpl =>
      hvo p (by simpa using hpl) fun h => hrA (h ▸ hp)
    have hparent : ∀ p ∈ [l], SameParent μ.view μ₂.view p := fun p hp m hm => by
      rw [List.mem_singleton.1 hp, hl] at hm; cases hm
      exact ⟨nl, by rw [List.mem_singleton.1 hp]; exact hvl, hpl⟩
    have hup₂ : Up μ₂.view μ₂.root d A O := ht.up.leaf_congr ht.nodup (by simpa using hlA) hparent hkeep
    have hO : ∀ p ∈ O, μ₂.view p = μ.view p := fun p hp => hkeep p (List.mem_append_right _ hp) fun h =>
      (List.nodup_append.1 ht.nodup).2.2 l hlA p hp (List.mem_singleton.1 h).symm
    have hpathO : ∀ p ∈ path, p ∈ O := ht.up.path_mem hlA hpath
    have hseps : path.map (seps μ₂.view) = path.map (seps μ.view) := List.map_congr_left fun p hp => by
      simp only [seps, hO p (hpathO p hp)]
    have hpath₂ : Path μ₂.view l path := hpath.congr fun p hp => by
      rcases List.mem_cons.1 hp with rfl | hp
      · exact hparent p (by simp)
      · exact sameParent_of_eq (hO p (hpathO p hp))
    unfold splitFuel
    rw [bind_assoc]
    refine run_get fun s hs => ?_
    have hfuel : (ids A ++ O).length + 2 ≤ s.total_pages + 2 := by
      have := hs.length_le ht.nodup fun p hp => hup₂.alive_ids hp
      omega
    rw [pure_bind]
    have hA := hloc.eq
    have hnd := ht.nodup
    have howned : Owned μ.view (ids A ++ O) μ₂.view (ids (pre ++ (l, some e.key) :: (r, u) :: post) ++ O) := by
      have hids : ∀ p, p ∈ ids (pre ++ (l, some e.key) :: (r, u) :: post) ↔ p = r ∨ p ∈ ids A := fun p => by
        rw [hA]; exact mem_ids_insert
      refine ⟨fun p hp hp' => ?_, fun p hp => ?_, fun p hp hp' => ?_⟩
      · rw [List.mem_append, hids, not_or, not_or] at hp'
        exact hvo p (fun hpl => hp'.1.2 (hpl ▸ hlA)) hp'.1.1
      · rw [List.mem_append, hids] at hp
        rcases hp with (rfl | hp) | hp
        · exact Or.inr hr
        · exact Or.inl (List.mem_append_left _ hp)
        · exact Or.inl (List.mem_append_right _ hp)
      · rw [List.mem_append, hids, not_or, not_or] at hp'
        exact absurd (List.mem_append.1 hp) (not_or.2 ⟨hp'.1.2, hp'.2⟩)
    rw [hA] at hup₂ hloc hnd hrA
    refine run_mono (run_insertIntoParent (s.total_pages + 2) (x := x) hup₂ hnd hrA hvl hvr
      (ascending_of_order hleaves.order) hloc hpath₂ hE fun stop he => ?_) ?_
    · rw [hseps] at he
      exact hstop e hmid _ hfuel stop he
    rintro ⟨⟩ μ₃ ⟨d', O', hraised, hthick, -⟩
    obtain ⟨hleaves₃, hcont₃⟩ := hleaves.moved hraised.keep
    refine ⟨e, r, d', O', rfl, ⟨hleaves₃, hraised.up, hraised.nodup⟩, hcont₃.trans hcont, ?_, ?_,
      howned.trans hraised.owned, fun hS h => ?_⟩
    · rw [leafAt_moved hvl (hraised.keep l (by simp)), leafAt_eq hvl hlc]
    · rw [leafAt_moved hvr (hraised.keep r (by simp)), leafAt_eq hvr hrc, hdrop]
    · refine hthick hS fun p hp => ?_
      simpa only [seps, hO p hp] using h p hp

/-! ### The whole call -/

/-- What must fit for an insertion of `x` into the leaf with entries `es`, under the separators
`spine`, to throw only errors in `E`. -/
structure InsertFits (E : Err K → Prop) (N : ℕ) (es : List (LeafEntry K)) (spine : Spine K) (x : K) (val : Bytes) :
    Prop where
  room : ¬ CAPACITY - (Cells.leaf es).bytes.length < leafEntrySize x val →
    ¬ (withEntry es x val).bytes.length ≤ CAPACITY → E .overflow
  empty : CAPACITY - (Cells.leaf es).bytes.length < leafEntrySize x val → es = [] → E .undefined
  split : CAPACITY - (Cells.leaf es).bytes.length < leafEntrySize x val → ∀ e, es[es.length / 2]? = some e →
    (2 ≤ es.length ∨ rank x < rank e.key) ∧
    (∀ fuel, N ≤ fuel → ∀ stop, carryInto (carrySplit fuel) spine e.key x = .error stop → E stop.err) ∧
    (¬ (withEntry (if KeyOps.lt x e.key then es.take (es.length / 2) else es.drop (es.length / 2)) x val).bytes.length ≤
      CAPACITY → E .overflow)

/-- **`insert`** in the caller's transaction: one entry more, or a duplicate. -/
theorem run_insertTx {val : Bytes} (ht : TreeOK μ.view μ.root d A O) (hE : E .file_extend)
    (hdup : ∀ e ∈ content μ.view A, rank e.key = rank x → E (.duplicate_key x))
    (hfits : ∀ pre l u post n es path, Loc A x pre (l, u) post → μ.view l = some n → n.cells = .leaf es →
      Path μ.view l path → findInLeaf es x = none → InsertFits E ((ids A ++ O).length + 2) es (path.map (seps μ.view)) x val) :
    Run μ (insertTx txn x val) E fun _ μ' => (∀ e ∈ content μ.view A, rank e.key ≠ rank x) ∧ ∃ d' A' O',
      TreeOK μ'.view μ'.root d' A' O' ∧
      Inserted (content μ.view A) (content μ'.view A') (LeafEntry.stored ⟨x, val⟩) ∧
      Owned μ.view (ids A ++ O) μ'.view (ids A' ++ O') ∧
      (SmallBounds A → (∀ e ∈ content μ.view A, Small e.key) → Thick μ.view O → SmallBounds A' ∧ Thick μ'.view O') := by
  obtain ⟨pre, ⟨l, u⟩, post, hloc⟩ := ht.up.exists_loc (rising_of_order ht.loose.order) x
  have hlA := hloc.mem
  obtain ⟨-, n, es, hl, hc⟩ := ht.leaves (l, u) hlA
  obtain ⟨path, hpath⟩ := ht.up.exists_path (mem_ids_of_mem hlA)
  have hes := leafAt_eq hl hc
  unfold insertTx
  refine run_findLeafPage ht.loose hloc (run_fetchNode hl (run_leafEntries hc ?_))
  have hfind := findInLeaf_content ht.loose.order hloc
  rw [hes] at hfind
  cases hx : findInLeaf es x with
  | some val₀ =>
    obtain ⟨e, he, hex⟩ : ∃ e ∈ content μ.view A, rank e.key = rank x := by
      by_contra hnone
      push Not at hnone
      rw [findInLeaf_none.2 hnone, hx] at hfind
      cases hfind
    exact run_throw (hdup e he hex)
  | none =>
    rw [hx] at hfind
    have hnew := findInLeaf_none.1 hfind
    have hfit := hfits pre l u post n es path hloc hl hc hpath hx
    have hav : n.available = CAPACITY - (Cells.leaf es).bytes.length := by rw [Node.available, Node.used_space, hc]
    dsimp only
    rw [hav]
    refine run_ite (fun hfull => ?_) fun hroom => ?_
    · refine run_bind (run_splitLeaf ht hloc hl hc hpath hE (hfit.empty hfull) (fun e he => (hfit.split hfull e he).1)
        fun e he => (hfit.split hfull e he).2.1) ?_
      rintro ⟨⟩ μ₁ ⟨e, r, d₁, O₁, he, ht₁, hcont, hleft, hright, howned, hthick⟩
      obtain ⟨-, -, hov⟩ := hfit.split hfull e he
      have hA := hloc.eq
      rw [hA] at hloc
      obtain ⟨pre₁, post₁, hloc₁⟩ := hloc.side (r := r) (κ := e.key)
      refine run_findLeafPage ht₁.loose hloc₁ ?_
      obtain ⟨-, n₁, es₁, hl₁, hc₁⟩ := ht₁.leaves _ hloc₁.mem
      have hhalf : es₁ = if KeyOps.lt x e.key then es.take (es.length / 2) else es.drop (es.length / 2) := by
        rw [← leafAt_eq hl₁ hc₁, ← hleft, ← hright, apply_ite Prod.fst, apply_ite (leafAt μ₁.view)]
      have hx₁ : findInLeaf es₁ x = none := by
        rw [← hcont, findInLeaf_content ht₁.loose.order hloc₁, leafAt_eq hl₁ hc₁] at hfind
        exact hfind
      refine run_mono (run_insertIntoLeaf ht₁ hloc₁ hl₁ hc₁ hx₁ (by rw [hhalf]; exact hov)) ?_
      rintro ⟨⟩ μ₂ ⟨ht₂, hins, ho⟩
      have hO := ht₁.above_same hloc₁.mem ho
      refine ⟨hnew, d₁, _, O₁, ht₂, hcont ▸ hins, howned.trans (Owned.same fun p hp => ho p fun hpl => hp ?_), fun hS hkeys h => ?_⟩
      · rw [hpl]; exact List.mem_append_left _ (mem_ids_of_mem hloc₁.mem)
      have heA : e ∈ content μ.view A := by
        refine List.mem_flatMap.2 ⟨(l, u), hlA, ?_⟩
        rw [hes]; exact List.mem_of_getElem? he
      have hS₁ : SmallBounds (pre ++ (l, some e.key) :: (r, u) :: post) := fun c hc k hk => by
        rw [hA] at hS
        rcases List.mem_append.1 hc with hc | hc
        · exact hS c (by simp [hc]) k hk
        · rcases List.mem_cons.1 hc with rfl | hc
          · cases hk; exact hkeys e heA
          · rcases List.mem_cons.1 hc with rfl | hc
            · exact hS (l, u) (by simp) k hk
            · exact hS c (by simp [hc]) k hk
      refine ⟨hS₁, fun p hp => ?_⟩
      simpa only [seps, hO p hp] using hthick hS₁ h p hp
    · refine run_mono (run_insertIntoLeaf ht hloc hl hc hx (hfit.room hroom)) ?_
      rintro ⟨⟩ μ₁ ⟨ht₁, hins, ho⟩
      have hO := ht.above_same hlA ho
      refine ⟨hnew, d, A, O, ht₁, hins, Owned.same fun p hp => ho p fun hpl => hp ?_, fun hA _ h => ⟨hA, fun p hp => ?_⟩⟩
      · rw [hpl]; exact List.mem_append_left _ (mem_ids_of_mem hlA)
      simpa only [seps, hO p hp] using h p hp

end GSDBEngine
