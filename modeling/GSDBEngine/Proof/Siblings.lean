import GSDBEngine.Proof.Insert

/-!
# Siblings under a parent

Removal works on two neighbouring pages `l` and `r` with the separator between them in
their parent's row (`Adjacent`). Their parent gets a new separator (`replaceSeparator`)
or loses it with `r` (`removeSeparator`); either way the levels above stay.

* `run_findSiblings`: the neighbours found are the ones in the row.
* `Adjacent.reseat`: the levels with the parent's row rewritten.
* `run_replaceSeparator`, `run_removeSeparator`: the row of the parent after each.
-/

namespace GSDBEngine

set_option linter.unusedSectionVars false

open KeyRank BTree

variable {K L : Type} [KeyOps K] [LinearOrder L] [KeyRank K L]
variable {v v' : View K} {root : PageId} {d : ℕ} {A B pre post B₁ B₂ r₁ r₂ row : Level K} {O : List PageId}
  {b c : Cell K} {x κ κ' : K} {p q l r : PageId} {μ μ' : Mem K} {E : Err K → Prop} {txn : ℕ} {u w : Option K}
  {nq nq' : Node K} {es : List (InternalEntry K)} {rm : PageId}

/-- Neighbouring pages `l` and `r` under the node `nq` on page `q`, `κ` between them. -/
structure Adjacent (v : View K) (root : PageId) (d : ℕ) (B : Level K) (O : List PageId) (B₁ B₂ r₁ r₂ : Level K)
    (q : PageId) (w : Option K) (nq : Node K) (l : PageId) (κ : K) (r : PageId) (u : Option K) : Prop where
  up : Up v root d B O
  inner : ∀ b ∈ B, Inner v b
  nodup : (ids (expand v B) ++ (ids B ++ O)).Nodup
  asc : Ascending (expand v B)
  eq : B = B₁ ++ (q, w) :: B₂
  parent : v q = some nq
  row : nq.row w = r₁ ++ (l, some κ) :: (r, u) :: r₂

theorem of_mem_sides {α : Type} {P Q : List α} {a b y : α} (hnd : (P ++ a :: b :: Q).Nodup) (hy : y ∈ P ++ Q) :
    y ∈ P ++ a :: b :: Q ∧ y ≠ a ∧ y ≠ b := by
  rw [List.nodup_append, List.nodup_cons, List.nodup_cons] at hnd
  obtain ⟨-, ⟨ha, hb, -⟩, hcross⟩ := hnd
  rcases List.mem_append.1 hy with hy | hy
  · exact ⟨List.mem_append_left _ hy, hcross y hy a (by simp), hcross y hy b (by simp)⟩
  · exact ⟨by simp [hy], fun h => ha (by simp [← h, hy]), fun h => hb (h ▸ hy)⟩

/-- The node with its row rewritten to `row`. -/
structure Rerow (nq nq' : Node K) (w : Option K) (row : Level K) : Prop where
  parent : nq'.parent_page = nq.parent_page
  cells : ∃ es, nq'.cells = .internal es
  row_eq : nq'.row w = row

namespace Adjacent

variable (h : Adjacent v root d B O B₁ B₂ r₁ r₂ q w nq l κ r u)
include h

theorem level : expand v B = expand v B₁ ++ ((r₁ ++ (l, some κ) :: (r, u) :: r₂) ++ expand v B₂) := by
  rw [h.eq, expand_append, expand_cons, ← h.row]
  simp [rowAt, h.parent]

theorem rowAt_eq : rowAt v (q, w) = r₁ ++ (l, some κ) :: (r, u) :: r₂ := by
  rw [← h.row]; simp [rowAt, h.parent]

theorem mem_parent : (q, w) ∈ B := by
  rw [h.eq]; simp

theorem cells : ∃ es, nq.cells = .internal es ∧ cellsOf es nq.rightmost_child w = r₁ ++ (l, some κ) :: (r, u) :: r₂ := by
  obtain ⟨-, n, es, hv, hc, -⟩ := h.inner _ h.mem_parent
  rw [h.parent] at hv; cases hv
  exact ⟨es, hc, by rw [← h.row, Node.row, hc]⟩

theorem parent_ids : q ∈ ids B ++ O := List.mem_append_left _ (mem_ids_of_mem h.mem_parent)

theorem row_asc : Ascending (r₁ ++ (l, some κ) :: (r, u) :: r₂) := by
  rw [← h.rowAt_eq]
  exact h.asc.expand_row h.mem_parent

theorem mem_level (hc : c ∈ r₁ ++ (l, some κ) :: (r, u) :: r₂) : c ∈ expand v B := by
  rw [h.level]; simp only [List.mem_append]; exact Or.inr (Or.inl (List.mem_append.1 hc))

/-- A page of the level is not above it. -/
theorem not_above (hp : p ∈ ids (expand v B)) : p ∉ ids B ++ O := fun hp' => (List.nodup_append.1 h.nodup).2.2 p hp p hp' rfl

theorem left_mem : l ∈ ids (expand v B) := mem_ids_of_mem (c := (l, some κ)) (h.mem_level (by simp))

theorem right_mem : r ∈ ids (expand v B) := mem_ids_of_mem (c := (r, u)) (h.mem_level (by simp))

theorem left_ne : l ≠ q := fun hl => h.not_above h.left_mem (hl ▸ h.parent_ids)

theorem right_ne : r ≠ q := fun hr => h.not_above h.right_mem (hr ▸ h.parent_ids)

theorem ids_level : ids (expand v B) = (ids (expand v B₁) ++ ids r₁) ++ l :: r :: (ids r₂ ++ ids (expand v B₂)) := by
  rw [h.level]; simp

theorem ne : l ≠ r := by
  have hnd := (List.nodup_append.1 h.nodup).1
  rw [h.ids_level] at hnd
  have := (List.nodup_cons.1 (List.nodup_append.1 hnd).2.1).1
  exact fun hlr => this (by rw [hlr]; simp)

theorem row_nodup : (ids (r₁ ++ (l, some κ) :: (r, u) :: r₂)).Nodup := by
  have hnd := (List.nodup_append.1 h.nodup).1
  rw [h.level, ids_append, ids_append] at hnd
  exact (List.nodup_append.1 (List.nodup_append.1 hnd).2.1).1

/-- The row without `r`. -/
theorem right_not_mem : r ∉ ids (r₁ ++ (l, u) :: r₂) := by
  have hnd := h.row_nodup
  rw [ids_append, ids_cons, ids_cons, show ∀ a b : List PageId, a ++ l :: r :: b = (a ++ [l]) ++ r :: b by simp,
    List.nodup_middle] at hnd
  simpa using (List.nodup_cons.1 hnd).1

/-- The level without `r`. -/
theorem right_gone : r ∉ ids ((expand v B₁ ++ r₁) ++ ([(l, u)] ++ (r₂ ++ expand v B₂))) := by
  have hnd := (List.nodup_append.1 h.nodup).1
  rw [h.ids_level, show ∀ a b : List PageId, a ++ l :: r :: b = (a ++ [l]) ++ r :: b by simp, List.nodup_middle] at hnd
  have hr := (List.nodup_cons.1 hnd).1
  simpa [or_assoc] using hr

/-- The other cells of the level. -/
theorem side (hc : c ∈ (expand v B₁ ++ r₁) ++ (r₂ ++ expand v B₂)) :
    c.1 ∈ ids (expand v B) ∧ c.1 ≠ l ∧ c.1 ≠ r ∧ c.1 ≠ q := by
  have hlev : ids (expand v B) = ids (expand v B₁ ++ r₁) ++ l :: r :: ids (r₂ ++ expand v B₂) := by
    rw [h.ids_level, ids_append, ids_append]
  have hnd := (List.nodup_append.1 h.nodup).1
  have hmem := mem_ids_of_mem hc
  rw [hlev] at hnd
  rw [ids_append] at hmem
  obtain ⟨hA, hcl, hcr⟩ := of_mem_sides hnd hmem
  rw [← hlev] at hA
  exact ⟨hA, hcl, hcr, fun hcq => h.not_above hA (hcq ▸ h.parent_ids)⟩

/-- The children of the parent are under it. -/
theorem child (hc : c ∈ r₁ ++ (l, some κ) :: (r, u) :: r₂) : ∃ m, v c.1 = some m ∧ m.parent_page = q := by
  obtain ⟨-, n, es, hv, hcells, hch⟩ := h.inner _ h.mem_parent
  rw [← h.rowAt_eq, GSDBEngine.rowAt_eq hv hcells] at hc
  exact hch c hc

/-- **The levels with the parent's row rewritten**: `r` may be gone from it. -/
theorem reseat (hvq : v' q = some nq') (hre : Rerow nq nq' w row)
    (hids : ids row ⊆ ids (r₁ ++ (l, some κ) :: (r, u) :: r₂)) (hpar : ∀ p ∈ ids (expand v B), p ≠ r → SameParent v v' p)
    (hr : r ∈ ids row → SameParent v v' r) (hother : ∀ p ∈ ids B ++ O, p ≠ q → v' p = v p) :
    Up v' root d B O ∧ (∀ b ∈ B, Inner v' b) ∧ expand v' B = expand v B₁ ++ (row ++ expand v B₂) := by
  obtain ⟨es', hc'⟩ := hre.cells
  have hndB := (List.nodup_append.1 (List.nodup_append.1 h.nodup).2.1).1
  rw [← hre.row_eq]
  refine GSDBEngine.reseat h.up h.inner (List.nodup_append.1 h.nodup).2.1 h.eq h.parent hvq hre.parent hc'
    (fun c hc => ?_) hother fun b hb c hc => ?_
  · rw [hre.row_eq] at hc
    obtain ⟨u', hu'⟩ := mem_ids.1 (hids (mem_ids_of_mem hc))
    obtain ⟨m, hm, hmp⟩ := h.child hu'
    have hsame : SameParent v v' c.1 := by
      by_cases hcr : c.1 = r
      · rw [hcr]; exact hr (by rw [← hcr]; exact mem_ids_of_mem hc)
      · exact hpar c.1 (mem_ids_of_mem (c := (c.1, u')) (h.mem_level hu')) hcr
    obtain ⟨m', hm', hmp'⟩ := hsame m hm
    exact ⟨m', hm', hmp'.trans hmp⟩
  · -- `r` is in no other row
    obtain ⟨hbB, hbq⟩ := ids_other hndB h.eq hb
    refine hpar c.1 (mem_ids_of_mem (mem_expand.2 ⟨b, hbB, hc⟩)) fun hcr => ?_
    have hcs : c ∈ (expand v B₁ ++ r₁) ++ (r₂ ++ expand v B₂) := by
      rcases List.mem_append.1 hb with hb | hb
      · exact List.mem_append_left _ (List.mem_append_left _ (mem_expand.2 ⟨b, hb, hc⟩))
      · exact List.mem_append_right _ (List.mem_append_right _ (mem_expand.2 ⟨b, hb, hc⟩))
    exact (h.side hcs).2.2.1 hcr

end Adjacent

/-! ### `find_siblings` -/

/-- The neighbours of a page between `r₁` and `r₂` in its row, `u` its own bound. -/
structure Found (r₁ : Level K) (u : Option K) (r₂ : Level K) (sib : SiblingInfo K) : Prop where
  left : ∀ l κ, sib.left = some (l, κ) → ∃ r', r₁ = r' ++ [(l, some κ)]
  right : ∀ r κ, sib.right = some (r, κ) → u = some κ ∧ ∃ u' r', r₂ = (r, u') :: r'
  first : sib.left = none → r₁ = []
  last : sib.right = none → r₂ = []

theorem key_at (es : List (InternalEntry K)) (rm : PageId) (w : Option K) {i : ℕ} (hi : i < es.length) : ∃ k, (es.map InternalEntry.key)[i]? = some k ∧
    (cellsOf es rm w)[i]?.map Prod.snd = some (some k) := by
  refine ⟨es[i].key, by simp [hi], ?_⟩
  rw [cellsOf, List.getElem?_append_left (by simpa using hi)]
  simp [hi]

theorem run_findSiblings {α : Type} {f : SiblingInfo K → M K α} {Q : α → Mem K → Prop} (hv : μ.view q = some nq)
    (hc : nq.cells = .internal es) (hrow : nq.row w = r₁ ++ (p, u) :: r₂) (hnd : (ids (r₁ ++ (p, u) :: r₂)).Nodup)
    (h : ∀ sib, Found r₁ u r₂ sib → Run μ (f sib) E Q) : Run μ (findSiblings p q >>= f) E Q := by
  have hrow' : cellsOf es nq.rightmost_child w = r₁ ++ (p, u) :: r₂ := by rw [← hrow, Node.row, hc]
  unfold findSiblings
  simp only [bind_assoc]
  refine run_fetchNode hv (run_internalEntries hc ?_)
  have hcs : children es nq.rightmost_child = ids r₁ ++ p :: ids r₂ := by
    rw [children_eq (w := w), hrow', ids_append, ids_cons]
  have hlen : es.length = r₁.length + r₂.length := by
    have := congrArg List.length hrow'
    simp [cellsOf] at this; omega
  have hidx : (children es nq.rightmost_child).findIdx? (· == p) = some r₁.length := by
    rw [hcs, List.findIdx?_append, List.findIdx?_eq_none_iff.2 fun q hq => ?_, List.findIdx?_cons]
    · simp [ids]
    · rw [ids_append, ids_cons] at hnd
      simpa using fun hqp => (List.nodup_append.1 hnd).2.2 q hq p (by simp) hqp
  rw [hidx]
  dsimp only
  have hleft : (r₁ = [] ∧ ¬ 0 < r₁.length) ∨ ∃ r' l κ, r₁ = r' ++ [(l, some κ)] ∧
      ((children es nq.rightmost_child)[r₁.length - 1]?.bind fun c =>
        (es.map InternalEntry.key)[r₁.length - 1]?.map fun k => (c, k)) = some (l, κ) := by
    rcases List.eq_nil_or_concat r₁ with rfl | ⟨r', c, rfl⟩
    · exact Or.inl ⟨rfl, by simp⟩
    · obtain ⟨k, hk, hck⟩ := key_at es nq.rightmost_child w (i := r'.length) (by rw [hlen]; simp; omega)
      rw [hrow'] at hck
      have hc2 : c.2 = some k := by simpa using hck
      refine Or.inr ⟨r', c.1, k, by rw [← hc2]; simp, ?_⟩
      simp only [List.concat_eq_append, List.length_append, List.length_singleton, Nat.add_sub_cancel, hk, hcs]
      simp [ids]
  have hright : (r₂ = [] ∧ (children es nq.rightmost_child)[r₁.length + 1]? = none) ∨ ∃ r u' r' κ, r₂ = (r, u') :: r' ∧
      u = some κ ∧ ((children es nq.rightmost_child)[r₁.length + 1]?.bind fun c =>
        (es.map InternalEntry.key)[r₁.length]?.map fun k => (c, k)) = some (r, κ) := by
    cases r₂ with
    | nil => exact Or.inl ⟨rfl, by rw [hcs]; simp [ids]⟩
    | cons c r' =>
      obtain ⟨k, hk, hck⟩ := key_at es nq.rightmost_child w (i := r₁.length) (by rw [hlen]; simp)
      rw [hrow'] at hck
      refine Or.inr ⟨c.1, c.2, r', k, rfl, by simpa using hck, ?_⟩
      rw [hk, hcs]
      simp [ids]
  refine h _ ⟨fun l κ hl => ?_, fun r κ hr => ?_, fun hl => ?_, fun hr => ?_⟩
  · rcases hleft with ⟨-, h0⟩ | ⟨r', l', κ', rfl, hval⟩
    · rw [if_neg h0] at hl; cases hl
    · rw [if_pos (by simp), hval] at hl
      cases hl
      exact ⟨r', rfl⟩
  · rcases hright with ⟨-, h0⟩ | ⟨r', u', r'', κ', rfl, hu, hval⟩
    · rw [h0] at hr; cases hr
    · rw [hval] at hr
      cases hr
      exact ⟨hu, u', r'', rfl⟩
  · rcases hleft with ⟨h0, -⟩ | ⟨r', l', κ', rfl, hval⟩
    · exact h0
    · rw [if_pos (by simp), hval] at hl; cases hl
  · rcases hright with ⟨h0, -⟩ | ⟨r', u', r'', κ', rfl, hu, hval⟩
    · exact h0
    · rw [hval] at hr; cases hr

/-! ### The parent's row -/

theorem replaceKey_row (hrow : cellsOf es rm w = r₁ ++ (l, some κ) :: (r, u) :: r₂)
    (hasc : Ascending (r₁ ++ (l, some κ) :: (r, u) :: r₂)) :
    cellsOf (replaceKey κ κ' es) rm w = r₁ ++ (l, some κ') :: (r, u) :: r₂ := by
  rcases cellsOf_eq_append_cons hrow with ⟨h, -⟩ | ⟨es₁, k, es₂, rfl, hk, rfl, hr₂⟩
  · cases h
  cases hk
  have hlt : ∀ e ∈ es₁, rank e.key < rank κ := fun e he => by
    have h := (List.pairwise_append.1 hasc).2.2 (e.child_page_id, some e.key) (List.mem_map_of_mem he) (l, some κ) (by simp)
    simpa using h
  have hrep : replaceKey κ κ' (es₁ ++ ⟨κ, l⟩ :: es₂) = es₁ ++ ⟨κ', l⟩ :: es₂ := by
    clear hrow hasc
    induction es₁ with
    | nil => simp [replaceKey, eq_true.2]
    | cons e es₁ ih =>
      have hne : KeyOps.eq e.key κ = false := eq_false.2 (hlt e (by simp)).ne
      simp [replaceKey, hne, ih fun e he => hlt e (by simp [he])]
  rw [hrep, hr₂]
  simp [cellsOf]

theorem run_replaceSeparator {f : PUnit → M K PUnit} {Q : PUnit → Mem K → Prop} (hv : μ.view q = some nq)
    (hc : nq.cells = .internal es) (hrow : nq.row w = r₁ ++ (l, some κ) :: (r, u) :: r₂)
    (hasc : Ascending (r₁ ++ (l, some κ) :: (r, u) :: r₂)) (hov : E .overflow)
    (h : ∀ nq', Rerow nq nq' w (r₁ ++ (l, some κ') :: (r, u) :: r₂) → Run (μ.set q nq') (f ⟨⟩) E Q) :
    Run μ (replaceSeparator txn q κ κ' >>= f) E Q := by
  unfold replaceSeparator
  simp only [bind_assoc]
  refine run_getInternalEntries hv hc (run_setInternalEntries hv (fun _ => hov) fun hfit => run_writePage ?_)
  refine h _ ⟨rfl, ⟨_, rfl⟩, ?_⟩
  have hrow' : cellsOf es nq.rightmost_child w = r₁ ++ (l, some κ) :: (r, u) :: r₂ := by rw [← hrow, Node.row, hc]
  exact replaceKey_row hrow' hasc

theorem retargetChild_none {es : List (InternalEntry K)} (h : ∀ e ∈ es, e.child_page_id ≠ r) : retargetChild r l es = es := by
  induction es with
  | nil => rfl
  | cons e es ih => simp [retargetChild, h e (by simp), ih fun e he => h e (by simp [he])]

theorem retargetChild_append {es es' : List (InternalEntry K)} (h : ∀ e ∈ es, e.child_page_id ≠ r) :
    retargetChild r l (es ++ es') = es ++ retargetChild r l es' := by
  induction es with
  | nil => rfl
  | cons e es ih => simp [retargetChild, h e (by simp), ih fun e he => h e (by simp [he])]

/-- Dropping the separators equal to `κ` drops the one. -/
theorem filter_key {es₁ es₂ : List (InternalEntry K)} {e : InternalEntry K}
    (h : (es₁ ++ e :: es₂).Pairwise fun a b => rank a.key < rank b.key) :
    (es₁ ++ e :: es₂).filter (fun e' => !KeyOps.eq e'.key e.key) = es₁ ++ es₂ := by
  obtain ⟨-, hright, hcross⟩ := List.pairwise_append.1 h
  have h₁ : es₁.filter (fun e' => !KeyOps.eq e'.key e.key) = es₁ := List.filter_eq_self.2 fun e' he' => by
    simpa using eq_false.2 (hcross e' he' e (by simp)).ne
  have h₂ : es₂.filter (fun e' => !KeyOps.eq e'.key e.key) = es₂ := List.filter_eq_self.2 fun e' he' => by
    simpa using eq_false.2 ((List.pairwise_cons.1 hright).1 e' he').ne'
  rw [List.filter_append, List.filter_cons, h₁, h₂]
  simp [eq_true.2]

/-- **The row without `r`**: `l` takes its place. -/
theorem removeSeparator_row (hrow : cellsOf es rm w = r₁ ++ (l, some κ) :: (r, u) :: r₂)
    (hasc : Ascending (r₁ ++ (l, some κ) :: (r, u) :: r₂)) (hnd : (ids (r₁ ++ (l, some κ) :: (r, u) :: r₂)).Nodup) :
    cellsOf ((retargetChild r l es).filter fun e => !KeyOps.eq e.key κ) (if rm = r then l else rm) w =
      r₁ ++ (l, u) :: r₂ := by
  rcases cellsOf_eq_append_cons hrow with ⟨h, -⟩ | ⟨es₁, k, es₂, rfl, hk, rfl, hr₂⟩
  · cases h
  cases hk
  have hne₁ : ∀ e ∈ es₁ ++ [⟨κ, l⟩], e.child_page_id ≠ r := fun e he her => by
    have hmem : r ∈ ids (es₁.map fun e => (e.child_page_id, some e.key)) ++ [l] := by
      rw [← her]
      rcases List.mem_append.1 he with he | he
      · exact List.mem_append_left _ (mem_ids_of_mem (List.mem_map_of_mem he))
      · rw [List.mem_singleton.1 he]; simp
    rw [ids_append, ids_cons, ids_cons, show ∀ a b : List PageId, a ++ l :: r :: b = (a ++ [l]) ++ r :: b by simp,
      List.nodup_middle] at hnd
    exact (List.nodup_cons.1 hnd).1 (List.mem_append_left _ hmem)
  have hkeys : (es₁ ++ ⟨κ, l⟩ :: es₂).Pairwise fun e e' => rank e.key < rank e'.key := ascending_entries (by
    rw [List.map_append, List.map_cons]
    refine hasc.sublist (List.Sublist.append_left (List.Sublist.cons_cons _ ?_) _)
    rw [hr₂]; exact List.sublist_append_left _ _)
  rcases cellsOf_eq_append_cons (show cellsOf es₂ rm w = [] ++ (r, u) :: r₂ from hr₂.symm) with ⟨rfl, rfl, rfl, hes₂⟩ | ⟨es', k, es₂', rfl, rfl, hes', rfl⟩
  · -- `r` is the rightmost child
    obtain rfl : es₂ = [] := by simpa using hes₂.symm
    rw [if_pos rfl, retargetChild_none hne₁, filter_key hkeys]
    simp [cellsOf]
  · obtain rfl : es' = [] := by simpa using hes'.symm
    have hrm : rm ≠ r := fun h => by
      rw [ids_append, ids_cons, ids_cons, show ∀ a b : List PageId, a ++ l :: r :: b = (a ++ [l]) ++ r :: b by simp,
        List.nodup_middle] at hnd
      refine (List.nodup_cons.1 hnd).1 (List.mem_append_right _ ?_)
      rw [← h]
      exact mem_ids_of_mem (c := (rm, w)) (List.mem_append_right _ (by simp))
    have hret : retargetChild r l (es₁ ++ ⟨κ, l⟩ :: ⟨k, r⟩ :: es₂') = es₁ ++ ⟨κ, l⟩ :: ⟨k, l⟩ :: es₂' := by
      rw [show es₁ ++ ⟨κ, l⟩ :: ⟨k, r⟩ :: es₂' = (es₁ ++ [⟨κ, l⟩]) ++ ⟨k, r⟩ :: es₂' by simp, retargetChild_append hne₁]
      simp [retargetChild]
    have hkeys' : (es₁ ++ ⟨κ, l⟩ :: ⟨k, l⟩ :: es₂').Pairwise fun a b => rank a.key < rank b.key := by
      have h := List.pairwise_map (f := InternalEntry.key) (R := fun a b => rank a < rank b) |>.2 hkeys
      rw [← List.pairwise_map (f := InternalEntry.key) (R := fun a b => rank a < rank b)]
      simpa using h
    rw [List.nil_append, hret, filter_key hkeys', if_neg hrm]
    simp [cellsOf]

theorem run_removeSeparator {f : PUnit → M K PUnit} {Q : PUnit → Mem K → Prop} (hv : μ.view q = some nq)
    (hc : nq.cells = .internal es) (hrow : nq.row w = r₁ ++ (l, some κ) :: (r, u) :: r₂)
    (hasc : Ascending (r₁ ++ (l, some κ) :: (r, u) :: r₂)) (hnd : (ids (r₁ ++ (l, some κ) :: (r, u) :: r₂)).Nodup)
    (hov : E .overflow) (h : ∀ nq', Rerow nq nq' w (r₁ ++ (l, u) :: r₂) → Run (μ.set q nq') (f ⟨⟩) E Q) :
    Run μ (removeSeparator q l r κ >>= f) E Q := by
  have hrow' : cellsOf es nq.rightmost_child w = r₁ ++ (l, some κ) :: (r, u) :: r₂ := by rw [← hrow, Node.row, hc]
  have hput := removeSeparator_row hrow' hasc hnd
  unfold removeSeparator
  simp only [bind_assoc]
  refine run_getInternalEntries hv hc (run_setInternalEntries hv (fun _ => hov) fun hfit => ?_)
  refine run_fetchNode (Mem.set_get _ _ _) ?_
  have hrm : (nq.withCells _ hfit).rightmost_child = nq.rightmost_child := rfl
  rw [hrm]
  split
  · rw [if_pos ‹_›] at hput
    refine run_setRightmostChild (Mem.set_get _ _ _) ?_
    rw [Mem.set_set]
    exact h _ ⟨rfl, ⟨_, rfl⟩, hput⟩
  · rw [if_neg ‹_›] at hput
    exact h _ ⟨rfl, ⟨_, rfl⟩, hput⟩

/-! ### The levels above, after a step -/

/-- After a step under the page `q` of level `B`: the levels above are there, with `A'` below `B`, and only
`q` changed in them. A page that left the level holds no node any more. -/
structure Rebalanced (v : View K) (root : PageId) (d : ℕ) (B : Level K) (O : List PageId) (q : PageId) (μ' : Mem K)
    (A' : Level K) : Prop where
  same_root : μ'.root = root
  up : Up μ'.view root d B O
  inner : ∀ b ∈ B, Inner μ'.view b
  level : expand μ'.view B = A'
  parent : SameParent v μ'.view q
  above : ∀ p ∈ ids B ++ O, p ≠ q → μ'.view p = v p
  sub : (ids A').Sublist (ids (expand v B))
  gone : ∀ p ∈ ids (expand v B), p ∉ ids A' → μ'.view p = none

theorem Adjacent.rebalanced (h : Adjacent v root d B O B₁ B₂ r₁ r₂ q w nq l κ r u) (μ' : Mem K) (row : Level K)
    (hroot : μ'.root = root)
    (hvq : μ'.view q = some nq') (hre : Rerow nq nq' w row)
    (hids : (ids row).Sublist (ids (r₁ ++ (l, some κ) :: (r, u) :: r₂)))
    (hpar : ∀ p ∈ ids (expand v B), p ≠ r → SameParent v μ'.view p) (hr : r ∈ ids row → SameParent v μ'.view r)
    (hother : ∀ p ∈ ids B ++ O, p ≠ q → μ'.view p = v p)
    (hgone : ∀ p ∈ ids (r₁ ++ (l, some κ) :: (r, u) :: r₂), p ∉ ids row → μ'.view p = none) :
    Rebalanced v root d B O q μ' (expand v B₁ ++ (row ++ expand v B₂)) := by
  obtain ⟨hup, hin, hexp⟩ := h.reseat hvq hre hids.subset hpar hr hother
  refine ⟨hroot, hup, hin, hexp, fun n hn => ?_, hother, ?_, fun p hp hp' => ?_⟩
  · rw [h.parent] at hn; cases hn
    exact ⟨nq', hvq, hre.parent⟩
  · rw [h.level, ids_append, ids_append, ids_append, ids_append]
    exact (List.Sublist.refl _).append (hids.append (List.Sublist.refl _))
  · rw [h.level, ids_append, ids_append] at hp
    rw [ids_append, ids_append, List.mem_append, List.mem_append, not_or, not_or] at hp'
    exact hgone p ((List.mem_append.1 ((List.mem_append.1 hp).resolve_left hp'.1)).resolve_right hp'.2.2) hp'.2.1

/-- A node has one separator fewer than children. -/
theorem Rerow.seps_length (hre : Rerow nq nq' w row) (hvq : v q = some nq') : (seps v q).length + 1 = row.length := by
  obtain ⟨es, hc⟩ := hre.cells
  rw [seps_eq hvq hc, ← hre.row_eq, Node.row, hc]
  simp [cellsOf]

theorem Rerow.thick {c' : Cell K} (hre : Rerow nq nq' w (r₁ ++ c :: c' :: r₂)) (hvq : v q = some nq') : seps v q ≠ [] := by
  have hlen := hre.seps_length hvq
  intro hnil
  rw [hnil] at hlen
  simp at hlen
  omega

end GSDBEngine
