import GSDBEngine.Proof.Level
import Mathlib.Order.WithBot
import Mathlib.Data.Prod.Lex

/-!
# Keys in a level

The bounds of a level ascend, the last one open. A key belongs to the cell it is
below the bound of, and not below any bound before (`Loc`); `find_child_for_key`
goes to that cell of the next level (`Loc.child`).

* `sortByKey_insert`: `std::sort` on sorted entries and one more.
* `placed_row`, `placed_last`: the row of a parent after `insert_into_parent`.
-/

namespace GSDBEngine

set_option linter.unusedSectionVars false

open KeyRank BTree

variable {K L : Type} [KeyOps K] [LinearOrder L] [KeyRank K L]

theorem lt_true {a b : K} : KeyOps.lt a b = true ↔ rank a < rank b := KeyRank.lt_iff a b

theorem lt_false {a b : K} : KeyOps.lt a b = false ↔ rank b ≤ rank a := by
  rw [← Bool.not_eq_true, lt_true, not_lt]

theorem eq_true {a b : K} : KeyOps.eq a b = true ↔ rank a = rank b := KeyRank.eq_iff a b

theorem eq_false {a b : K} : KeyOps.eq a b = false ↔ rank a ≠ rank b := by
  rw [← Bool.not_eq_true, eq_true]

/-! ### `std::sort` -/

section sort

variable {α : Type} {key : α → K} {e : α}

theorem insertByKey_front {l : List α} (h : ∀ x ∈ l, rank (key e) ≤ rank (key x)) :
    insertByKey key e l = e :: l := by
  cases l with
  | nil => rfl
  | cons x xs => simp [insertByKey, lt_false.2 (h x (by simp))]

theorem insertByKey_after {x : α} {l : List α} (h : rank (key x) < rank (key e)) :
    insertByKey key e (x :: l) = x :: insertByKey key e l := by
  simp [insertByKey, lt_true.2 h]

theorem sortByKey_sorted {l : List α} (h : l.Pairwise fun a b => rank (key a) < rank (key b)) :
    sortByKey key l = l := by
  induction l with
  | nil => rfl
  | cons x xs ih =>
    obtain ⟨hx, hxs⟩ := List.pairwise_cons.1 h
    show insertByKey key x (sortByKey key xs) = x :: xs
    rw [ih hxs]
    exact insertByKey_front fun y hy => (hx y hy).le

theorem sortByKey_insert {l₁ l₂ : List α} (h : (l₁ ++ e :: l₂).Pairwise fun a b => rank (key a) < rank (key b)) :
    sortByKey key (l₁ ++ l₂ ++ [e]) = l₁ ++ e :: l₂ := by
  induction l₁ with
  | nil =>
    rw [List.nil_append] at h ⊢
    rw [List.nil_append]
    obtain ⟨he, hl⟩ := List.pairwise_cons.1 h
    -- the new entry moves to the front past each of `l₂`
    clear h
    induction l₂ with
    | nil => rfl
    | cons x xs ih =>
      obtain ⟨hx, hxs⟩ := List.pairwise_cons.1 hl
      show insertByKey key x (sortByKey key (xs ++ [e])) = e :: x :: xs
      rw [ih (fun y hy => he y (by simp [hy])) hxs, insertByKey_after (he x (by simp)),
        insertByKey_front fun y hy => (hx y hy).le]
  | cons x l₁ ih =>
    rw [List.cons_append] at h
    obtain ⟨hx, hl⟩ := List.pairwise_cons.1 h
    show insertByKey key x (sortByKey key (l₁ ++ l₂ ++ [e])) = x :: (l₁ ++ e :: l₂)
    rw [ih hl]
    exact insertByKey_front fun y hy => (hx y hy).le

end sort

/-! ### Bounds -/

/-- A bound in the order of the keys; no bound is above every key. -/
def bound (u : Option K) : WithTop L :=
  match u with
  | none => ⊤
  | some k => ↑(rank k)

@[simp] theorem bound_none : bound (none : Option K) = ⊤ := rfl

@[simp] theorem bound_some (k : K) : bound (some k) = ↑(rank k) := rfl

/-- The bounds of a level ascend. -/
def Ascending (A : Level K) : Prop := A.Pairwise fun c c' => bound c.2 < bound c'.2

/-- The bounds of a level do not descend. -/
def Rising (A : Level K) : Prop := A.Pairwise fun c c' => bound c.2 ≤ bound c'.2

/-- The cell `c` of the level `A` is the one the key `x` belongs to. -/
structure Loc (A : Level K) (x : K) (pre : Level K) (c : Cell K) (post : Level K) : Prop where
  eq : A = pre ++ c :: post
  low : ∀ a ∈ pre, bound a.2 ≤ ↑(rank x)
  high : ∀ a ∈ c :: post, ↑(rank x) < bound a.2

variable {v v' : View K} {root : PageId} {d : ℕ} {A B pre post : Level K} {O : List PageId} {b c : Cell K}
  {x κ : K}

theorem Loc.mem (h : Loc A x pre c post) : c ∈ A := by
  rw [h.eq]; simp

theorem loc_root (p : PageId) (x : K) : Loc [(p, none)] x [] (p, none) [] where
  eq := rfl
  low := by simp
  high := by simp

/-- A key belongs to one cell. -/
theorem Loc.unique {pre' post' : Level K} {c' : Cell K} (h : Loc A x pre c post) (h' : Loc A x pre' c' post') :
    pre = pre' ∧ c = c' ∧ post = post' := by
  have heq := h.eq.symm.trans h'.eq
  rcases List.append_eq_append_iff.1 heq with ⟨m, hm, hm'⟩ | ⟨m, hm, hm'⟩
  · cases m with
    | nil => simp at hm'; simp_all
    | cons y m =>
      -- `c` would be among the cells before `c'`
      obtain ⟨rfl, -⟩ := List.cons.inj hm'
      exact absurd (h.high c (by simp)) (not_lt.2 (h'.low c (by rw [hm]; simp)))
  · cases m with
    | nil => simp at hm'; simp_all
    | cons y m =>
      obtain ⟨rfl, -⟩ := List.cons.inj hm'
      exact absurd (h'.high c' (by simp)) (not_lt.2 (h.low c' (by rw [hm]; simp)))

theorem rowAt_last (hb : Inner v b) : ∃ r p, rowAt v b = r ++ [(p, b.2)] := by
  obtain ⟨-, n, es, hv, hc, -⟩ := hb
  exact ⟨_, _, rowAt_eq hv hc⟩

theorem Ascending.rising (h : Ascending A) : Rising A := h.imp le_of_lt

theorem Rising.row_le (hb : Inner v b) (h : Rising (rowAt v b)) : ∀ a ∈ rowAt v b, bound a.2 ≤ bound b.2 := by
  obtain ⟨r, p, hr⟩ := rowAt_last hb
  rw [hr] at h ⊢
  intro a ha
  rcases List.mem_append.1 ha with ha | ha
  · exact (List.pairwise_append.1 h).2.2 a ha (p, b.2) (by simp)
  · rw [List.mem_singleton.1 ha]

theorem pairwise_row {R : Cell K → Cell K → Prop} (h : (expand v B).Pairwise R) (hb : b ∈ B) : (rowAt v b).Pairwise R := by
  obtain ⟨B₁, B₂, rfl⟩ := List.append_of_mem hb
  rw [expand_append, expand_cons] at h
  exact (List.pairwise_append.1 (List.pairwise_append.1 h).2.1).1

theorem Ascending.expand_row (h : Ascending (expand v B)) (hb : b ∈ B) : Ascending (rowAt v b) := pairwise_row h hb

/-- Bounds are related on a level as on the one below: the last cell of a row has the bound of its parent. -/
theorem pairwise_above {R : Option K → Option K → Prop} (hin : ∀ b ∈ B, Inner v b)
    (h : (expand v B).Pairwise fun c c' => R c.2 c'.2) : B.Pairwise fun c c' => R c.2 c'.2 := by
  induction B with
  | nil => exact List.Pairwise.nil
  | cons b B ih =>
    rw [expand_cons] at h
    obtain ⟨-, hB, hcross⟩ := List.pairwise_append.1 h
    refine List.pairwise_cons.2 ⟨fun b' hb' => ?_, ih (fun b hb => hin b (by simp [hb])) hB⟩
    obtain ⟨r, p, hr⟩ := rowAt_last (hin b (by simp))
    obtain ⟨r', p', hr'⟩ := rowAt_last (hin b' (by simp [hb']))
    exact hcross (p, b.2) (by rw [hr]; simp) (p', b'.2) (mem_expand.2 ⟨b', hb', by rw [hr']; simp⟩)

theorem Ascending.of_expand (hin : ∀ b ∈ B, Inner v b) (h : Ascending (expand v B)) : Ascending B :=
  pairwise_above (R := fun u u' => bound u < bound u') hin h

theorem Rising.of_expand (hin : ∀ b ∈ B, Inner v b) (h : Rising (expand v B)) : Rising B :=
  pairwise_above (R := fun u u' => bound u ≤ bound u') hin h

theorem find_row (es : List (InternalEntry K)) (rm : PageId) {w : Option K} (hw : ↑(rank x) < bound w) :
    ∃ r₁ u r₂, cellsOf es rm w = r₁ ++ (findChildForKey es rm x, u) :: r₂ ∧
      (∀ a ∈ r₁, bound a.2 ≤ ↑(rank x)) ∧ ↑(rank x) < bound u := by
  induction es with
  | nil => exact ⟨[], w, [], rfl, by simp, hw⟩
  | cons e es ih =>
    cases hlt : KeyOps.lt x e.key with
    | true =>
      refine ⟨[], some e.key, cellsOf es rm w, ?_, by simp, ?_⟩
      · simp [cellsOf, findChildForKey, hlt]
      · simpa using lt_true.1 hlt
    | false =>
      obtain ⟨r₁, u, r₂, hr, hlow, hhigh⟩ := ih
      refine ⟨(e.child_page_id, some e.key) :: r₁, u, r₂, ?_, ?_, hhigh⟩
      · have hf : findChildForKey (e :: es) rm x = findChildForKey es rm x := by
          simp [findChildForKey, hlt]
        rw [hf, List.cons_append, ← hr]; rfl
      · intro a ha
        rcases List.mem_cons.1 ha with rfl | ha
        · simpa using lt_false.1 hlt
        · exact hlow a ha

/-- **The descent is right**: the child chosen for `x` is the cell of `x` one level down. -/
theorem Loc.child (hasc : Rising (expand v B)) (hin : ∀ b ∈ B, Inner v b) (h : Loc B x pre b post)
    {n : Node K} {es : List (InternalEntry K)} (hv : v b.1 = some n) (hc : n.cells = .internal es) :
    ∃ pre' u post', Loc (expand v B) x pre' (findChildForKey es n.rightmost_child x, u) post' ∧
      (findChildForKey es n.rightmost_child x, u) ∈ rowAt v b := by
  obtain ⟨r₁, u, r₂, hr, hlow, hhigh⟩ := find_row es n.rightmost_child (h.high b (by simp))
  rw [← rowAt_eq hv hc] at hr
  have heq : expand v B = (expand v pre ++ r₁) ++ (findChildForKey es n.rightmost_child x, u) ::
      (r₂ ++ expand v post) := by
    rw [h.eq, expand_append, expand_cons, hr]; simp
  refine ⟨_, u, _, ⟨heq, fun a ha => ?_, fun a ha => ?_⟩, by rw [hr]; simp⟩
  · rcases List.mem_append.1 ha with ha | ha
    · obtain ⟨b', hb', hab⟩ := mem_expand.1 ha
      have hbB : b' ∈ B := by rw [h.eq]; simp [hb']
      exact (Rising.row_le (hin b' hbB) (pairwise_row hasc hbB) a hab).trans (h.low b' hb')
    · exact hlow a ha
  · rcases List.mem_cons.1 ha with rfl | ha
    · exact hhigh
    · rw [heq] at hasc
      exact hhigh.trans_le ((List.pairwise_cons.1 (List.pairwise_append.1 hasc).2.1).1 a ha)

theorem Loc.in_row (hasc : Rising (expand v B)) (hin : ∀ b ∈ B, Inner v b) (hb : Loc B x pre b post)
    {pre' post' : Level K} (h : Loc (expand v B) x pre' c post') : c ∈ rowAt v b := by
  obtain ⟨-, n, es, hv, hc, -⟩ := hin b (by rw [hb.eq]; simp)
  obtain ⟨_, u, _, hloc, hmem⟩ := hb.child hasc hin hv hc
  rwa [(h.unique hloc).2.1]

/-- Back up: the parent's cell is the one of `x` in the level above. -/
theorem Loc.parent (hin : ∀ b ∈ B, Inner v b) (h : Loc (expand v B) x pre c post) :
    ∃ B₁ b B₂ r₁ r₂, Loc B x B₁ b B₂ ∧ rowAt v b = r₁ ++ c :: r₂ ∧ pre = expand v B₁ ++ r₁ ∧
      post = r₂ ++ expand v B₂ := by
  obtain ⟨B₁, b, B₂, r₁, r₂, rfl, hr, rfl, rfl⟩ := expand_eq_append_cons h.eq
  refine ⟨B₁, b, B₂, r₁, r₂, ⟨rfl, fun a ha => ?_, fun a ha => ?_⟩, hr, rfl, rfl⟩
  · obtain ⟨r, p, hl⟩ := rowAt_last (hin a (by simp [ha]))
    exact h.low (p, a.2) (List.mem_append_left _ (mem_expand.2 ⟨a, ha, by rw [hl]; simp⟩))
  · obtain ⟨r, p, hl⟩ := rowAt_last (hin a (List.mem_append_right _ ha))
    refine h.high (p, a.2) ?_
    rcases List.mem_cons.1 ha with rfl | ha
    · -- the last cell of the row is `c` or after it
      have hmem : (p, a.2) ∈ c :: r₂ := by
        rw [hr] at hl
        rcases List.append_eq_append_iff.1 hl with ⟨m, -, hm⟩ | ⟨m, -, hm⟩
        · have : (p, a.2) ∈ [(p, a.2)] := by simp
          rw [hm]; simp
        · cases m with
          | nil => simp at hm; simp [hm]
          | cons y m => simp at hm
      rcases List.mem_cons.1 hmem with h1 | h1
      · rw [h1]; simp
      · exact List.mem_cons_of_mem _ (List.mem_append_left _ h1)
    · exact List.mem_cons_of_mem _ (List.mem_append_right _ (mem_expand.2 ⟨a, ha, by rw [hl]; simp⟩))

/-! ### A separator placed -/

section placed

variable {es : List (InternalEntry K)} {rm l r : PageId} {u w : Option K} {r₁ r₂ : Level K}

/-- A cell of a row is the rightmost child, or an entry. -/
theorem cellsOf_eq_append_cons : ∀ {es : List (InternalEntry K)} {r₁ : Level K},
    cellsOf es rm w = r₁ ++ (l, u) :: r₂ →
      (r₂ = [] ∧ l = rm ∧ u = w ∧ r₁ = es.map fun e => (e.child_page_id, some e.key)) ∨
      ∃ es₁ k es₂, es = es₁ ++ ⟨k, l⟩ :: es₂ ∧ u = some k ∧
        r₁ = es₁.map (fun e => (e.child_page_id, some e.key)) ∧ r₂ = cellsOf es₂ rm w := by
  intro es
  induction es with
  | nil =>
    intro r₁ h
    cases r₁ with
    | nil => simp [cellsOf] at h; simp [h]
    | cons a r₁ => simp [cellsOf] at h
  | cons e es ih =>
    intro r₁ h
    cases r₁ with
    | nil =>
      obtain ⟨h1, h2⟩ := List.cons.inj (show (e.child_page_id, some e.key) :: cellsOf es rm w = _ from h)
      obtain ⟨rfl, rfl⟩ := Prod.mk.inj h1
      exact Or.inr ⟨[], e.key, es, rfl, rfl, rfl, h2.symm⟩
    | cons a r₁ =>
      obtain ⟨rfl, h2⟩ := List.cons.inj (show (e.child_page_id, some e.key) :: cellsOf es rm w = _ from h)
      rcases ih h2 with ⟨h3, h4, h5, h6⟩ | ⟨es₁, k, es₂, rfl, h4, h5, h6⟩
      · exact Or.inl ⟨h3, h4, h5, by rw [h6]; rfl⟩
      · exact Or.inr ⟨e :: es₁, k, es₂, rfl, h4, by rw [h5]; rfl, h6⟩

theorem ascending_entries (h : Ascending (es.map fun e => (e.child_page_id, some e.key))) :
    es.Pairwise fun e e' => rank e.key < rank e'.key := by
  refine (List.pairwise_map.1 h).imp fun {e e'} he => ?_
  simpa using he

theorem findIdx_placed {es₁ es₂ : List (InternalEntry K)} {e : InternalEntry K}
    (h : ∀ e' ∈ es₁, rank e'.key < rank e.key) :
    (es₁ ++ e :: es₂).findIdx (fun e' => KeyOps.eq e'.key e.key) = es₁.length := by
  induction es₁ with
  | nil => simp [List.findIdx_cons, eq_true.2 rfl]
  | cons e' es₁ ih =>
    have hne : KeyOps.eq e'.key e.key = false := eq_false.2 (h e' (by simp)).ne
    simp [List.findIdx_cons, hne, ih fun e'' he => h e'' (by simp [he])]

theorem modify_placed {es₁ es₂ : List (InternalEntry K)} {e e' : InternalEntry K}
    (f : InternalEntry K → InternalEntry K) :
    (es₁ ++ e :: e' :: es₂).modify (es₁.length + 1) f = es₁ ++ e :: f e' :: es₂ := by
  induction es₁ with
  | nil => rfl
  | cons x es₁ ih => simp [ih]

/-- **`insert_into_parent` puts the new child in its place**: `l` keeps the keys below the separator,
`r` comes after it under the old bound. -/
theorem placed_row (hrow : cellsOf es rm w = r₁ ++ (l, u) :: r₂)
    (hasc : Ascending (r₁ ++ (l, some κ) :: (r, u) :: r₂)) :
    let entries := sortByKey InternalEntry.key (es ++ [⟨κ, l⟩])
    let idx := entries.findIdx fun e => KeyOps.eq e.key κ
    (idx + 1 < entries.length ∧
      cellsOf (entries.modify (idx + 1) fun e => { e with child_page_id := r }) rm w =
        r₁ ++ (l, some κ) :: (r, u) :: r₂) ∨
    (¬ idx + 1 < entries.length ∧ cellsOf entries r w = r₁ ++ (l, some κ) :: (r, u) :: r₂) := by
  intro entries idx
  rcases cellsOf_eq_append_cons hrow with ⟨rfl, rfl, rfl, rfl⟩ | ⟨es₁, k, es₂, rfl, rfl, rfl, rfl⟩
  · -- `l` was the rightmost child
    have hsorted : List.Pairwise (fun e e' : InternalEntry K => rank e.key < rank e'.key) (es ++ [⟨κ, l⟩]) := by
      refine ascending_entries ?_
      rw [List.map_append, List.map_cons, List.map_nil]
      exact hasc.sublist (by simp)
    have hent : entries = es ++ [⟨κ, l⟩] := sortByKey_sorted hsorted
    have hidx : idx = es.length := by
      show entries.findIdx _ = _
      rw [hent]
      exact findIdx_placed fun e he => (List.pairwise_append.1 hsorted).2.2 e he ⟨κ, l⟩ (by simp)
    refine Or.inr ⟨by rw [hidx, hent]; simp, ?_⟩
    rw [hent]; simp [cellsOf]
  · -- the order is one of keys alone, so it does not matter which child is beside `k`
    have hmap : List.Pairwise (fun a b : K => rank a < rank b)
        ((es₁ ++ ⟨κ, l⟩ :: ⟨k, r⟩ :: es₂).map InternalEntry.key) := by
      rw [List.pairwise_map]
      refine ascending_entries ?_
      simp only [List.map_append, List.map_cons]
      exact hasc.sublist (by simp [cellsOf])
    have hmap' : List.Pairwise (fun a b : K => rank a < rank b)
        ((es₁ ++ ⟨κ, l⟩ :: ⟨k, l⟩ :: es₂).map InternalEntry.key) := by simpa using hmap
    have hsorted : List.Pairwise (fun e e' : InternalEntry K => rank e.key < rank e'.key)
        (es₁ ++ ⟨κ, l⟩ :: ⟨k, l⟩ :: es₂) := (List.pairwise_map.1 hmap' :)
    have hent : entries = es₁ ++ ⟨κ, l⟩ :: ⟨k, l⟩ :: es₂ := sortByKey_insert hsorted
    have hidx : idx = es₁.length := by
      show entries.findIdx _ = _
      rw [hent]
      exact findIdx_placed fun e he => (List.pairwise_append.1 hsorted).2.2 e he ⟨κ, l⟩ (by simp)
    refine Or.inl ⟨by rw [hidx, hent]; simp, ?_⟩
    rw [hidx, hent, modify_placed]
    simp [cellsOf]

end placed

end GSDBEngine
