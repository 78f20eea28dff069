import GSDBEngine.Proof.Memory
import Mathlib.Order.WithBot
import Mathlib.Data.List.Nodup

/-!
# The levels of a tree

A level of the tree, left to right, is a list of cells: a page and the bound below
which its keys lie (`none` for the last page of the level). The cells of the children
of a level are one more level (`expand`), and `Up v root d A O` says that `A` is the
level `d` steps below the root, `O` the pages of the levels above, with every parent
field in place.

* `Up.congr`: what of the nodes the levels depend on.
* `Up.under`: the level above, for a page whose parent field names one.
-/

namespace GSDBEngine

set_option linter.unusedSectionVars false

variable {K : Type} [KeyOps K]

/-- A page of a level, and the bound of its keys. -/
abbrev Cell (K : Type) := PageId × Option K

abbrev Level (K : Type) := List (Cell K)

def ids (A : Level K) : List PageId := A.map Prod.fst

/-- The cells of the children of a node, the last one under the node's own bound. -/
def cellsOf (es : List (InternalEntry K)) (rightmost : PageId) (upper : Option K) : Level K :=
  es.map (fun e => (e.child_page_id, some e.key)) ++ [(rightmost, upper)]

def Node.row (n : Node K) (upper : Option K) : Level K :=
  match n.cells with
  | .internal es => cellsOf es n.rightmost_child upper
  | .leaf _ => []

def rowAt (v : View K) (b : Cell K) : Level K := ((v b.1).map fun n => n.row b.2).getD []

/-- The level below. -/
def expand (v : View K) (B : Level K) : Level K := B.flatMap (rowAt v)

section lists

variable {A A' B B' : Level K} {c : Cell K} {v v' : View K}

@[simp] theorem ids_nil : ids ([] : Level K) = [] := rfl

@[simp] theorem ids_cons : ids (c :: A) = c.1 :: ids A := rfl

@[simp] theorem ids_append : ids (A ++ A') = ids A ++ ids A' := List.map_append

theorem mem_ids {p : PageId} : p ∈ ids A ↔ ∃ u, (p, u) ∈ A := by
  simp [ids]

theorem mem_ids_of_mem (h : c ∈ A) : c.1 ∈ ids A := List.mem_map_of_mem h

@[simp] theorem expand_nil : expand v ([] : Level K) = [] := rfl

@[simp] theorem expand_cons : expand v (c :: B) = rowAt v c ++ expand v B := rfl

@[simp] theorem expand_append : expand v (B ++ B') = expand v B ++ expand v B' := List.flatMap_append

theorem rowAt_eq {n : Node K} {es : List (InternalEntry K)} (hv : v c.1 = some n) (hc : n.cells = .internal es) :
    rowAt v c = cellsOf es n.rightmost_child c.2 := by
  simp [rowAt, hv, Node.row, hc]

theorem mem_expand {a : Cell K} : a ∈ expand v B ↔ ∃ b ∈ B, a ∈ rowAt v b := by
  simp [expand, List.mem_flatMap]

theorem expand_congr (h : ∀ b ∈ B, rowAt v' b = rowAt v b) : expand v' B = expand v B := by
  induction B with
  | nil => rfl
  | cons b B ih =>
    rw [expand_cons, expand_cons, h b (by simp), ih fun b hb => h b (by simp [hb])]

/-- Where a cell of the level below comes from. -/
theorem expand_eq_append_cons : ∀ {B pre post : Level K} {a : Cell K}, expand v B = pre ++ a :: post →
    ∃ B₁ b B₂ r₁ r₂, B = B₁ ++ b :: B₂ ∧ rowAt v b = r₁ ++ a :: r₂ ∧ pre = expand v B₁ ++ r₁ ∧
      post = r₂ ++ expand v B₂ := by
  intro B
  induction B with
  | nil => intro pre post a h; simp at h
  | cons b B ih =>
    intro pre post a h
    rw [expand_cons] at h
    rcases List.append_eq_append_iff.1 h with ⟨m, hpre, hB⟩ | ⟨m, hrow, hpost⟩
    · obtain ⟨B₁, b', B₂, r₁, r₂, rfl, hr, rfl, rfl⟩ := ih hB
      exact ⟨b :: B₁, b', B₂, r₁, r₂, rfl, hr, by rw [hpre, expand_cons, List.append_assoc], rfl⟩
    · cases m with
      | nil =>
        rw [List.nil_append] at hpost
        obtain ⟨B₁, b', B₂, r₁, r₂, rfl, hr, hp, rfl⟩ := ih (show expand v B = [] ++ a :: post from hpost.symm)
        have hnil := List.append_eq_nil_iff.1 hp.symm
        refine ⟨b :: B₁, b', B₂, r₁, r₂, rfl, hr, ?_, rfl⟩
        rw [expand_cons, hnil.1, hnil.2, hrow]; simp
      | cons x m =>
        rw [List.cons_append] at hpost
        obtain ⟨rfl, rfl⟩ := List.cons.inj hpost
        exact ⟨[], b, B, pre, m, rfl, hrow, rfl, rfl⟩

end lists

/-! ### Parent fields -/

/-- `b` is an internal node, and its children say so. -/
def Inner (v : View K) (b : Cell K) : Prop :=
  b.1 ≠ INVALID_PAGE ∧ ∃ n es, v b.1 = some n ∧ n.cells = .internal es ∧
    ∀ c ∈ cellsOf es n.rightmost_child b.2, ∃ m, v c.1 = some m ∧ m.parent_page = b.1

/-- `A` is the level `d` below the root, `O` the pages above it. -/
inductive Up (v : View K) (root : PageId) : ℕ → Level K → List PageId → Prop
  | root {n : Node K} : v root = some n → n.parent_page = INVALID_PAGE → Up v root 0 [(root, none)] []
  | down {d : ℕ} {B : Level K} {O : List PageId} : Up v root d B O → (∀ b ∈ B, Inner v b) →
      Up v root (d + 1) (expand v B) (ids B ++ O)

/-- The same cells and rightmost child. -/
def SameRow (v v' : View K) (p : PageId) : Prop :=
  ∀ n, v p = some n → ∃ n', v' p = some n' ∧ n'.cells = n.cells ∧ n'.rightmost_child = n.rightmost_child

def SameParent (v v' : View K) (p : PageId) : Prop :=
  ∀ n, v p = some n → ∃ n', v' p = some n' ∧ n'.parent_page = n.parent_page

variable {v v' : View K} {root : PageId} {d : ℕ} {A B : Level K} {O : List PageId} {p q : PageId}

theorem sameRow_of_eq (h : v' p = v p) : SameRow v v' p := fun n hn => ⟨n, h.trans hn, rfl, rfl⟩

theorem sameParent_of_eq (h : v' p = v p) : SameParent v v' p := fun n hn => ⟨n, h.trans hn, rfl⟩

theorem rowAt_sameRow {b : Cell K} {n : Node K} (hv : v b.1 = some n) (h : SameRow v v' b.1) :
    rowAt v' b = rowAt v b := by
  obtain ⟨n', hv', hc, hr⟩ := h n hv
  simp [rowAt, hv, hv', Node.row, hc, hr]

theorem Inner.congr {b : Cell K} (h : Inner v b) (hb : SameRow v v' b.1)
    (hc : ∀ c ∈ rowAt v b, SameParent v v' c.1) : Inner v' b := by
  obtain ⟨hne, n, es, hv, hcells, hch⟩ := h
  obtain ⟨n', hv', hc', hr'⟩ := hb n hv
  refine ⟨hne, n', es, hv', hc'.trans hcells, fun c hcm => ?_⟩
  rw [hr'] at hcm
  obtain ⟨m, hm, hpar⟩ := hch c hcm
  obtain ⟨m', hm', hpar'⟩ := hc c (by rwa [rowAt_eq hv hcells]) m hm
  exact ⟨m', hm', hpar'.trans hpar⟩

theorem Up.congr (h : Up v root d A O) (hO : ∀ p ∈ O, SameRow v v' p)
    (hA : ∀ p ∈ ids A ++ O, SameParent v v' p) : Up v' root d A O := by
  induction h with
  | root hv hpar =>
    obtain ⟨n', hv', hp'⟩ := hA root (by simp) _ hv
    exact .root hv' (hp'.trans hpar)
  | @down d B O hB hin ih =>
    have hrow : ∀ b ∈ B, SameRow v v' b.1 := fun b hb =>
      hO _ (List.mem_append_left _ (mem_ids_of_mem hb))
    have hexp : expand v' B = expand v B := expand_congr fun b hb => by
      obtain ⟨-, n, es, hv, -⟩ := hin b hb
      exact rowAt_sameRow hv (hrow b hb)
    rw [← hexp]
    refine .down (ih (fun p hp => hO p (List.mem_append_right _ hp))
      (fun p hp => hA p (List.mem_append_right _ hp))) fun b hb => ?_
    refine (hin b hb).congr (hrow b hb) fun c hc => hA _ (List.mem_append_left _ ?_)
    exact mem_ids_of_mem (mem_expand.2 ⟨b, hb, hc⟩)

theorem Up.alive (h : Up v root d A O) {c : Cell K} (hc : c ∈ A) : ∃ n, v c.1 = some n := by
  cases h with
  | root hv _ => rw [List.mem_singleton.1 hc]; exact ⟨_, hv⟩
  | down hB hin =>
    obtain ⟨b, hb, hcb⟩ := mem_expand.1 hc
    obtain ⟨-, n, es, hv, hcells, hch⟩ := hin b hb
    rw [rowAt_eq hv hcells] at hcb
    obtain ⟨m, hm, -⟩ := hch c hcb
    exact ⟨m, hm⟩

theorem Up.above (h : Up v root d A O) : ∀ p ∈ O, ∃ n es, v p = some n ∧ n.cells = .internal es := by
  induction h with
  | root => intro p hp; cases hp
  | @down d B O hB hin ih =>
    intro p hp
    rcases List.mem_append.1 hp with hp | hp
    · obtain ⟨u, hu⟩ := mem_ids.1 hp
      obtain ⟨-, n, es, hv, hc, -⟩ := hin _ hu
      exact ⟨n, es, hv, hc⟩
    · exact ih p hp

/-- Every page of a level or above holds a node. -/
theorem Up.alive_ids (h : Up v root d A O) (hp : p ∈ ids A ++ O) : ∃ n, v p = some n := by
  rcases List.mem_append.1 hp with hp | hp
  · obtain ⟨u, hu⟩ := mem_ids.1 hp
    exact h.alive hu
  · obtain ⟨n, es, hv, -⟩ := h.above p hp
    exact ⟨n, hv⟩

/-- The level above, for a cell whose parent field names a page. -/
theorem Up.under (h : Up v root d A O) {l : PageId} {u : Option K} (hl : (l, u) ∈ A) {n : Node K} (hv : v l = some n)
    (hpar : n.parent_page ≠ INVALID_PAGE) :
    ∃ d' B O', d = d' + 1 ∧ Up v root d' B O' ∧ (∀ b ∈ B, Inner v b) ∧ A = expand v B ∧ O = ids B ++ O' := by
  cases h with
  | root hv' hp =>
    obtain ⟨rfl, -⟩ := Prod.mk.inj (List.mem_singleton.1 hl)
    rw [hv'] at hv
    cases hv
    exact absurd hp hpar
  | down hB hin => exact ⟨_, _, _, rfl, hB, hin, rfl, rfl⟩

/-- A cell is in the row of one parent. -/
theorem parent_unique {b b' c : Cell K} (hin : ∀ b ∈ B, Inner v b) (hnd : (ids B).Nodup) (hb : b ∈ B) (hb' : b' ∈ B)
    (hc : c ∈ rowAt v b) (hc' : c ∈ rowAt v b') : b = b' := by
  obtain ⟨-, n, es, hv, hcells, hch⟩ := hin b hb
  obtain ⟨-, n', es', hv', hcells', hch'⟩ := hin b' hb'
  rw [rowAt_eq hv hcells] at hc
  rw [rowAt_eq hv' hcells'] at hc'
  obtain ⟨m, hm, hmp⟩ := hch c hc
  obtain ⟨m', hm', hmp'⟩ := hch' c hc'
  rw [hm] at hm'; cases hm'
  exact List.inj_on_of_nodup_map hnd hb hb' (hmp.symm.trans hmp')

end GSDBEngine
