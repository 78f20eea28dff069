import GSDBEngine.Spec.Shape
import GSDBEngine.Lib.Eff

/-!
# The memory under a tree, abstractly

What a tree method can tell apart of a store: which pages hold which nodes, the
root, and the free list as a list of pages (`Mem`). `Holds s μ` relates the two, and
`Run μ m E Q` is the weakest precondition over it: one rule for each primitive of the
source, by which the methods are walked.

* `run_bind`, `run_fetchNode`, `run_setParentPage`, …: the rules.
* `run_allocNode`: a page allocated and initialised is one that held no node.
-/

namespace GSDBEngine

open Eff

variable {K : Type} [KeyOps K] {α β : Type}

/-- The nodes, the root and the free pages. -/
structure Mem (K : Type) [KeyOps K] where
  view : View K
  root : PageId
  free : List PageId

/-- The store `s` is the memory `μ`. -/
structure Holds (s : Store K) (μ : Mem K) : Prop where
  view : s.view = μ.view
  root : s.root_page = μ.root
  chain : FreeChain s.page s.total_pages s.header.first_free_page μ.free
  nodup : μ.free.Nodup
  /-- every free page is in the list -/
  listed : ∀ p, p < s.total_pages → ∀ next under, s.page p = .free next under → p ∈ μ.free
  pages : s.total_pages ≤ INVALID_PAGE

variable {μ : Mem K} {s : Store K}

theorem view_some {p : PageId} {n : Node K} : s.view p = some n ↔ p < s.total_pages ∧ s.page p = .node n := by
  unfold Store.view
  by_cases hp : p < s.total_pages
  · cases s.page p <;> simp [hp]
  · simp [hp]

theorem Holds.node (h : Holds s μ) {p : PageId} {n : Node K} (hv : μ.view p = some n) :
    p < s.total_pages ∧ s.page p = .node n := by
  rw [← h.view] at hv
  exact view_some.1 hv

theorem Holds.ne_invalid (h : Holds s μ) {p : PageId} {n : Node K} (hv : μ.view p = some n) :
    p ≠ INVALID_PAGE :=
  Nat.ne_of_lt (Nat.lt_of_lt_of_le (h.node hv).1 h.pages)

section chain

variable {page page' : PageId → Page K} {total total' : ℕ}

theorem freeChain_congr (htot : total ≤ total') : ∀ {F : List PageId} {head : PageId},
    (∀ p ∈ F, page' p = page p) → FreeChain page total head F → FreeChain page' total' head F := by
  intro F
  induction F with
  | nil => intro head _ h; exact h
  | cons p ps ih =>
    rintro head hpg ⟨rfl, hp, hne, next, under, hpage, hrest⟩
    refine ⟨rfl, Nat.lt_of_lt_of_le hp htot, hne, next, under, ?_, ih (fun q hq => hpg q (by simp [hq])) hrest⟩
    rw [hpg head (by simp)]; exact hpage

theorem freeChain_free {F : List PageId} : ∀ {head : PageId}, FreeChain page total head F →
    ∀ p ∈ F, p < total ∧ ∃ next under, page p = .free next under := by
  induction F with
  | nil => intro head _ p hp; cases hp
  | cons q qs ih =>
    rintro head ⟨rfl, hlt, -, next, under, hpage, hrest⟩ p hp
    rcases List.mem_cons.1 hp with rfl | hp
    · exact ⟨hlt, next, under, hpage⟩
    · exact ih hrest p hp

end chain

/-- A page with a node is not free. -/
theorem Holds.not_free (h : Holds s μ) {p : PageId} {n : Node K} (hv : μ.view p = some n) : p ∉ μ.free := by
  intro hp
  obtain ⟨-, next, under, hpage⟩ := freeChain_free h.chain p hp
  rw [(h.node hv).2] at hpage
  cases hpage

/-- The memory with the node `n` on page `p`. -/
def Mem.set (μ : Mem K) (p : PageId) (n : Node K) : Mem K :=
  { μ with view := Function.update μ.view p (some n) }

section set
variable (μ : Mem K) (p q : PageId) (n : Node K)

@[simp] theorem Mem.set_view : (μ.set p n).view = Function.update μ.view p (some n) := rfl

@[simp] theorem Mem.set_root : (μ.set p n).root = μ.root := rfl

@[simp] theorem Mem.set_free : (μ.set p n).free = μ.free := rfl

theorem Mem.set_get : (μ.set p n).view p = some n := Function.update_self ..

@[simp] theorem Mem.set_set (n' : Node K) : (μ.set p n).set p n' = μ.set p n' := by
  simp [Mem.set]

variable {p q} in
theorem Mem.set_comm (h : p ≠ q) (n' : Node K) : (μ.set p n).set q n' = (μ.set q n').set p n := by
  simp only [Mem.set, Function.update_comm h]

end set

theorem view_setNode {p : PageId} (hp : p < s.total_pages) (n : Node K) :
    (s.setPage p (.node n)).view = Function.update s.view p (some n) := by
  funext q
  by_cases hq : q = p
  · subst hq; simp [Store.view, hp]
  · simp [Store.view, Function.update_of_ne hq]

/-- A page that becomes a node, where all the other free pages are listed. -/
theorem holds_set (hv : s.view = μ.view) (hroot : s.root_page = μ.root)
    (hchain : FreeChain s.page s.total_pages s.header.first_free_page μ.free) (hnd : μ.free.Nodup) {p : PageId}
    (hlisted : ∀ q, q < s.total_pages → q ≠ p → ∀ next under, s.page q = .free next under → q ∈ μ.free)
    (hpages : s.total_pages ≤ INVALID_PAGE) (hlt : p < s.total_pages) (hp : p ∉ μ.free) (n : Node K) :
    Holds (s.setPage p (.node n)) (μ.set p n) where
  view := by rw [view_setNode hlt, hv]; rfl
  root := hroot
  chain := freeChain_congr (le_refl _) (fun _ hq => Function.update_of_ne (ne_of_mem_of_not_mem hq hp) _ _) hchain
  nodup := hnd
  listed q hq next under hpage := by
    by_cases hqp : q = p
    · rw [hqp, Store.setPage_page, Function.update_self] at hpage; cases hpage
    · rw [Store.setPage_page, Function.update_of_ne hqp] at hpage
      exact hlisted q hq hqp next under hpage
  pages := hpages

theorem Holds.set (h : Holds s μ) {p : PageId} (hlt : p < s.total_pages) (hp : p ∉ μ.free) (n : Node K) :
    Holds (s.setPage p (.node n)) (μ.set p n) :=
  holds_set h.view h.root h.chain h.nodup (fun q hq _ => h.listed q hq) h.pages hlt hp n

/-- The log is not part of the memory. -/
theorem Holds.logged (h : Holds s μ) (txn : ℕ) (p : PageId) (image : Page K) : Holds (s.logged txn p image) μ where
  view := h.view
  root := h.root
  chain := h.chain
  nodup := h.nodup
  listed := h.listed
  pages := h.pages

/-- A page that is a node or becomes one is not fixed before or after. -/
theorem fixed_setNode {p : PageId} {n : Node K} (hp : ¬ s.fixed p) : (s.setPage p (.node n)).fixed = s.fixed := by
  funext q
  by_cases hq : q = p
  · subst hq
    simp [hp]
    simp [Store.fixed]
  · simp [Store.fixed, Function.update_of_ne hq]

theorem Holds.not_fixed (h : Holds s μ) {p : PageId} {n : Node K} (hv : μ.view p = some n) : ¬ s.fixed p := fun hf =>
  hf.2.1 n (h.node hv).2

/-! ### Rules -/

/-- From memory `μ`, `m` throws only errors in `E`, and returns values and memories in `Q`; the fixed pages stay. -/
def Run (μ : Mem K) (m : M K α) (E : Err K → Prop) (Q : α → Mem K → Prop) : Prop :=
  ∀ s, Holds s μ → wp m (fun e _ => E e) (fun a s' => ∃ μ', Holds s' μ' ∧ s'.fixed = s.fixed ∧ Q a μ') s

variable {E E' : Err K → Prop} {Q Q' : α → Mem K → Prop} {R : β → Mem K → Prop}

theorem run_bind {m : M K β} {f : β → M K α} (hm : Run μ m E R)
    (hf : ∀ b μ', R b μ' → Run μ' (f b) E Q) : Run μ (m >>= f) E Q := by
  intro s hs
  rw [wp_bind]
  refine wp_post (hm s hs) fun b s' hb => ?_
  obtain ⟨μ', hs', hfix, hR⟩ := hb
  rw [← hfix]
  exact hf b μ' hR s' hs'

theorem run_pure {a : α} (h : Q a μ) : Run μ (pure a) E Q := fun _ hs => ⟨μ, hs, rfl, h⟩

theorem run_throw {e : Err K} (h : E e) : Run μ (throw e : M K α) E Q := fun _ _ => h

theorem run_mono {m : M K α} (hm : Run μ m E Q) (hQ : ∀ a μ', Q a μ' → Q' a μ') : Run μ m E Q' := by
  intro s hs
  refine wp_post (hm s hs) fun a s' ha => ?_
  obtain ⟨μ', hs', hfix, h⟩ := ha
  exact ⟨μ', hs', hfix, hQ a μ' h⟩

theorem run_ite {c : Prop} [Decidable c] {m m' : M K α} (h : c → Run μ m E Q) (h' : ¬ c → Run μ m' E Q) :
    Run μ (if c then m else m') E Q := by
  split
  · exact h ‹_›
  · exact h' ‹_›

/-- A call in last place, by the rule for a call before another. -/
theorem run_last {m : M K PUnit} {Q : PUnit → Mem K → Prop} (h : Run μ (m >>= fun _ => pure ⟨⟩) E Q) :
    Run μ m E Q := by
  rwa [bind_pure] at h

/-- What a method reads of the state is the memory. -/
theorem run_get {f : Store K → M K α} (h : ∀ s, Holds s μ → Run μ (f s) E Q) : Run μ (get >>= f) E Q := by
  intro s hs
  rw [wp_bind, wp_get]
  exact h s hs s hs

section node

variable {p : PageId} {n : Node K}

theorem run_fetchNode {f : Node K → M K α} (hv : μ.view p = some n) (h : Run μ (f n) E Q) :
    Run μ (fetchNode p >>= f) E Q := by
  intro s hs
  obtain ⟨hlt, hpage⟩ := hs.node hv
  have hf : wp (fetchNode p) (fun e _ => E e) (fun n' s' => n' = n ∧ s' = s) s := by
    unfold fetchNode fetchPage
    simp only [wp_bind, wp_get, hlt, if_true, wp_pure, hpage, and_self]
  rw [wp_bind]
  refine wp_post hf ?_
  rintro _ _ ⟨rfl, rfl⟩
  exact h _ hs

theorem run_storeNode {f : PUnit → M K α} {n₀ : Node K} (hv : μ.view p = some n₀)
    (h : Run (μ.set p n) (f ⟨⟩) E Q) : Run μ (storeNode p n >>= f) E Q := by
  intro s hs
  rw [wp_bind, ← fixed_setNode (n := n) (hs.not_fixed hv)]
  exact h _ (hs.set (hs.node hv).1 (hs.not_free hv) n)

theorem run_setParentPage {f : PUnit → M K α} {parent : PageId} (hv : μ.view p = some n)
    (h : Run (μ.set p { n with parent_page := parent }) (f ⟨⟩) E Q) :
    Run μ (setParentPage p parent >>= f) E Q := by
  unfold setParentPage
  rw [bind_assoc]
  exact run_fetchNode hv (run_storeNode hv h)

theorem run_setNextLeaf {f : PUnit → M K α} {next : PageId} (hv : μ.view p = some n)
    (h : Run (μ.set p { n with next_leaf := next }) (f ⟨⟩) E Q) : Run μ (setNextLeaf p next >>= f) E Q := by
  unfold setNextLeaf
  rw [bind_assoc]
  exact run_fetchNode hv (run_storeNode hv h)

theorem run_setRightmostChild {f : PUnit → M K α} {child : PageId} (hv : μ.view p = some n)
    (h : Run (μ.set p { n with rightmost_child := child }) (f ⟨⟩) E Q) :
    Run μ (setRightmostChild p child >>= f) E Q := by
  unfold setRightmostChild
  rw [bind_assoc]
  exact run_fetchNode hv (run_storeNode hv h)

theorem run_leafEntries {f : List (LeafEntry K) → M K α} {es : List (LeafEntry K)} (hc : n.cells = .leaf es)
    (h : Run μ (f es) E Q) : Run μ (n.leafEntries >>= f) E Q := by
  unfold Node.leafEntries
  rw [hc]
  exact h

theorem run_internalEntries {f : List (InternalEntry K) → M K α} {es : List (InternalEntry K)}
    (hc : n.cells = .internal es) (h : Run μ (f es) E Q) : Run μ (n.internalEntries >>= f) E Q := by
  unfold Node.internalEntries
  rw [hc]
  exact h

theorem run_getLeafEntries {f : List (LeafEntry K) → M K α} {es : List (LeafEntry K)}
    (hv : μ.view p = some n) (hc : n.cells = .leaf es) (h : Run μ (f es) E Q) :
    Run μ (getLeafEntries p >>= f) E Q := by
  unfold getLeafEntries
  rw [bind_assoc]
  exact run_fetchNode hv (run_leafEntries hc h)

theorem run_getInternalEntries {f : List (InternalEntry K) → M K α} {es : List (InternalEntry K)}
    (hv : μ.view p = some n) (hc : n.cells = .internal es) (h : Run μ (f es) E Q) :
    Run μ (getInternalEntries p >>= f) E Q := by
  unfold getInternalEntries
  rw [bind_assoc]
  exact run_fetchNode hv (run_internalEntries hc h)

/-- Cells that do not fit are an overflow. -/
theorem run_setCells {f : PUnit → M K α} {cells : Cells K} (hv : μ.view p = some n)
    (hov : ¬ cells.bytes.length ≤ CAPACITY → E .overflow)
    (h : ∀ hfit, Run (μ.set p (n.withCells cells hfit)) (f ⟨⟩) E Q) :
    Run μ (n.setCells cells >>= fun n' => storeNode p n' >>= f) E Q := by
  unfold Node.setCells
  split
  · exact run_storeNode hv (h _)
  · exact run_throw (hov ‹_›)

theorem run_setInternalEntries {f : PUnit → M K α} {es : List (InternalEntry K)} (hv : μ.view p = some n)
    (hov : ¬ (Cells.internal es).bytes.length ≤ CAPACITY → E .overflow)
    (h : ∀ hfit, Run (μ.set p (n.withCells (.internal es) hfit)) (f ⟨⟩) E Q) :
    Run μ (setInternalEntries p es >>= f) E Q := by
  unfold setInternalEntries
  simp only [bind_assoc]
  exact run_fetchNode hv (run_setCells hv hov h)

theorem run_setLeafEntries {f : PUnit → M K α} {es : List (LeafEntry K)} (hv : μ.view p = some n)
    (hov : ¬ (Cells.leaf (es.map LeafEntry.stored)).bytes.length ≤ CAPACITY → E .overflow)
    (h : ∀ hfit, Run (μ.set p (n.withCells (.leaf (es.map LeafEntry.stored)) hfit)) (f ⟨⟩) E Q) :
    Run μ (setLeafEntries p es >>= f) E Q := by
  unfold setLeafEntries
  simp only [bind_assoc]
  exact run_fetchNode hv (run_setCells hv hov h)

end node

theorem run_writePage {f : PUnit → M K α} {txn : ℕ} {p : PageId} (h : Run μ (f ⟨⟩) E Q) :
    Run μ (writePageThroughWal txn p >>= f) E Q := by
  intro s hs
  rw [wp_bind]
  exact h _ (hs.logged _ _ _)

theorem run_setRoot {f : PUnit → M K α} {p : PageId} (h : Run { μ with root := p } (f ⟨⟩) E Q) :
    Run μ ((modify fun s => { s with root_page := p } : M K PUnit) >>= f) E Q := by
  intro s hs
  rw [wp_bind, wp_modify]
  exact h _ ⟨hs.view, rfl, hs.chain, hs.nodup, hs.listed, hs.pages⟩

/-- The pages `cs` under a new parent. -/
def View.adopt (v : View K) (parent : PageId) (cs : List PageId) : View K := fun p =>
  if p ∈ cs then (v p).map fun n => { n with parent_page := parent } else v p

theorem View.adopt_of_mem {v : View K} {parent p : PageId} {cs : List PageId} {n : Node K} (hp : p ∈ cs)
    (hv : v p = some n) : v.adopt parent cs p = some { n with parent_page := parent } := by
  simp [View.adopt, hp, hv]

theorem View.adopt_of_not_mem {v : View K} {parent p : PageId} {cs : List PageId} (hp : p ∉ cs) :
    v.adopt parent cs p = v p := if_neg hp

theorem View.adopt_cons {v : View K} {parent c : PageId} {cs : List PageId} {n : Node K} (hv : v c = some n) :
    View.adopt (Function.update v c (some { n with parent_page := parent })) parent cs = v.adopt parent (c :: cs) := by
  funext p
  by_cases hp : p = c
  · subst hp
    by_cases hcs : p ∈ cs <;> simp [View.adopt, hcs, hv]
  · by_cases hcs : p ∈ cs <;> simp [View.adopt, hcs, hp]

theorem run_adoptChildren {f : PUnit → M K α} {txn : ℕ} {parent : PageId} : ∀ {cs : List PageId} {μ : Mem K},
    (∀ c ∈ cs, ∃ n, μ.view c = some n) → Run { μ with view := μ.view.adopt parent cs } (f ⟨⟩) E Q →
    Run μ (BTree.adoptChildren txn parent cs >>= f) E Q := by
  intro cs
  induction cs with
  | nil => intro μ _ h; exact h
  | cons c cs ih =>
    intro μ hcs h
    obtain ⟨n, hn⟩ := hcs c (by simp)
    unfold BTree.adoptChildren at ih ⊢
    rw [List.forM]
    simp only [bind_assoc]
    refine run_setParentPage hn (run_writePage (ih (fun c' hc' => ?_) ?_))
    · obtain ⟨n', hn'⟩ := hcs c' (by simp [hc'])
      by_cases hcc : c' = c
      · exact ⟨{ n with parent_page := parent }, by rw [hcc]; simp⟩
      · exact ⟨n', by simpa [hcc] using hn'⟩
    · rwa [Mem.set_view, View.adopt_cons hn]

/-! ### The free list -/

/-- A page allocated and at once initialised: the head of the free list, or a new page. -/
theorem run_allocNode {f : PageId → M K α} {txn : ℕ} {type : NodeType} (hE : E .file_extend)
    (h : ∀ p F, μ.view p = none → p ≠ INVALID_PAGE →
      Run ({ μ with free := F }.set p (Node.init type)) (f p) E Q) :
    Run μ (allocatePage txn >>= fun p => initNode p type >>= fun _ => f p) E Q := by
  intro s hs
  unfold allocatePage
  simp only [wp_bind, wp_get, wp_ite]
  refine ⟨fun _ => ?_, fun hhead => ?_⟩
  · unfold newPage
    simp only [wp_bind, wp_get, wp_ite, wp_modify, wp_pure, wp_throw]
    refine ⟨fun hlt => ?_, fun _ => hE⟩
    have hnone : μ.view s.total_pages = none := by rw [← hs.view]; simp [Store.view]
    have hfree : s.total_pages ∉ μ.free := fun hp => Nat.lt_irrefl _ (freeChain_free hs.chain _ hp).1
    set s₁ : Store K := { s.setPage s.total_pages .zero with total_pages := s.total_pages + 1 } with hs₁
    have htot : s₁.total_pages = s.total_pages + 1 := rfl
    have hpg : ∀ q, q ≠ s.total_pages → s₁.page q = s.page q := fun q hq => Function.update_of_ne hq _ _
    have hlt' : ∀ q, q ≠ s.total_pages → (q < s.total_pages + 1 ↔ q < s.total_pages) := fun q hq =>
      ⟨fun h => Nat.lt_of_le_of_ne (Nat.le_of_lt_succ h) hq, fun h => Nat.lt_succ_of_lt h⟩
    have hview : s₁.view = μ.view := by
      rw [← hs.view]; funext q
      by_cases hq : q = s.total_pages
      · subst hq; simp [hs₁, Store.view]
      · simp only [Store.view, hpg q hq, htot, hlt' q hq]
    have hfix : (s₁.setPage s.total_pages (.node (Node.init type))).fixed = s.fixed := by
      funext q
      by_cases hq : q = s.total_pages
      · subst hq; simp [Store.fixed]
      · simp only [Store.fixed, Store.setPage_page, Function.update_of_ne hq, hpg q hq, Store.setPage_total_pages, htot,
          hlt' q hq]
    rw [← hfix]
    refine h _ μ.free hnone (Nat.ne_of_lt hlt) _ (holds_set hview hs.root ?_ hs.nodup (fun q hq hqp => ?_) hlt
      (Nat.lt_succ_self _) hfree _)
    · exact freeChain_congr (Nat.le_succ _) (fun q hq => hpg q (ne_of_mem_of_not_mem hq hfree)) hs.chain
    · rw [hpg q hqp]
      exact hs.listed q ((hlt' q hqp).1 hq)
  · obtain ⟨view, root, free⟩ := μ
    cases free with
    | nil => exact absurd hs.chain hhead
    | cons q qs =>
      obtain ⟨hq, hlt, hne, next, under, hpage, hrest⟩ := hs.chain
      unfold fetchPage setFirstFreePage writeHeader walWrite
      simp only [hq, wp_bind, wp_get, hlt, if_true, wp_pure, hpage, wp_modify]
      have hnone : view q = none := by
        have hv : s.view = view := hs.view
        rw [← hv]; simp [Store.view, hpage]
      have hnd := List.nodup_cons.1 hs.nodup
      rw [← fixed_setNode (n := Node.init type) (s := s) fun hf => hf.2.2 next under hpage]
      set s₁ : Store K := { s with header := { s.header with first_free_page := next } }
      have hlisted : ∀ r, r < s.total_pages → r ≠ q → ∀ next under, s.page r = .free next under → r ∈ qs := ?_
      · exact h q qs hnone hne _ (holds_set (s := s₁.logged txn HEADER_PAGE_ID (.header s₁.header)) (μ := ⟨view, root, qs⟩)
          hs.view hs.root hrest hnd.2 hlisted hs.pages hlt hnd.1 _)
      intro r hr hrq next' under' hp
      exact (List.mem_cons.1 (hs.listed r hr next' under' hp)).resolve_left hrq

/-- A page freed heads the free list and holds no node any more. -/
theorem run_freePage {f : PUnit → M K α} {txn : ℕ} {p : PageId} {n : Node K} (hv : μ.view p = some n)
    (h : Run { μ with view := Function.update μ.view p none, free := p :: μ.free } (f ⟨⟩) E Q) :
    Run μ (freePage txn p >>= f) E Q := by
  intro s hs
  obtain ⟨hlt, hpage⟩ := hs.node hv
  unfold freePage fetchPage writePageThroughWal setFirstFreePage writeHeader walWrite
  simp only [wp_bind, wp_get, hlt, if_true, wp_pure, wp_modify]
  have hfree := hs.not_free hv
  have hfix : (s.setPage p (.free s.header.first_free_page (s.page p))).fixed = s.fixed := by
    funext q
    by_cases hq : q = p
    · subst hq; simp [Store.fixed, hpage]
    · simp [Store.fixed, Function.update_of_ne hq]
  rw [← hfix]
  refine h _ ⟨?_, hs.root, ?_, ?_, fun q hq next under hp => ?_, hs.pages⟩
  · rw [← hs.view]; funext q
    by_cases hq : q = p
    · subst hq; simp [Store.view]
    · simp [Store.view, Function.update_of_ne hq]
  · refine ⟨rfl, hlt, hs.ne_invalid hv, s.header.first_free_page, s.page p, by simp, ?_⟩
    exact freeChain_congr (le_refl _)
      (fun _ hq => Function.update_of_ne (ne_of_mem_of_not_mem hq hfree) _ _) hs.chain
  · exact List.nodup_cons.2 ⟨hfree, hs.nodup⟩
  · by_cases hqp : q = p
    · simp [hqp]
    · refine List.mem_cons_of_mem _ (hs.listed q hq next under ?_)
      simpa [Function.update_of_ne hqp] using hp

end GSDBEngine
