import GSDBEngine.Spec.System
import GSDBEngine.Lib.Eff
import Mathlib.Data.Set.Insert
import Mathlib.Data.Set.Basic

/-!
# Every modified frame is logged

`Sync I old D s`: in the running transaction `txn`, every frame outside `D` is
the last image the transaction logged for its page, or the page as it stood at the
last commit (`old`), and the log keeps `I`, which no page image breaks. A method that starts in step (`D = ∅`) ends in step, whatever path of
splits, borrows, merges and free-list moves it takes, and whether or not the pages
make up a tree: each frame it changes is logged before it returns.

* `callOK_insertTx`, `callOK_removeTx`, `keeps_createRootPage`: the methods.
-/

namespace GSDBEngine

open Eff RedoLog

variable {K : Type} [KeyOps K] {α β : Type}

/-- What holds of the log while transaction `txn` runs, whatever pages it logs. -/
structure LogInv (K : Type) [KeyOps K] (txn : ℕ) where
  holds : Wal (Page K) → Prop
  logged : ∀ (s : Store K) (p : PageId) (image : Page K), holds s.wal → holds (s.logged txn p image).wal

variable {txn : ℕ} {I : LogInv K txn} {old : PageId → Page K} {D D' : Set PageId} {s : Store K}

/-- The running transaction has logged every frame it changed, but for those in `D`. -/
structure Sync (I : LogInv K txn) (old : PageId → Page K) (D : Set PageId) (s : Store K) : Prop where
  frames : ∀ p, p ≠ HEADER_PAGE_ID → p ∉ D → s.page p = (s.wal.active_pages p).getD (old p)
  log : I.holds s.wal
  page0 : s.page HEADER_PAGE_ID = old HEADER_PAGE_ID
  isHeader : ∃ h, s.page HEADER_PAGE_ID = .header h
  header : (s.wal.active_pages HEADER_PAGE_ID).getD (s.page HEADER_PAGE_ID) = .header s.header
  pages : 1 ≤ s.total_pages

theorem Sync.mono (h : Sync I old D s) (hD : D ⊆ D') : Sync I old D' s :=
  { h with frames := fun p hp hpD => h.frames p hp fun hx => hpD (hD hx) }

/-! ### Rules -/

/-- `m` leads from frames in step but for `D` to frames in step but for `D'`, and
returns a value with `R`; it refuses nothing. -/
def Keeps (I : LogInv K txn) (old : PageId → Page K) (D : Set PageId) (m : M K α) (D' : Set PageId)
    (R : α → Prop) : Prop :=
  ∀ s, Sync I old D s →
    wp m (fun e _ => e.isRefusal = false) (fun a s' => Sync I old D' s' ∧ R a) s

variable {D₁ D₂ : Set PageId} {R R' : α → Prop} {R₁ : β → Prop}

theorem keeps_pure (a : α) (h : R a) : Keeps I old D (pure a) D R :=
  fun _ hs => ⟨hs, h⟩

theorem keeps_throw (e : Err K) (he : e.isRefusal = false) : Keeps I old D (throw e : M K α) D' R :=
  fun _ _ => he

theorem keeps_bind {m : M K β} {f : β → M K α} (hm : Keeps I old D m D₁ R₁)
    (hf : ∀ b, R₁ b → Keeps I old D₁ (f b) D₂ R) : Keeps I old D (m >>= f) D₂ R := by
  intro s hs
  rw [wp_bind]
  exact wp_post (hm s hs) fun b s' hb => hf b hb.2 s' hb.1

theorem keeps_mono {m : M K α} (hm : Keeps I old D m D₁ R) (hD : D₁ ⊆ D₂) (hR : ∀ a, R a → R' a) :
    Keeps I old D m D₂ R' :=
  fun s hs => wp_post (hm s hs) fun a _ ha => ⟨ha.1.mono hD, hR a ha.2⟩

theorem keeps_to {m : M K α} (hm : Keeps I old D m D₁ R) (hD : D₁ ⊆ D₂) : Keeps I old D m D₂ R :=
  keeps_mono hm hD fun _ h => h

theorem keeps_ite {c : Prop} [Decidable c] {m m' : M K α} (h : c → Keeps I old D m D' R)
    (h' : ¬ c → Keeps I old D m' D' R) : Keeps I old D (if c then m else m') D' R := by
  split
  · exact h ‹_›
  · exact h' ‹_›

/-- A read of the state alone. -/
theorem keeps_get : Keeps I old D (get : M K (Store K)) D fun _ => True :=
  fun _ hs => ⟨hs, trivial⟩

/-- The tree's root is not part of a page. -/
theorem keeps_root (p : PageId) :
    Keeps I old D (modify fun s => { s with root_page := p } : M K Unit) D fun _ => True :=
  fun _ hs => ⟨{ hs with }, trivial⟩

theorem keeps_forM {γ : Type} {f : γ → M K Unit} (h : ∀ x, Keeps I old D (f x) D fun _ => True)
    (l : List γ) : Keeps I old D (l.forM f) D fun _ => True := by
  intro s hs
  refine wp_post (wp_forM (I := fun _ s => Sync I old D s) (fun x xs s hs => ?_) l s hs)
    fun _ s' hs' => ⟨hs', trivial⟩
  exact wp_post (h x s hs) fun _ s' hs' => hs'.1

/-! ### Frames -/

theorem keeps_fetchPage (p : PageId) : Keeps I old D (fetchPage p) D fun _ => True := by
  intro s hs
  unfold fetchPage
  simp only [wp_bind, wp_get, wp_ite, wp_pure, wp_throw]
  exact ⟨fun _ => ⟨hs, trivial⟩, fun _ => rfl⟩

/-- Page 0 holds no node. -/
theorem keeps_fetchNode (p : PageId) :
    Keeps I old D (fetchNode p) D fun _ => p ≠ HEADER_PAGE_ID := by
  intro s hs
  unfold fetchNode fetchPage
  simp only [wp_bind, wp_get, wp_ite, wp_pure, wp_throw]
  refine ⟨fun _ => ?_, fun _ => rfl⟩
  cases hp : s.page p with
  | node n =>
    refine ⟨hs, fun h0 => ?_⟩
    obtain ⟨h, hh⟩ := hs.isHeader
    rw [← h0, hp] at hh
    cases hh
  | zero => rfl
  | header h => rfl
  | free next under => rfl

theorem sync_setPage (hs : Sync I old D s) {p : PageId} (hp : p ≠ HEADER_PAGE_ID) (pg : Page K) :
    Sync I old (insert p D) (s.setPage p pg) := by
  have h0 : (s.setPage p pg).page HEADER_PAGE_ID = s.page HEADER_PAGE_ID :=
    Function.update_of_ne (Ne.symm hp) _ _
  refine { hs with frames := fun q hq hqD => ?_, page0 := ?_, isHeader := ?_, header := ?_ }
  · rw [Set.mem_insert_iff, not_or] at hqD
    rw [show (s.setPage p pg).page q = s.page q from Function.update_of_ne hqD.1 _ _]
    exact hs.frames q hq hqD.2
  · rw [h0]; exact hs.page0
  · rw [h0]; exact hs.isHeader
  · rw [h0]; exact hs.header

theorem keeps_storeNode {p : PageId} (hp : p ≠ HEADER_PAGE_ID) (n : Node K) :
    Keeps I old D (storeNode p n) (insert p D) fun _ => True :=
  fun _ hs => ⟨sync_setPage hs hp _, trivial⟩

theorem keeps_setParentPage (p parent : PageId) :
    Keeps I old D (setParentPage p parent) (insert p D) fun _ => p ≠ HEADER_PAGE_ID :=
  keeps_bind (keeps_fetchNode p) fun _ hp => keeps_mono (keeps_storeNode hp _) (le_refl _) fun _ _ => hp

theorem keeps_setNextLeaf (p next : PageId) :
    Keeps I old D (setNextLeaf p next) (insert p D) fun _ => p ≠ HEADER_PAGE_ID :=
  keeps_bind (keeps_fetchNode p) fun _ hp => keeps_mono (keeps_storeNode hp _) (le_refl _) fun _ _ => hp

theorem keeps_setRightmostChild (p child : PageId) :
    Keeps I old D (setRightmostChild p child) (insert p D) fun _ => p ≠ HEADER_PAGE_ID :=
  keeps_bind (keeps_fetchNode p) fun _ hp => keeps_mono (keeps_storeNode hp _) (le_refl _) fun _ _ => hp

theorem keeps_leafEntries (n : Node K) : Keeps I old D n.leafEntries D fun _ => True := by
  unfold Node.leafEntries
  cases n.cells with
  | leaf es => exact keeps_pure _ trivial
  | internal es => exact keeps_throw _ rfl

theorem keeps_internalEntries (n : Node K) : Keeps I old D n.internalEntries D fun _ => True := by
  unfold Node.internalEntries
  cases n.cells with
  | leaf es => exact keeps_throw _ rfl
  | internal es => exact keeps_pure _ trivial

theorem keeps_getLeafEntries (p : PageId) :
    Keeps I old D (getLeafEntries p) D fun _ => p ≠ HEADER_PAGE_ID :=
  keeps_bind (keeps_fetchNode p) fun n hp => keeps_mono (keeps_leafEntries n) (le_refl _) fun _ _ => hp

theorem keeps_getInternalEntries (p : PageId) :
    Keeps I old D (getInternalEntries p) D fun _ => p ≠ HEADER_PAGE_ID :=
  keeps_bind (keeps_fetchNode p) fun n hp => keeps_mono (keeps_internalEntries n) (le_refl _) fun _ _ => hp

theorem keeps_setCells (n : Node K) (cells : Cells K) :
    Keeps I old D (n.setCells cells) D fun _ => True := by
  unfold Node.setCells
  split
  · exact keeps_pure _ trivial
  · exact keeps_throw _ rfl

theorem keeps_setLeafEntries (p : PageId) (es : List (LeafEntry K)) :
    Keeps I old D (setLeafEntries p es) (insert p D) fun _ => p ≠ HEADER_PAGE_ID :=
  keeps_bind (keeps_fetchNode p) fun _ hp => keeps_bind (keeps_setCells _ _) fun _ _ =>
    keeps_mono (keeps_storeNode hp _) (le_refl _) fun _ _ => hp

theorem keeps_setInternalEntries (p : PageId) (es : List (InternalEntry K)) :
    Keeps I old D (setInternalEntries p es) (insert p D) fun _ => p ≠ HEADER_PAGE_ID :=
  keeps_bind (keeps_fetchNode p) fun _ hp => keeps_bind (keeps_setCells _ _) fun _ _ =>
    keeps_mono (keeps_storeNode hp _) (le_refl _) fun _ _ => hp

/-! ### Log and free list -/

theorem sync_logged (hs : Sync I old D s) {p : PageId} (hp : p ≠ HEADER_PAGE_ID) :
    Sync I old (D \ {p}) (s.logged txn p (s.page p)) := by
  refine ⟨fun q hq hqD => ?_, I.logged s p _ hs.log, hs.page0, hs.isHeader, ?_, hs.pages⟩
  · by_cases hqp : q = p
    · subst hqp; simp
    · simp only [Store.logged_page, Store.logged_active_pages, Function.update_of_ne hqp]
      exact hs.frames q hq fun h => hqD ⟨h, hqp⟩
  · simp only [Store.logged_active_pages, Function.update_of_ne (Ne.symm hp)]; exact hs.header

theorem keeps_writePage {p : PageId} (hp : p ≠ HEADER_PAGE_ID) :
    Keeps I old D (writePageThroughWal txn p) (D \ {p}) fun _ => True :=
  fun _ hs => ⟨sync_logged hs hp, trivial⟩

/-- The page logged was the last one to be. -/
theorem keeps_writeLast {p : PageId} (hp : p ≠ HEADER_PAGE_ID) (hD : D \ {p} ⊆ ∅) :
    Keeps I old D (writePageThroughWal txn p) ∅ fun _ => True :=
  keeps_to (keeps_writePage hp) hD

/-- The header changed in memory and logged at once. -/
theorem keeps_updateHeader (next : PageId) :
    Keeps I old D (setFirstFreePage next >>= fun _ => writeHeader txn) D fun _ => True := by
  intro s hs
  unfold setFirstFreePage writeHeader walWrite
  simp only [wp_bind, wp_get, wp_modify, and_true]
  refine ⟨fun q hq hqD => ?_, I.logged { s with header := _ } _ _ hs.log, hs.page0, hs.isHeader, ?_, hs.pages⟩
  · simp only [Store.logged_page, Store.logged_active_pages, Function.update_of_ne hq]
    exact hs.frames q hq hqD
  · simp only [Store.logged_active_pages, Store.logged_header, Function.update_self, Option.getD_some]

/-- An allocated page is one to be written: reclaimed, or new and zeroed. -/
theorem wp_allocatePage (hs : Sync I old D s) :
    wp (allocatePage txn : M K PageId) (fun e _ => e.isRefusal = false)
      (fun p s' => Sync I old (insert p D) s' ∧ p ≠ HEADER_PAGE_ID) s := by
  unfold allocatePage
  simp only [wp_bind, wp_get, wp_ite]
  refine ⟨fun _ => ?_, fun _ => ?_⟩
  · unfold newPage
    simp only [wp_bind, wp_get, wp_ite, wp_modify, wp_pure, wp_throw]
    have h0 : s.total_pages ≠ HEADER_PAGE_ID := Nat.one_le_iff_ne_zero.1 hs.pages
    exact ⟨fun _ => ⟨{ sync_setPage hs h0 .zero with pages := by simp }, h0⟩, fun _ => rfl⟩
  · unfold fetchPage
    simp only [wp_bind, wp_get, wp_ite, wp_pure, wp_throw]
    refine ⟨fun _ => ?_, fun _ => rfl⟩
    cases hp : s.page s.header.first_free_page with
    | free next under =>
      have h0 : s.header.first_free_page ≠ HEADER_PAGE_ID := by
        obtain ⟨h, hh⟩ := hs.isHeader
        intro h0
        rw [← h0, hp] at hh
        cases hh
      have hw := keeps_updateHeader next s hs
      simp only [wp_bind] at hw ⊢
      exact wp_post hw fun _ s' hs' => wp_post hs' fun _ s'' hs'' =>
        ⟨hs''.1.mono (Set.subset_insert _ _), h0⟩
    | zero => rfl
    | header h => rfl
    | node n => rfl

theorem keeps_alloc {f : PageId → M K α}
    (hf : ∀ p, p ≠ HEADER_PAGE_ID → Keeps I old (insert p D) (f p) D₂ R) :
    Keeps I old D (allocatePage txn >>= f) D₂ R := by
  intro s hs
  rw [wp_bind]
  exact wp_post (wp_allocatePage hs) fun p s' hp => hf p hp.2 s' hp.1

theorem keeps_freePage {p : PageId} (hp : p ≠ HEADER_PAGE_ID) :
    Keeps I old D (freePage txn p) D fun _ => True := by
  unfold freePage
  refine keeps_bind (keeps_fetchPage p) fun pg _ => ?_
  have hset : Keeps I old D (modify fun s => s.setPage p (.free s.header.first_free_page pg) : M K Unit)
      (insert p D) fun _ => True := fun s hs => ⟨sync_setPage hs hp _, trivial⟩
  refine keeps_bind hset fun _ _ => ?_
  refine keeps_bind (keeps_writePage hp) fun _ _ => ?_
  exact keeps_to (keeps_updateHeader p) (by rintro q ⟨h, hq⟩; exact h.resolve_left hq)

/-! ### Insertion -/

section Tree

open BTree

theorem keeps_adoptChildren (parent : PageId) (cs : List PageId) :
    Keeps I old D (adoptChildren txn parent cs : M K Unit) D fun _ => True := by
  refine keeps_forM (fun c => ?_) cs
  refine keeps_bind (keeps_setParentPage c parent) fun _ hc => ?_
  exact keeps_to (keeps_writePage hc) (by rintro q ⟨h, hq⟩; exact h.resolve_left hq)

theorem keeps_insertNewRoot (left : PageId) (key : K) (right : PageId) :
    Keeps I old ∅ (insertNewRoot txn left key right) ∅ fun _ => True := by
  refine keeps_alloc fun root hroot => ?_
  refine keeps_bind (keeps_storeNode hroot _) fun _ _ => ?_
  refine keeps_bind (keeps_setInternalEntries _ _) fun _ _ => ?_
  refine keeps_bind (keeps_setRightmostChild _ _) fun _ _ => ?_
  refine keeps_bind (keeps_writePage hroot) fun _ _ => ?_
  refine keeps_bind (keeps_setParentPage _ _) fun _ hl => ?_
  refine keeps_bind (keeps_writePage hl) fun _ _ => ?_
  refine keeps_bind (keeps_setParentPage _ _) fun _ hr => ?_
  refine keeps_bind (keeps_writePage hr) fun _ _ => ?_
  refine keeps_to (keeps_root root) ?_
  grind

theorem keeps_placeSeparator (parent left : PageId) (key : K) (right : PageId) :
    Keeps I old ∅ (placeSeparator parent left key right) {parent} fun _ => parent ≠ HEADER_PAGE_ID := by
  refine keeps_bind (keeps_getInternalEntries _) fun _ hp => keeps_ite (fun _ => ?_) (fun _ => ?_)
  · exact keeps_to (keeps_setInternalEntries _ _) (by simp)
  · exact keeps_bind (keeps_setRightmostChild _ _) fun _ _ => keeps_to (keeps_setInternalEntries _ _) (by simp)

theorem keeps_insertIntoNode (parent left : PageId) (key : K) (right : PageId) :
    Keeps I old ∅ (insertIntoNode txn parent left key right) ∅ fun _ => True := by
  refine keeps_bind (keeps_placeSeparator _ _ _ _) fun _ hp => ?_
  refine keeps_bind (keeps_writePage hp) fun _ _ => ?_
  refine keeps_bind (keeps_setParentPage _ _) fun _ hr => ?_
  exact keeps_to (keeps_writePage hr) (by grind)

theorem keeps_makeRoom {split : PageId → M K Unit} (hsplit : ∀ p, Keeps I old ∅ (split p) ∅ fun _ => True)
    (left parent : PageId) (key : K) :
    Keeps I old ∅ (makeRoom split left parent key) ∅ fun _ => True := by
  refine keeps_bind (keeps_fetchNode _) fun _ _ => keeps_ite (fun _ => ?_) (fun _ => keeps_pure _ trivial)
  refine keeps_bind (hsplit _) fun _ _ => ?_
  exact keeps_bind (keeps_fetchNode _) fun _ _ => keeps_pure _ trivial

theorem keeps_insertIntoParent {split : PageId → M K Unit}
    (hsplit : ∀ p, Keeps I old ∅ (split p) ∅ fun _ => True) (left : PageId) (key : K) (right : PageId) :
    Keeps I old ∅ (insertIntoParent split txn left key right) ∅ fun _ => True := by
  refine keeps_bind (keeps_fetchNode _) fun _ _ => ?_
  refine keeps_ite (fun _ => keeps_insertNewRoot _ _ _) (fun _ => ?_)
  refine keeps_bind (keeps_makeRoom hsplit _ _ _) fun _ _ => ?_
  refine keeps_bind (keeps_insertIntoNode _ _ _ _) fun _ _ => ?_
  refine keeps_bind (keeps_fetchNode _) fun _ _ => ?_
  exact keeps_ite (fun _ => hsplit _) (fun _ => keeps_pure _ trivial)

theorem keeps_splitInternal (fuel : ℕ) :
    ∀ p : PageId, Keeps I old ∅ (splitInternal fuel txn p : M K Unit) ∅ fun _ => True := by
  induction fuel with
  | zero => intro p; exact keeps_throw _ rfl
  | succ fuel ih =>
    intro p
    refine keeps_bind (keeps_fetchNode _) fun left hp => ?_
    refine keeps_bind (keeps_internalEntries _) fun entries _ => ?_
    dsimp only
    cases entries[entries.length / 2]? with
    | none => exact keeps_throw _ rfl
    | some promoted =>
      refine keeps_alloc fun r hr => ?_
      refine keeps_bind (keeps_storeNode hr _) fun _ _ => ?_
      refine keeps_bind (keeps_setInternalEntries _ _) fun _ _ => ?_
      refine keeps_bind (keeps_setRightmostChild _ _) fun _ _ => ?_
      refine keeps_bind (keeps_setParentPage _ _) fun _ _ => ?_
      refine keeps_bind (keeps_setInternalEntries _ _) fun _ _ => ?_
      refine keeps_bind (keeps_setRightmostChild _ _) fun _ _ => ?_
      refine keeps_bind (keeps_adoptChildren _ _) fun _ _ => ?_
      refine keeps_bind (keeps_writePage hp) fun _ _ => ?_
      refine keeps_bind (keeps_writeLast hr ?_) fun _ _ => ?_
      · grind
      · exact keeps_insertIntoParent ih _ _ _

theorem keeps_splitFuel : Keeps I old D (splitFuel : M K ℕ) D fun _ => True :=
  keeps_bind keeps_get fun _ _ => keeps_pure _ trivial

theorem keeps_splitLeaf (p : PageId) : Keeps I old ∅ (splitLeaf txn p : M K Unit) ∅ fun _ => True := by
  refine keeps_bind (keeps_fetchNode _) fun left hp => ?_
  refine keeps_bind (keeps_leafEntries _) fun entries _ => ?_
  refine keeps_alloc fun r hr => ?_
  refine keeps_bind (keeps_storeNode hr _) fun _ _ => ?_
  refine keeps_bind (keeps_setLeafEntries _ _) fun _ _ => ?_
  refine keeps_bind (keeps_setNextLeaf _ _) fun _ _ => ?_
  refine keeps_bind (keeps_setParentPage _ _) fun _ _ => ?_
  refine keeps_bind (keeps_setLeafEntries _ _) fun _ _ => ?_
  refine keeps_bind (keeps_setNextLeaf _ _) fun _ _ => ?_
  cases (entries.drop (entries.length / 2)).head? with
  | none => exact keeps_throw _ rfl
  | some first =>
    refine keeps_bind (keeps_writePage hp) fun _ _ => ?_
    refine keeps_bind (keeps_writeLast hr ?_) fun _ _ => ?_
    · grind
    · refine keeps_bind keeps_splitFuel fun fuel _ => ?_
      exact keeps_insertIntoParent (keeps_splitInternal fuel) _ _ _

theorem keeps_insertIntoLeaf (p : PageId) (key : K) (value : Bytes) :
    Keeps I old ∅ (insertIntoLeaf txn p key value) ∅ fun _ => True := by
  refine keeps_bind (keeps_getLeafEntries _) fun _ hp => ?_
  refine keeps_bind (keeps_setLeafEntries _ _) fun _ _ => ?_
  exact keeps_to (keeps_writePage hp) (by grind)

theorem wp_findLeafLoop (key : K) (fuel : ℕ) :
    ∀ p path, wp (findLeafLoop key fuel p path) (fun e _ => e.isRefusal = false) (fun _ s' => s' = s) s := by
  induction fuel with
  | zero => intro p path; rfl
  | succ fuel ih =>
    intro p path
    unfold findLeafLoop fetchNode fetchPage
    simp only [wp_bind, wp_get, wp_ite, wp_pure, wp_throw]
    refine ⟨fun _ => ?_, fun _ => rfl⟩
    cases s.page p with
    | node n =>
      cases hc : n.cells with
      | leaf es => simp [hc]
      | internal es => simpa [hc] using ih _ _
    | zero => rfl
    | header h => rfl
    | free next under => rfl

theorem wp_findLeafPageWithPath (key : K) :
    wp (findLeafPageWithPath key) (fun e _ => e.isRefusal = false) (fun _ s' => s' = s) s := by
  unfold findLeafPageWithPath
  simp only [wp_bind, wp_get]
  exact wp_findLeafLoop key _ _ _

theorem wp_findLeafPage (key : K) :
    wp (findLeafPage key) (fun e _ => e.isRefusal = false) (fun _ s' => s' = s) s := by
  unfold findLeafPage
  simp only [wp_bind, wp_pure]
  exact wp_findLeafPageWithPath key

theorem keeps_findLeafPage (key : K) : Keeps I old D (findLeafPage key) D fun _ => True := by
  intro s hs
  refine wp_post (wp_findLeafPage key) fun _ s' hs' => ?_
  subst hs'
  exact ⟨hs, trivial⟩

/-- What a method does in a transaction: it returns with every change logged, and a
refusal changes nothing. -/
def CallOK (I : LogInv K txn) (old : PageId → Page K) (m : M K Unit) (s : Store K) : Prop :=
  wp m (fun e s' => e.isRefusal = true → s' = s) (fun _ s' => Sync I old ∅ s') s

theorem Keeps.callOK {m : M K α} {f : α → M K Unit} (hm : wp m (fun e _ => e.isRefusal = false) (fun _ s' => s' = s) s)
    (hf : ∀ a, CallOK I old (f a) s) : CallOK I old (m >>= f) s := by
  unfold CallOK
  rw [wp_bind]
  refine wp_mono hm (fun a s' hs' => ?_) (fun e s' he hr => by rw [he] at hr; cases hr)
  subst hs'
  exact hf a

theorem Keeps.toCall {m : M K Unit} (hm : Keeps I old ∅ m ∅ fun _ => True) (hs : Sync I old ∅ s) :
    CallOK I old m s :=
  wp_mono (hm s hs) (fun _ _ h => h.1) fun e _ he hr => by rw [he] at hr; cases hr

theorem wp_fetchNode_read (p : PageId) :
    wp (fetchNode p) (fun e _ => e.isRefusal = false) (fun _ s' => s' = s) s := by
  unfold fetchNode fetchPage
  simp only [wp_bind, wp_get, wp_ite, wp_pure, wp_throw]
  refine ⟨fun _ => ?_, fun _ => rfl⟩
  cases s.page p <;> rfl

theorem wp_leafEntries_read (n : Node K) :
    wp n.leafEntries (fun e _ => e.isRefusal = false) (fun _ s' => s' = s) s := by
  unfold Node.leafEntries
  cases n.cells <;> rfl

/-- **`insert` logs every frame it changes**, and changes none when it refuses. -/
theorem callOK_insertTx (key : K) (value : Bytes) (hs : Sync I old ∅ s) :
    CallOK I old (insertTx txn key value) s := by
  refine Keeps.callOK (wp_findLeafPage key) fun leaf => ?_
  refine Keeps.callOK (wp_fetchNode_read leaf) fun node => ?_
  refine Keeps.callOK (wp_leafEntries_read node) fun entries => ?_
  cases findInLeaf entries key with
  | some v => exact fun _ => rfl
  | none =>
    refine Keeps.toCall (keeps_ite (fun _ => ?_) fun _ => keeps_insertIntoLeaf _ _ _) hs
    refine keeps_bind (keeps_splitLeaf _) fun _ _ => ?_
    exact keeps_bind (keeps_findLeafPage key) fun _ _ => keeps_insertIntoLeaf _ _ _

theorem keeps_createRootPage :
    Keeps I old ∅ (createRootPage txn : M K PageId) ∅ fun _ => True := by
  refine keeps_alloc fun p hp => ?_
  refine keeps_bind (keeps_storeNode hp _) fun _ _ => ?_
  refine keeps_bind (keeps_writeLast hp ?_) fun _ _ => keeps_pure _ trivial
  grind

/-! ### Removal -/

theorem keeps_removeFromLeaf (p : PageId) (key : K) :
    Keeps I old ∅ (removeFromLeaf txn p key) ∅ fun _ => True := by
  refine keeps_bind (keeps_getLeafEntries _) fun _ hp => ?_
  refine keeps_bind (keeps_setLeafEntries _ _) fun _ _ => ?_
  exact keeps_to (keeps_writePage hp) (by grind)

theorem keeps_findSiblings (page parent : PageId) :
    Keeps I old D (findSiblings page parent : M K (SiblingInfo K)) D fun _ => True := by
  refine keeps_bind (keeps_fetchNode _) fun n _ => keeps_bind (keeps_internalEntries n) fun es _ => ?_
  dsimp only
  cases (children es n.rightmost_child).findIdx? (· == page) with
  | none => exact keeps_throw _ rfl
  | some idx => exact keeps_pure _ trivial

theorem keeps_replaceSeparator (parent : PageId) (key key' : K) :
    Keeps I old ∅ (replaceSeparator txn parent key key') ∅ fun _ => True := by
  refine keeps_bind (keeps_getInternalEntries _) fun _ hp => ?_
  refine keeps_bind (keeps_setInternalEntries _ _) fun _ _ => ?_
  exact keeps_to (keeps_writePage hp) (by grind)

theorem keeps_borrowLeafLeft (page parent left : PageId) (key : K) :
    Keeps I old ∅ (borrowLeafLeft txn page parent left key) ∅ fun _ => True := by
  refine keeps_bind (keeps_getLeafEntries _) fun es hl => ?_
  cases es.getLast? with
  | none => exact keeps_throw _ rfl
  | some borrowed =>
    refine keeps_bind (keeps_setLeafEntries _ _) fun _ _ => ?_
    refine keeps_bind (keeps_writePage hl) fun _ _ => ?_
    refine keeps_bind (keeps_getLeafEntries _) fun _ hp => ?_
    refine keeps_bind (keeps_setLeafEntries _ _) fun _ _ => ?_
    refine keeps_bind (keeps_writeLast hp ?_) fun _ _ => keeps_replaceSeparator _ _ _
    grind

theorem keeps_borrowLeafRight (page parent right : PageId) (key : K) :
    Keeps I old ∅ (borrowLeafRight txn page parent right key) ∅ fun _ => True := by
  refine keeps_bind (keeps_getLeafEntries _) fun es hr => ?_
  cases es with
  | nil => exact keeps_throw _ rfl
  | cons borrowed rest =>
    refine keeps_bind (keeps_setLeafEntries _ _) fun _ _ => ?_
    refine keeps_bind (keeps_writePage hr) fun _ _ => ?_
    refine keeps_bind (keeps_getLeafEntries _) fun _ hp => ?_
    refine keeps_bind (keeps_setLeafEntries _ _) fun _ _ => ?_
    refine keeps_bind (keeps_writeLast hp ?_) fun _ _ => keeps_replaceSeparator _ _ _
    grind

theorem keeps_borrowInternalLeft (page parent left : PageId) (key : K) :
    Keeps I old ∅ (borrowInternalLeft txn page parent left key) ∅ fun _ => True := by
  refine keeps_bind (keeps_fetchNode _) fun n hl => ?_
  refine keeps_bind (keeps_internalEntries n) fun es _ => ?_
  refine keeps_bind (keeps_getInternalEntries _) fun _ hp => ?_
  cases es.getLast? with
  | none => exact keeps_throw _ rfl
  | some promoted =>
    refine keeps_bind (keeps_setRightmostChild _ _) fun _ _ => ?_
    refine keeps_bind (keeps_setInternalEntries _ _) fun _ _ => ?_
    refine keeps_bind (keeps_setInternalEntries _ _) fun _ _ => ?_
    refine keeps_bind (keeps_writePage hl) fun _ _ => ?_
    refine keeps_bind (keeps_writePage hp) fun _ _ => ?_
    refine keeps_bind (keeps_setParentPage _ _) fun _ hc => ?_
    refine keeps_bind (keeps_writeLast hc ?_) fun _ _ => keeps_replaceSeparator _ _ _
    grind

theorem keeps_borrowInternalRight (page parent right : PageId) (key : K) :
    Keeps I old ∅ (borrowInternalRight txn page parent right key) ∅ fun _ => True := by
  refine keeps_bind (keeps_getInternalEntries _) fun es hr => ?_
  cases es with
  | nil => exact keeps_throw _ rfl
  | cons promoted rest =>
    refine keeps_bind (keeps_fetchNode _) fun n hp => ?_
    refine keeps_bind (keeps_internalEntries n) fun _ _ => ?_
    refine keeps_bind (keeps_setRightmostChild _ _) fun _ _ => ?_
    refine keeps_bind (keeps_setInternalEntries _ _) fun _ _ => ?_
    refine keeps_bind (keeps_setInternalEntries _ _) fun _ _ => ?_
    refine keeps_bind (keeps_writePage hr) fun _ _ => ?_
    refine keeps_bind (keeps_writePage hp) fun _ _ => ?_
    refine keeps_bind (keeps_setParentPage _ _) fun _ hc => ?_
    refine keeps_bind (keeps_writeLast hc ?_) fun _ _ => keeps_replaceSeparator _ _ _
    grind

theorem keeps_canDonate (sib : Option (PageId × K)) : Keeps I old D (canDonate sib) D fun _ => True := by
  cases sib with
  | none => exact keeps_pure _ trivial
  | some c => exact keeps_bind (keeps_fetchNode _) fun _ _ => keeps_pure _ trivial

theorem keeps_borrowLeft (isLeaf : Bool) (page parent left : PageId) (key : K) :
    Keeps I old ∅ (borrowLeft txn isLeaf page parent left key) ∅ fun _ => True :=
  keeps_ite (fun _ => keeps_borrowLeafLeft _ _ _ _) fun _ => keeps_borrowInternalLeft _ _ _ _

theorem keeps_borrowRight (isLeaf : Bool) (page parent right : PageId) (key : K) :
    Keeps I old ∅ (borrowRight txn isLeaf page parent right key) ∅ fun _ => True :=
  keeps_ite (fun _ => keeps_borrowLeafRight _ _ _ _) fun _ => keeps_borrowInternalRight _ _ _ _

theorem keeps_tryRedistribute (page parent : PageId) :
    Keeps I old ∅ (tryRedistribute txn page parent : M K Bool) ∅ fun _ => True := by
  refine keeps_bind (keeps_findSiblings _ _) fun sib _ => ?_
  refine keeps_bind (keeps_fetchNode _) fun n _ => ?_
  refine keeps_bind (keeps_canDonate _) fun ld _ => ?_
  split
  · exact keeps_bind (keeps_borrowLeft _ _ _ _ _) fun _ _ => keeps_pure _ trivial
  · refine keeps_bind (keeps_canDonate _) fun rd _ => ?_
    split
    · exact keeps_bind (keeps_borrowRight _ _ _ _ _) fun _ _ => keeps_pure _ trivial
    · exact keeps_pure _ trivial

theorem keeps_mergeContents (into frm : PageId) (key : K) :
    Keeps I old ∅ (mergeContents txn into frm key) {into}
      fun _ => into ≠ HEADER_PAGE_ID ∧ frm ≠ HEADER_PAGE_ID := by
  refine keeps_bind (keeps_fetchNode _) fun n hi => keeps_bind (keeps_fetchNode _) fun m hf => ?_
  refine keeps_ite (fun _ => ?_) (fun _ => ?_)
  · refine keeps_bind (keeps_leafEntries n) fun _ _ => keeps_bind (keeps_leafEntries m) fun _ _ => ?_
    refine keeps_bind (keeps_setLeafEntries _ _) fun _ _ => ?_
    exact keeps_mono (keeps_setNextLeaf _ _) (by simp) fun _ _ => ⟨hi, hf⟩
  · refine keeps_bind (keeps_internalEntries n) fun _ _ => keeps_bind (keeps_internalEntries m) fun _ _ => ?_
    refine keeps_bind (keeps_setInternalEntries _ _) fun _ _ => ?_
    refine keeps_bind (keeps_setRightmostChild _ _) fun _ _ => ?_
    exact keeps_mono (keeps_adoptChildren _ _) (by simp) fun _ _ => ⟨hi, hf⟩

theorem keeps_removeSeparator (parent into frm : PageId) (key : K) :
    Keeps I old ∅ (removeSeparator parent into frm key) {parent} fun _ => parent ≠ HEADER_PAGE_ID := by
  refine keeps_bind (keeps_getInternalEntries _) fun _ hp => ?_
  refine keeps_bind (keeps_setInternalEntries _ _) fun _ _ => ?_
  refine keeps_bind (keeps_fetchNode _) fun _ _ => keeps_ite (fun _ => ?_) (fun _ => ?_)
  · exact keeps_to (keeps_setRightmostChild _ _) (by simp)
  · exact fun s hs => ⟨hs.mono (by simp), hp⟩

theorem keeps_mergeWithSibling (page parent : PageId) :
    Keeps I old ∅ (mergeWithSibling txn page parent : M K Unit) ∅ fun _ => True := by
  refine keeps_bind (keeps_findSiblings _ _) fun sib _ => ?_
  have hsides : Keeps I old ∅ (mergeSides sib page) ∅ fun _ => True := by
    unfold mergeSides
    split
    · exact keeps_pure _ trivial
    · exact keeps_pure _ trivial
    · exact keeps_throw _ rfl
  refine keeps_bind hsides fun sides _ => ?_
  refine keeps_bind (keeps_mergeContents _ _ _) fun _ h => ?_
  refine keeps_bind (keeps_writeLast h.1 (by grind)) fun _ _ => ?_
  refine keeps_bind (keeps_removeSeparator _ _ _ _) fun _ hp => ?_
  refine keeps_bind (keeps_writeLast hp (by grind)) fun _ _ => ?_
  exact keeps_freePage h.2

theorem keeps_collapseRoot (page : PageId) :
    Keeps I old ∅ (collapseRoot txn page : M K Unit) ∅ fun _ => True := by
  refine keeps_bind (keeps_fetchNode _) fun n hp => keeps_ite (fun _ => ?_) (fun _ => keeps_pure _ trivial)
  refine keeps_bind (keeps_setParentPage _ _) fun _ hc => ?_
  refine keeps_bind (keeps_writeLast hc (by grind)) fun _ _ => ?_
  exact keeps_bind (keeps_root _) fun _ _ => keeps_freePage hp

theorem keeps_handleUnderflow (path : List PageId) :
    ∀ page, Keeps I old ∅ (handleUnderflow txn path page : M K Unit) ∅ fun _ => True := by
  induction path with
  | nil =>
    intro page
    refine keeps_bind keeps_get fun s _ => keeps_ite (fun _ => keeps_collapseRoot _) (fun _ => keeps_pure _ trivial)
  | cons parent path ih =>
    intro page
    refine keeps_bind keeps_get fun s _ => keeps_ite (fun _ => keeps_collapseRoot _) (fun _ => ?_)
    refine keeps_bind (keeps_tryRedistribute _ _) fun moved _ => keeps_ite (fun _ => ?_) (fun _ => keeps_pure _ trivial)
    refine keeps_bind (keeps_mergeWithSibling _ _) fun _ _ => keeps_bind keeps_get fun s _ => ?_
    refine keeps_ite (fun _ => ih _) (fun _ => keeps_bind (keeps_fetchNode _) fun _ _ => ?_)
    exact keeps_ite (fun _ => ih _) (fun _ => keeps_pure _ trivial)

/-- **`remove` logs every frame it changes**, and changes none when it refuses. -/
theorem callOK_removeTx (key : K) (hs : Sync I old ∅ s) : CallOK I old (removeTx txn key) s := by
  refine Keeps.callOK (wp_findLeafPageWithPath key) fun ⟨leaf, path⟩ => ?_
  refine Keeps.callOK (m := getLeafEntries leaf) ?_ fun entries => ?_
  · unfold getLeafEntries
    rw [wp_bind]
    refine wp_post (wp_fetchNode_read leaf) fun n s' hs' => ?_
    subst hs'
    exact wp_leafEntries_read n
  cases findInLeaf entries key with
  | none => exact fun _ => rfl
  | some v =>
    refine Keeps.toCall ?_ hs
    refine keeps_bind (keeps_removeFromLeaf _ _) fun _ _ => keeps_bind keeps_get fun s _ => ?_
    refine keeps_ite (fun _ => keeps_bind (keeps_fetchNode _) fun _ _ => ?_) (fun _ => keeps_pure _ trivial)
    exact keeps_ite (fun _ => keeps_handleUnderflow _ _) (fun _ => keeps_pure _ trivial)

end Tree

/-! ### `commit` -/

/-- In step, the images copied over the frames are the frames. -/
theorem commit_frames (h : Sync I old ∅ s) {s' : Store K} (hc : walCommit txn s = .ok () s') :
    ∀ p, p ≠ HEADER_PAGE_ID → s'.page p = s.page p := by
  cases hc
  intro p hp
  have hf := h.frames p hp (by simp)
  show (s.wal.active_pages p).getD (s.page p) = s.page p
  cases ha : s.wal.active_pages p with
  | none => rfl
  | some im => rw [ha] at hf; exact hf.symm

end GSDBEngine
