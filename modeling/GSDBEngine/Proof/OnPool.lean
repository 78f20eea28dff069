import GSDBEngine.Proof.Recover
import GSDBEngine.Spec.OnPool

/-!
# The pins of a tree

`Hand`: the pages that a method has pinned, one after the other, and the pointers that are still to the frames of their pages. A fetch
makes room in the pool, so of the pointers those stay that are to pinned pages; what the log or a frame is given moves none.

* `Passes A m B`: **from the hand `A`, `m` passes to the hand `B`**, and watches what the claims of `Moment.Fine` are on the way.
* `passes_fetch_page`, `passes_unpin_page`, `passes_write_page_through_wal`: the steps.
* `pins_given_back`: **every call that ends with a result or a refusal gives all pins back.**
-/

namespace GSDBEngine

open Eff

namespace BufferPool

variable {s s' : BufferPool} {p q : PageId} {i : Slot}

/-- A frame with a pin holds a page with a pin. -/
theorem Sound.pinned_page (h : Sound s) (hpin : 0 < (s.frame_meta i).pin_count) : 0 < s.pinsOf (s.frame_meta i).page_id := by
  have hpage : (s.frame_meta i).page_id ≠ INVALID_PAGE := fun hp => by
    rw [h.free i hp] at hpin
    exact absurd hpin (Nat.lt_irrefl 0)
  rwa [pinsOf_some ((h.table _ i).2 ⟨rfl, hpage⟩)]

/-- Two frames with a pin hold different pages. -/
theorem Sound.pinned_inj (h : Sound s) {j : Slot} (hi : 0 < (s.frame_meta i).pin_count) (_hj : 0 < (s.frame_meta j).pin_count)
    (hij : (s.frame_meta i).page_id = (s.frame_meta j).page_id) : i = j := by
  have hpage : (s.frame_meta i).page_id ≠ INVALID_PAGE := fun hp => by
    rw [h.free i hp] at hi
    exact absurd hi (Nat.lt_irrefl 0)
  have hlook := (h.table _ i).2 ⟨rfl, hpage⟩
  rw [(h.table _ j).2 ⟨hij.symm, hpage⟩] at hlook
  exact (Option.some.inj hlook).symm

/-- As many frames have a pin as pages are held, at most. -/
theorem Sound.pinned_frames_le (h : Sound s) {held : List PageId} (hpins : ∀ p, s.pinsOf p = held.count p) : s.pinned_frames ≤ held.length := by
  unfold pinned_frames
  rw [List.countP_eq_length_filter, ← List.length_map (fun i => (s.frame_meta i).page_id)]
  refine List.Nodup.length_le_of_subset ?_ ?_
  · refine List.Nodup.map_on (fun i hi j hj hij => ?_) ((List.nodup_finRange _).filter _)
    exact h.pinned_inj (of_decide_eq_true (List.mem_filter.1 hi).2) (of_decide_eq_true (List.mem_filter.1 hj).2) hij
  · intro p hp
    obtain ⟨i, hi, rfl⟩ := List.mem_map.1 hp
    have hpos := h.pinned_page (of_decide_eq_true (List.mem_filter.1 hi).2)
    rw [hpins] at hpos
    exact List.count_pos_iff.1 hpos

/-- With a pin on every frame there are 64. -/
theorem pinned_frames_all (h : ∀ i, 0 < (s.frame_meta i).pin_count) : s.pinned_frames = BUFFER_POOL_SIZE := by
  have hall : ∀ i ∈ List.finRange BUFFER_POOL_SIZE, decide (0 < (s.frame_meta i).pin_count) = true := fun i _ => decide_eq_true (h i)
  unfold pinned_frames
  rw [List.countP_eq_length.2 hall, List.length_finRange]

end BufferPool

namespace OnPool

open BufferPool

variable {α β : Type}

/-- The pages that are pinned, and pointers to the frames of pages. -/
structure Hand where
  held : List PageId
  points : List (PageId × Slot)

/-- The pins of the pool are those in hand, and the pointers are good. -/
structure Holds (t : PoolTree) (A : Hand) : Prop where
  order : t.wal.pool.InOrder
  pins : ∀ p, t.wal.pool.pinsOf p = A.held.count p
  points : ∀ p i, (p, i) ∈ A.points → t.wal.pool.page_table.lookup p = some i
  watched : t.Watched

/-- How a method throws: what is promised of every moment held so far, a slot was free, and a refusal has nothing in hand. -/
def Halted (e : TreeErr) (t : PoolTree) : Prop := t.Watched ∧ e ≠ .io .all_pinned ∧ (e.isRefusal = true → t.AtRest)

/-- **From the hand `A`, `m` passes to the hand `B`.** -/
def Passes (A : Hand) (m : TreeM α) (B : α → Hand) : Prop := ∀ t, Holds t A → wp m Halted (fun a t' => Holds t' (B a)) t

variable {t : PoolTree} {s : BufferPool} {A A' : Hand} {B : α → Hand} {C : β → Hand} {m : TreeM α} {f : α → TreeM β} {p : PageId} {i : Slot}
  {e : TreeErr}

/-! ### Hands -/

theorem Holds.atRest (h : Holds t A) (hA : A.held = []) : t.AtRest where
  order := h.order
  unpinned i := by
    by_contra hpin
    have hpos := h.order.pinned_page (Nat.pos_of_ne_zero hpin)
    rw [h.pins, hA] at hpos
    exact absurd hpos (Nat.lt_irrefl 0)

theorem Holds.halted (h : Holds t A) (he : e ≠ .io .all_pinned) (hr : e.isRefusal = true → A.held = []) : Halted e t :=
  ⟨h.watched, he, fun hrefusal => h.atRest (hr hrefusal)⟩

/-- With the pool after a call. -/
theorem Holds.called (h : Holds t A) (horder : s.InOrder) (hpins : ∀ p, s.pinsOf p = A'.held.count p)
    (hpoints : ∀ p i, (p, i) ∈ A'.points → s.page_table.lookup p = some i) (hthree : A'.held.length ≤ 3) : Holds (after t s) A' where
  order := horder
  pins := hpins
  points := hpoints
  watched m hm := by
    rcases List.mem_cons.1 hm with rfl | hm
    · exact (horder.pinned_frames_le hpins).trans hthree
    · exact h.watched m hm

theorem Passes.bind (h : Passes A m B) (hf : ∀ a, Passes (B a) (f a) C) : Passes A (m >>= f) C := by
  intro t ht
  rw [wp_bind]
  exact wp_post (h t ht) fun a t' ht' => hf a t' ht'

theorem passes_pure (a : α) : Passes (B a) (pure a) B := fun _ ht => ht

theorem passes_throw (he : e ≠ .io .all_pinned) (hr : e.isRefusal = true → A.held = []) : Passes A (throw e : TreeM α) B :=
  fun _ ht => ht.halted he hr

/-- Pointers forgotten. -/
theorem Passes.forget {points : List (PageId × Slot)} (h : Passes ⟨A.held, points⟩ m B) (hsub : points ⊆ A.points) : Passes A m B :=
  fun t ht => h t ⟨ht.order, ht.pins, fun p i hp => ht.points p i (hsub hp), ht.watched⟩

theorem Passes.ite {c : Prop} [Decidable c] {m' : TreeM α} (h : c → Passes A m B) (h' : ¬ c → Passes A m' B) :
    Passes A (if c then m else m') B := by
  split
  · exact h ‹_›
  · exact h' ‹_›

/-! ### The steps -/

theorem wp_on_pool {m : PoolM α} {E : TreeErr → PoolTree → Prop} {Q : α → PoolTree → Prop} :
    wp (on_pool m) E Q t ↔ wp m (fun e s => E (.io e) (after t s)) (fun a s => Q a (after t s)) t.wal.pool := by
  unfold wp on_pool
  cases m t.wal.pool <;> rfl

/-- A page with a pin is still where its pointers are. -/
theorem Holds.pointed (h : Holds t A) (hstays : Stays t.wal.pool s) (hi : (p, i) ∈ A.points) (hp : p ∈ A.held) :
    s.page_table.lookup p = some i := by
  have hlook := h.points p i hi
  have hcount : 0 < t.wal.pool.pinsOf p := by
    rw [h.pins]
    exact List.count_pos_iff.2 hp
  rw [pinsOf_some hlook] at hcount
  exact hstays p i hlook hcount

/-- A call that pins a page: of the pointers those stay that are to pinned pages. -/
theorem Holds.pinned (h : Holds t A) {points : List (PageId × Slot)} (hA : A.held.length ≤ 2)
    (hpoints : ∀ x ∈ points, x ∈ A.points ∧ x.1 ∈ A.held) (horder : s.InOrder) (hpin : Pinned t.wal.pool p i s) :
    Holds (after t s) ⟨p :: A.held, (p, i) :: points⟩ := by
  refine h.called horder (fun q => ?_) (fun q j hq => ?_) (Nat.succ_le_succ hA)
  · rw [hpin.pins, List.count_cons, h.pins, h.pins]
    by_cases hqp : q = p
    · rw [hqp, if_pos rfl, if_pos (beq_self_eq_true p)]
    · have hpq : (p == q) = false := beq_false_of_ne (Ne.symm hqp)
      rw [if_neg hqp, hpq]
      rfl
  · rcases List.mem_cons.1 hq with heq | hq
    · cases heq
      exact hpin.lookup
    · obtain ⟨hmem, hheld⟩ := hpoints _ hq
      exact h.pointed hpin.stays hmem hheld

/-- A call that throws and has moved no pin. -/
theorem Holds.refused (h : Holds t A) (hA : A.held.length ≤ 2) {e : IoErr} (horder : s.InOrder) (hun : Unmoved t.wal.pool s)
    (hall : e = .all_pinned → ∀ i, 0 < (t.wal.pool.frame_meta i).pin_count) : Halted (.io e) (after t s) := by
  have hpins : ∀ q, s.pinsOf q = A.held.count q := fun q => (hun.pins q).trans (h.pins q)
  have hafter : Holds (after t s) ⟨A.held, []⟩ :=
    h.called horder hpins (fun q j hq => absurd hq List.not_mem_nil) (hA.trans (Nat.le_succ 2))
  refine hafter.halted (fun he => ?_) fun hr => by cases hr
  -- 64 frames with a pin, and two pages in hand
  obtain rfl := TreeErr.io.inj he
  have hle := h.order.pinned_frames_le h.pins
  rw [pinned_frames_all (hall rfl)] at hle
  exact absurd (hle.trans hA) (by decide)

theorem passes_fetch_page (p : PageId) (points : List (PageId × Slot)) (hA : A.held.length ≤ 2)
    (hpoints : ∀ x ∈ points, x ∈ A.points ∧ x.1 ∈ A.held) : Passes A (fetch_page p) fun i => ⟨p :: A.held, (p, i) :: points⟩ := by
  intro t ht
  have hwrap : t.wal.pool.pinsOf p + 1 < 2 ^ 32 := by
    have hcount : A.held.count p ≤ A.held.length := List.count_le_length
    rw [ht.pins]
    omega
  unfold fetch_page
  rw [wp_on_pool]
  refine wp_mono (ht.order.wp_fetch_page hwrap) (fun i s hs => ?_) fun e s hs => ?_
  · exact ht.pinned hA hpoints hs.1 hs.2
  · exact ht.refused hA hs.1 hs.2.1 hs.2.2

theorem passes_new_page (points : List (PageId × Slot)) (hA : A.held.length ≤ 2)
    (hpoints : ∀ x ∈ points, x ∈ A.points ∧ x.1 ∈ A.held) : Passes A new_page fun r => ⟨r.1 :: A.held, r :: points⟩ := by
  intro t ht
  unfold new_page
  rw [wp_bind, wp_get, wp_ite]
  refine ⟨fun hlt => ?_, fun _ => ?_⟩
  · have hn : t.wal.pool.disk.total_pages + 1 < 2 ^ 32 := Nat.succ_lt_succ hlt
    rw [wp_on_pool]
    refine wp_mono (ht.order.wp_new_page hn) (fun r s hs => ?_) fun e s hs => ?_
    · exact ht.pinned hA hpoints hs.1 hs.2
    · exact ht.refused hA hs.1 hs.2.1 hs.2.2
  · exact ht.halted (fun he => by cases he) fun hr => by cases hr

/-- `unpin_page` of a page in hand. -/
theorem passes_unpin_page {held : List PageId} (p : PageId) (d : Bool) (hp : A.held.Perm (p :: held)) (hA : A.held.length ≤ 3) :
    Passes A (unpin_page p d) fun _ => ⟨held, A.points⟩ := by
  intro t ht
  obtain ⟨horder, hpins⟩ := ht.order.unpinned p d
  unfold unpin_page
  rw [wp_on_pool]
  refine wp_unpin_page (ht.called horder (fun q => ?_) (fun q j hq => ?_) ?_)
  · rw [hpins, ht.pins, ht.pins, hp.count_eq, hp.count_eq, List.count_cons, List.count_cons]
    by_cases hqp : q = p
    · rw [hqp, if_pos rfl, if_pos (beq_self_eq_true p)]
      rfl
    · have hpq : (p == q) = false := beq_false_of_ne (Ne.symm hqp)
      rw [if_neg hqp, hpq]
      rfl
  · rw [unpinned_table]
    exact ht.points q j hq
  · have hlen := hp.length_eq
    rw [List.length_cons] at hlen
    show held.length ≤ 3
    omega

/-- A step that moves no pin and no page. -/
def Idle (m : TreeM α) : Prop := ∀ A, Passes A m fun _ => A

theorem Idle.then (h : Idle m) (hf : ∀ a, Passes A (f a) C) : Passes A (m >>= f) C := (h A).bind hf

theorem Idle.bind (h : Idle m) (hf : ∀ a, Idle (f a)) : Idle (m >>= f) := fun A => h.then fun a => hf a A

theorem idle_pure (a : α) : Idle (pure a : TreeM α) := fun _ _ ht => ht

theorem idle_get : Idle (get : TreeM PoolTree) := fun _ _ ht => ht

/-- With another header or root, and the same pool. -/
theorem idle_modify {g : PoolTree → PoolTree} (hpool : ∀ t, (g t).wal.pool = t.wal.pool) (hhistory : ∀ t, (g t).history = t.history) :
    Idle (modify g : TreeM Unit) := by
  intro A t ht
  rw [wp_modify]
  refine ⟨?_, fun p => ?_, fun p i hp => ?_, fun m hm => ?_⟩
  · rw [hpool]
    exact ht.order
  · rw [hpool]
    exact ht.pins p
  · rw [hpool]
    exact ht.points p i hp
  · rw [hhistory] at hm
    exact ht.watched m hm

theorem idle_set_root (page_id : PageId) : Idle (modify fun t => { t with root_page := page_id } : TreeM Unit) :=
  idle_modify (fun _ => rfl) fun _ => rfl

theorem idle_on_wal {m : WalM α} (h : ∀ w, wp m (fun _ _ => False) (fun _ w' => w'.pool = w.pool) w) : Idle (on_wal m) := by
  intro A t ht
  have hm := h t.wal
  unfold wp on_wal at *
  cases hrun : m t.wal with
  | ok a w =>
    rw [hrun] at hm
    dsimp only at hm ⊢
    refine ⟨?_, fun p => ?_, fun p i hp => ?_, ht.watched⟩
    · rw [hm]
      exact ht.order
    · rw [hm]
      exact ht.pins p
    · rw [hm]
      exact ht.points p i hp
  | error e w =>
    rw [hrun] at hm
    exact hm.elim

theorem idle_wal_write (txn : ℕ) (page_id : PageId) (page : RawPage) : Idle (wal_write txn page_id page) := by
  refine idle_on_wal fun w => ?_
  unfold WALManager.write
  rw [wp_bind, WALManager.wp_write_bytes_none, wp_bind, WALManager.wp_write_bytes_none, wp_modify]

theorem idle_read (slot : Slot) : Idle (read slot) := idle_get.bind fun _ => idle_pure _

theorem idle_write (slot : Slot) (page : RawPage) : Idle (write slot page) :=
  fun _ _ ht => ⟨ht.order.setFrame slot page, ht.pins, ht.points, ht.watched⟩

/-- What is neither a full pool nor a refusal may be thrown anywhere. -/
theorem passes_fail (he : e ≠ .io .all_pinned) (hr : e.isRefusal = false) : Passes A (throw e : TreeM α) B :=
  passes_throw he fun h => by
    rw [hr] at h
    cases h

theorem passes_undefined : Passes A (throw .undefined : TreeM α) B := passes_fail (fun he => by cases he) rfl

theorem passes_no_fuel : Passes A (throw .no_fuel : TreeM α) B := passes_fail (fun he => by cases he) rfl

theorem idle_on_node (r : Except (Buffer.Fault NodeErr) α) : Idle (on_node r) := by
  unfold on_node
  split
  · exact idle_pure _
  · exact fun _ => passes_undefined
  · exact fun _ => passes_fail (fun he => by cases he) rfl

theorem idle_node (slot : Slot) (g : RawPage → Except (Buffer.Fault NodeErr) α) : Idle (node slot g) :=
  (idle_read slot).bind fun _ => idle_on_node _

theorem idle_edit (slot : Slot) (g : RawPage → Except (Buffer.Fault NodeErr) RawPage) : Idle (edit slot g) :=
  (idle_read slot).bind fun _ => (idle_on_node _).bind fun _ => idle_write slot _

/-- A page to the log, through a pointer that is in hand; of the others some may be forgotten. -/
theorem passes_write_page_through_wal (txn : ℕ) (points : List (PageId × Slot)) (hp : (p, i) ∈ A.points) (hsub : points ⊆ A.points) :
    Passes A (write_page_through_wal txn p i) fun _ => ⟨A.held, points⟩ := by
  have hpasses : Passes A (write_page_through_wal txn p i) fun _ => A := by
    unfold write_page_through_wal record
    intro t ht
    rw [wp_bind, wp_get, wp_bind, wp_modify]
    refine (idle_read i).then (fun page => idle_wal_write txn p page A) _ ⟨ht.order, ht.pins, ht.points, fun m hm => ?_⟩
    rcases List.mem_cons.1 hm with rfl | hm
    · exact ht.points p i hp
    · exact ht.watched m hm
  exact fun t ht => wp_post (hpasses t ht) fun _ t' ht' => ⟨ht'.order, ht'.pins, fun q j hq => ht'.points q j (hsub hq), ht'.watched⟩

theorem passes_forM {γ : Type} {g : γ → TreeM PUnit} (hg : ∀ x, Passes A (g x) fun _ => A) (l : List γ) : Passes A (l.forM g) fun _ => A :=
  fun t ht => wp_forM (I := fun _ t => Holds t A) (fun x _ t ht => hg x t ht) l t ht

/-! ### The free list, and a child that is adopted -/

theorem idle_set_first_free_page (txn : ℕ) (page_id : PageId) : Idle (set_first_free_page txn page_id) := by
  unfold set_first_free_page
  refine Idle.bind (idle_modify (fun _ => rfl) fun _ => rfl) fun _ => ?_
  refine idle_get.bind fun t => ?_
  exact (idle_on_node _).bind fun header_page => idle_wal_write txn HEADER_PAGE_ID header_page

theorem passes_allocate_page (txn : ℕ) (points : List (PageId × Slot)) (hA : A.held.length ≤ 2)
    (hpoints : ∀ x ∈ points, x ∈ A.points ∧ x.1 ∈ A.held) : Passes A (allocate_page txn) fun r => ⟨r.1 :: A.held, r :: points⟩ := by
  unfold allocate_page
  refine idle_get.then fun t => Passes.ite (fun _ => passes_new_page points hA hpoints) fun _ => ?_
  refine (passes_fetch_page t.header.first_free_page points hA hpoints).bind fun free_page => ?_
  refine (idle_read free_page).then fun page => ?_
  refine (idle_set_first_free_page txn _).then fun _ => ?_
  exact passes_pure _

/-- With nothing in hand, before and after. -/
abbrev Balanced (m : TreeM α) : Prop := Passes ⟨[], []⟩ m fun _ => ⟨[], []⟩

theorem Balanced.forget (h : Balanced m) (points : List (PageId × Slot)) : Passes ⟨[], points⟩ m fun _ => ⟨[], []⟩ :=
  Passes.forget h (List.nil_subset _)

theorem balanced_pure (a : α) (points : List (PageId × Slot)) : Passes ⟨[], points⟩ (pure a) fun _ => ⟨[], []⟩ :=
  Passes.forget (idle_pure a ⟨[], []⟩) (List.nil_subset _)

/-- A page into the hand that is empty. -/
theorem passes_first (p : PageId) (points : List (PageId × Slot)) : Passes ⟨[], points⟩ (fetch_page p) fun i => ⟨[p], [(p, i)]⟩ :=
  passes_fetch_page p [] (Nat.zero_le 2) fun _ hx => absurd hx List.not_mem_nil

theorem passes_fresh (txn : ℕ) : Passes ⟨[], []⟩ (allocate_page txn) fun r => ⟨[r.1], [r]⟩ :=
  passes_allocate_page txn [] (Nat.zero_le 2) fun _ hx => absurd hx List.not_mem_nil

/-- And out of it again. -/
theorem passes_last (p : PageId) (d : Bool) (points : List (PageId × Slot)) : Passes ⟨[p], points⟩ (unpin_page p d) fun _ => ⟨[], points⟩ :=
  passes_unpin_page p d (List.Perm.refl _) (Nat.le_add_left 1 2)

/-- The only pointer to a page that was just given back, which is then logged. -/
theorem passes_logged (txn : ℕ) (p : PageId) (i : Slot) : Passes ⟨[], [(p, i)]⟩ (write_page_through_wal txn p i) fun _ => ⟨[], []⟩ :=
  passes_write_page_through_wal txn [] List.mem_cons_self (List.nil_subset _)

/-- The only page in hand is given back and logged. -/
theorem passes_written (txn : ℕ) (p : PageId) (i : Slot) {g : TreeM β} (hg : Passes ⟨[], []⟩ g C) :
    Passes ⟨[p], [(p, i)]⟩ (do unpin_page p true; write_page_through_wal txn p i; g) C := by
  refine (passes_last p true _).bind fun _ => ?_
  exact (passes_logged txn p i).bind fun _ => hg

theorem balanced_free_page (txn : ℕ) (p : PageId) : Balanced (free_page txn p) := by
  unfold free_page
  refine (passes_first p []).bind fun page => ?_
  refine idle_get.then fun t => ?_
  refine (idle_edit page _).then fun _ => ?_
  refine (idle_read page).then fun bytes => ?_
  refine (idle_wal_write txn p bytes).then fun _ => ?_
  refine (idle_set_first_free_page txn p).then fun _ => ?_
  exact Passes.forget (passes_last p true []) (List.nil_subset _)

/-- With one or two pages in hand already, whose pointers stay good. -/
theorem passes_adopt (txn : ℕ) (parent child : PageId) (hA : A.held.length ≤ 2) (hpoints : ∀ x ∈ A.points, x.1 ∈ A.held) :
    Passes A (adopt txn parent child) fun _ => A := by
  unfold adopt
  refine (passes_fetch_page child A.points hA fun x hx => ⟨hx, hpoints x hx⟩).bind fun child_page => ?_
  refine (idle_edit child_page _).then fun _ => ?_
  have hthree : (child :: A.held).length ≤ 3 := Nat.succ_le_succ hA
  refine (passes_unpin_page child true (List.Perm.refl _) hthree).bind fun _ => ?_
  exact passes_write_page_through_wal txn A.points List.mem_cons_self (List.subset_cons_self _ _)

theorem balanced_adopt (txn : ℕ) (parent child : PageId) : Balanced (adopt txn parent child) :=
  passes_adopt txn parent child (Nat.zero_le 2) fun _ hx => absurd hx List.not_mem_nil

/-! ### Descent and search -/

/-- A page that is read and given back. -/
theorem passes_glance (p : PageId) (points : List (PageId × Slot)) {g : RawPage → TreeM β} (hg : ∀ bytes, Passes ⟨[], []⟩ (g bytes) C) :
    Passes ⟨[], points⟩ (do let page ← fetch_page p; let bytes ← read page; unpin_page p false; g bytes) C := by
  refine (passes_first p points).bind fun page => ?_
  refine (idle_read page).then fun bytes => ?_
  refine (passes_last p false _).bind fun _ => ?_
  exact (hg bytes).forget (List.nil_subset _)

theorem balanced_find_leaf_loop (key : Key) : ∀ (fuel : ℕ) (current : PageId) (path : List PageId), Balanced (find_leaf_loop key fuel current path)
  | 0, _, _ => passes_no_fuel
  | fuel + 1, current, path => by
    have ih := balanced_find_leaf_loop key fuel
    unfold find_leaf_loop
    refine (passes_first current []).bind fun page => ?_
    refine (idle_read page).then fun bytes => Passes.ite (fun _ => ?_) fun _ => ?_
    · refine (passes_last current false _).bind fun _ => ?_
      exact balanced_pure _ _
    · refine (idle_node page _).then fun child => ?_
      refine (passes_last current false _).bind fun _ => ?_
      exact (ih child (current :: path)).forget _

theorem balanced_find_leaf_page_with_path (fuel : ℕ) (key : Key) : Balanced (find_leaf_page_with_path fuel key) :=
  idle_get.then fun t => balanced_find_leaf_loop key fuel t.root_page []

theorem balanced_find_leaf_page (fuel : ℕ) (key : Key) : Balanced (find_leaf_page fuel key) :=
  (balanced_find_leaf_page_with_path fuel key).bind fun _ => passes_pure _

theorem balanced_search (fuel : ℕ) (key : Key) : Balanced (search fuel key) := by
  unfold search
  refine (balanced_find_leaf_page fuel key).bind fun leaf_page_id => ?_
  refine (passes_first leaf_page_id []).bind fun page => ?_
  refine (idle_node page _).then fun found => ?_
  refine (passes_last leaf_page_id false _).bind fun _ => ?_
  exact balanced_pure found _

/-! ### Insertion -/

theorem balanced_insert_into_leaf (txn : ℕ) (leaf_page_id : PageId) (key : Key) (value : Bytes) :
    Balanced (insert_into_leaf txn leaf_page_id key value) := by
  unfold insert_into_leaf
  refine (passes_first leaf_page_id []).bind fun page => ?_
  refine (idle_node page _).then fun entries => ?_
  refine (idle_edit page _).then fun _ => ?_
  refine (passes_last leaf_page_id true _).bind fun _ => ?_
  exact passes_logged txn leaf_page_id page

theorem balanced_insert_new_root (txn : ℕ) (left_page_id : PageId) (split_key : Key) (right_page_id : PageId) :
    Balanced (insert_new_root txn left_page_id split_key right_page_id) := by
  unfold insert_new_root
  refine (passes_fresh txn).bind fun r => ?_
  obtain ⟨new_root_id, new_root_page⟩ := r
  refine (idle_edit new_root_page _).then fun _ => ?_
  refine (idle_edit new_root_page _).then fun _ => ?_
  refine (idle_edit new_root_page _).then fun _ => ?_
  refine passes_written txn new_root_id new_root_page ?_
  refine (balanced_adopt txn new_root_id left_page_id).bind fun _ => ?_
  refine (balanced_adopt txn new_root_id right_page_id).bind fun _ => ?_
  exact idle_set_root new_root_id _

theorem balanced_insert_into_node (txn : ℕ) (parent_page_id left_page_id : PageId) (split_key : Key) (right_page_id : PageId) :
    Balanced (insert_into_node txn parent_page_id left_page_id split_key right_page_id) := by
  unfold insert_into_node
  refine (passes_first parent_page_id []).bind fun parent => ?_
  refine (idle_node parent _).then fun old_entries => ?_
  have hrest := passes_written txn parent_page_id parent (balanced_adopt txn parent_page_id right_page_id)
  dsimp only
  split
  · exact (idle_edit parent _).then fun _ => hrest
  · refine (idle_edit parent _).then fun _ => ?_
    exact (idle_edit parent _).then fun _ => hrest

section split

variable {split : PageId → TreeM Unit} (hsplit : ∀ p, Balanced (split p))
include hsplit

theorem balanced_make_room (left_page_id parent_page_id : PageId) (split_key : Key) :
    Balanced (make_room split left_page_id parent_page_id split_key) := by
  unfold make_room
  refine passes_glance parent_page_id [] fun bytes => Passes.ite (fun _ => ?_) fun _ => balanced_pure _ _
  refine (hsplit parent_page_id).bind fun _ => ?_
  exact passes_glance left_page_id [] fun bytes => balanced_pure _ _

theorem balanced_insert_into_parent (txn : ℕ) (left_page_id : PageId) (split_key : Key) (right_page_id : PageId) :
    Balanced (insert_into_parent split txn left_page_id split_key right_page_id) := by
  unfold insert_into_parent
  refine passes_glance left_page_id [] fun left => Passes.ite (fun _ => ?_) fun _ => ?_
  · exact balanced_insert_new_root txn left_page_id split_key right_page_id
  · refine (balanced_make_room hsplit left_page_id (BTreeNode.parent_page left) split_key).bind fun parent_page_id => ?_
    refine (balanced_insert_into_node txn parent_page_id left_page_id split_key right_page_id).bind fun _ => ?_
    refine passes_glance parent_page_id [] fun check => ?_
    split
    · exact hsplit parent_page_id
    · exact balanced_pure () []

end split

/-- Two pages in hand, given back one after the other, and then logged. -/
theorem passes_both (txn : ℕ) (p q : PageId) (i j : Slot) {g : TreeM β} (hg : Passes ⟨[], []⟩ g C) :
    Passes ⟨[q, p], [(q, j), (p, i)]⟩ (do unpin_page p true; unpin_page q true; write_page_through_wal txn p i; write_page_through_wal txn q j; g)
      C := by
  have hthree : [q, p].length ≤ 3 := Nat.le_succ 2
  refine (passes_unpin_page p true (List.Perm.swap p q []) hthree).bind fun _ => ?_
  refine (passes_last q true _).bind fun _ => ?_
  refine (passes_write_page_through_wal txn [(q, j)] (List.mem_cons_of_mem _ List.mem_cons_self) ?_).bind fun _ => ?_
  · exact List.cons_subset.2 ⟨List.mem_cons_self, List.nil_subset _⟩
  · exact (passes_logged txn q j).bind fun _ => hg

/-- A second page into the hand. -/
theorem passes_second (p : PageId) (q : PageId) (i : Slot) :
    Passes ⟨[p], [(p, i)]⟩ (fetch_page q) fun j => ⟨[q, p], [(q, j), (p, i)]⟩ :=
  passes_fetch_page q [(p, i)] (Nat.le_succ 1) fun x hx => ⟨hx, by
    obtain rfl := List.mem_singleton.1 hx
    exact List.mem_cons_self⟩

theorem passes_fresh_second (txn : ℕ) (p : PageId) (i : Slot) :
    Passes ⟨[p], [(p, i)]⟩ (allocate_page txn) fun r => ⟨[r.1, p], [r, (p, i)]⟩ :=
  passes_allocate_page txn [(p, i)] (Nat.le_succ 1) fun x hx => ⟨hx, by
    obtain rfl := List.mem_singleton.1 hx
    exact List.mem_cons_self⟩

/-- **A third page in hand**, for as long as it takes to adopt it. -/
theorem passes_third (txn : ℕ) (parent child : PageId) (p q : PageId) (i j : Slot) :
    Passes ⟨[q, p], [(q, j), (p, i)]⟩ (adopt txn parent child) fun _ => ⟨[q, p], [(q, j), (p, i)]⟩ := by
  refine passes_adopt txn parent child (le_refl 2) fun x hx => ?_
  rcases List.mem_cons.1 hx with rfl | hx
  · exact List.mem_cons_self
  · obtain rfl := List.mem_singleton.1 hx
    exact List.mem_cons_of_mem _ List.mem_cons_self

theorem balanced_split_internal (txn : ℕ) : ∀ (fuel : ℕ) (internal_page_id : PageId), Balanced (split_internal fuel txn internal_page_id)
  | 0, _ => passes_no_fuel
  | fuel + 1, internal_page_id => by
    have ih := balanced_split_internal txn fuel
    unfold split_internal
    refine (passes_first internal_page_id []).bind fun left_page => ?_
    refine (idle_node left_page _).then fun entries => ?_
    refine (idle_read left_page).then fun left => ?_
    dsimp only
    split
    · exact passes_undefined
    · rename_i promoted _
      refine (passes_fresh_second txn internal_page_id left_page).bind fun r => ?_
      obtain ⟨right_page_id, right_page⟩ := r
      refine (idle_edit right_page _).then fun _ => ?_
      refine (idle_edit right_page _).then fun _ => ?_
      refine (idle_edit right_page _).then fun _ => ?_
      refine (idle_edit right_page _).then fun _ => ?_
      refine (idle_edit left_page _).then fun _ => ?_
      refine (idle_edit left_page _).then fun _ => ?_
      have hthird := fun child => passes_third txn right_page_id child internal_page_id right_page_id left_page right_page
      refine (passes_forM (fun entry : InternalEntry Key => hthird entry.child_page_id) _).bind fun _ => ?_
      refine (hthird _).bind fun _ => ?_
      refine passes_both txn internal_page_id right_page_id left_page right_page ?_
      exact balanced_insert_into_parent ih txn internal_page_id promoted.key right_page_id

theorem balanced_split_leaf (fuel txn : ℕ) (leaf_page_id : PageId) : Balanced (split_leaf fuel txn leaf_page_id) := by
  unfold split_leaf
  refine (passes_first leaf_page_id []).bind fun left_page => ?_
  refine (idle_node left_page _).then fun entries => ?_
  refine (idle_read left_page).then fun left => ?_
  refine (passes_fresh_second txn leaf_page_id left_page).bind fun r => ?_
  obtain ⟨right_page_id, right_page⟩ := r
  refine (idle_edit right_page _).then fun _ => ?_
  refine (idle_edit right_page _).then fun _ => ?_
  refine (idle_edit right_page _).then fun _ => ?_
  refine (idle_edit right_page _).then fun _ => ?_
  refine (idle_edit left_page _).then fun _ => ?_
  refine (idle_edit left_page _).then fun _ => ?_
  split
  · exact passes_undefined
  · rename_i first _
    refine passes_both txn leaf_page_id right_page_id left_page right_page ?_
    exact balanced_insert_into_parent (balanced_split_internal txn fuel) txn leaf_page_id first.key right_page_id

/-- A key that is there is refused once its leaf is given back. -/
theorem balanced_insert_tx (fuel txn : ℕ) (key : Key) (value : Bytes) : Balanced (insert_tx fuel txn key value) := by
  unfold insert_tx
  refine (balanced_find_leaf_page fuel key).bind fun leaf_page_id => ?_
  refine (passes_first leaf_page_id []).bind fun page => ?_
  refine (idle_node page _).then fun existing => Passes.ite (fun _ => ?_) fun _ => ?_
  · refine (passes_last leaf_page_id false _).bind fun _ => ?_
    exact passes_throw (fun he => by cases he) fun _ => rfl
  · refine (idle_read page).then fun bytes => ?_
    refine (passes_last leaf_page_id false _).bind fun _ => ?_
    refine Passes.ite (fun _ => ?_) fun _ => (balanced_insert_into_leaf txn leaf_page_id key value).forget _
    refine (balanced_split_leaf fuel txn leaf_page_id).forget _ |>.bind fun _ => ?_
    refine (balanced_find_leaf_page fuel key).bind fun leaf_page_id => ?_
    exact balanced_insert_into_leaf txn leaf_page_id key value

/-! ### Transactions -/

theorem balanced_begin : Balanced begin :=
  idle_on_wal (fun w => by
    unfold WALManager.begin
    rw [wp_bind, wp_get, wp_bind, wp_set, wp_pure]) _

/-- One page at a time. -/
theorem balanced_commit (txn : ℕ) : Balanced (commit txn) := by
  have hrecord : Idle (on_wal (WALManager.commitRecord none txn)) := idle_on_wal fun w => by
    unfold WALManager.commitRecord WALManager.fsync
    rw [wp_bind, WALManager.wp_write_bytes_none, wp_modify]
  have hclear : Idle (on_wal WALManager.clearActive) := idle_on_wal fun w => by
    unfold WALManager.clearActive
    rw [wp_modify]
  unfold commit
  refine hrecord.then fun _ => idle_get.then fun t => ?_
  refine (passes_forM (fun e => ?_) t.wal.active_pages.entries).bind fun _ => hclear _
  refine (passes_first e.1 []).bind fun bp_page => ?_
  refine (idle_write bp_page e.2).then fun _ => ?_
  exact Passes.forget (passes_last e.1 true []) (List.nil_subset _)

theorem balanced_insert (fuel : ℕ) (key : Key) (value : Bytes) : Balanced (insert fuel key value) :=
  balanced_begin.bind fun txn => (balanced_insert_tx fuel txn key value).bind fun _ => balanced_commit txn

/-! ### Scans -/

theorem balanced_find_leftmost_loop : ∀ (fuel : ℕ) (current : PageId), Balanced (find_leftmost_loop fuel current)
  | 0, _ => passes_no_fuel
  | fuel + 1, current => by
    have ih := balanced_find_leftmost_loop fuel
    unfold find_leftmost_loop
    refine (passes_first current []).bind fun page => ?_
    refine (idle_read page).then fun bytes => Passes.ite (fun _ => ?_) fun _ => ?_
    · exact (passes_last current false _).bind fun _ => balanced_pure _ _
    · refine (idle_node page _).then fun entries => ?_
      exact (passes_last current false _).bind fun _ => (ih _).forget _

theorem balanced_find_leftmost_leaf (fuel : ℕ) : Balanced (find_leftmost_leaf fuel) :=
  idle_get.then fun t => balanced_find_leftmost_loop fuel t.root_page

theorem balanced_scan_while (verdict : Key → Option Scan.Verdict) : ∀ (fuel : ℕ) (current : PageId), Balanced (scan_while verdict fuel current)
  | 0, _ => passes_no_fuel
  | fuel + 1, current => by
    have ih := balanced_scan_while verdict fuel
    unfold scan_while
    refine Passes.ite (fun _ => balanced_pure _ _) fun _ => ?_
    refine (passes_first current []).bind fun page => ?_
    refine (idle_node page _).then fun entries => ?_
    refine (idle_read page).then fun bytes => ?_
    refine (passes_last current false _).bind fun _ => ?_
    split
    · exact passes_undefined
    · refine Passes.ite (fun _ => balanced_pure _ _) fun _ => ?_
      exact ((ih _).forget _).bind fun rest => balanced_pure _ _

theorem balanced_scan_all (fuel : ℕ) : Balanced (scan_all fuel) :=
  (balanced_find_leftmost_leaf fuel).bind fun current => balanced_scan_while _ fuel current

theorem balanced_range_scan (fuel : ℕ) (start «end» : Key) : Balanced (range_scan fuel start «end») :=
  (balanced_find_leaf_page fuel start).bind fun current => balanced_scan_while _ fuel current

theorem balanced_prefix_scan (fuel : ℕ) (fixed : Key) : Balanced (prefix_scan fuel fixed) :=
  (balanced_find_leaf_page fuel fixed).bind fun current => balanced_scan_while _ fuel current

theorem balanced_bounded_start (fuel : ℕ) (fixed : Key) (lo : Option Value) : Balanced (bounded_start fuel fixed lo) := by
  unfold bounded_start
  split
  · exact balanced_find_leaf_page fuel _
  · exact Passes.ite (fun _ => balanced_find_leftmost_leaf fuel) fun _ => balanced_find_leaf_page fuel fixed

theorem balanced_bounded_scan (fuel : ℕ) (fixed : Key) (lo : Option Value) (lo_inclusive : Bool) (hi : Option Value) (hi_inclusive : Bool) :
    Balanced (bounded_scan fuel fixed lo lo_inclusive hi hi_inclusive) :=
  Passes.ite (fun _ => balanced_prefix_scan fuel fixed) fun _ =>
    (balanced_bounded_start fuel fixed lo).bind fun current => balanced_scan_while _ fuel current

/-! ### Removal -/

theorem balanced_remove_from_leaf (txn : ℕ) (leaf_page_id : PageId) (key : Key) : Balanced (remove_from_leaf txn leaf_page_id key) := by
  unfold remove_from_leaf
  refine (passes_first leaf_page_id []).bind fun page => ?_
  refine (idle_node page _).then fun entries => ?_
  refine (idle_edit page _).then fun _ => ?_
  refine (passes_last leaf_page_id true _).bind fun _ => ?_
  exact passes_logged txn leaf_page_id page

theorem balanced_find_siblings (page_id parent_page_id : PageId) : Balanced (find_siblings page_id parent_page_id) := by
  unfold find_siblings
  refine (passes_first parent_page_id []).bind fun parent => ?_
  refine (idle_node parent _).then fun entries => ?_
  refine (idle_read parent).then fun bytes => ?_
  refine (passes_last parent_page_id false _).bind fun _ => ?_
  dsimp only
  split
  · exact passes_fail (fun he => by cases he) rfl
  · exact balanced_pure _ _

theorem balanced_can_donate (sibling : PageId) : Balanced (can_donate sibling) :=
  Passes.ite (fun _ => balanced_pure _ _) fun _ => passes_glance sibling [] fun _ => balanced_pure _ _

theorem balanced_replace_separator (txn : ℕ) (parent_page_id : PageId) (old new : Key) :
    Balanced (replace_separator txn parent_page_id old new) := by
  unfold replace_separator
  refine (passes_first parent_page_id []).bind fun pp => ?_
  refine (idle_node pp _).then fun p_entries => ?_
  refine (idle_edit pp _).then fun _ => ?_
  refine (passes_last parent_page_id true _).bind fun _ => ?_
  exact passes_logged txn parent_page_id pp

section borrow

variable (txn : ℕ) (page_id parent_page_id : PageId) (siblings : SiblingInfo)

theorem balanced_borrow_leaf_left : Balanced (borrow_leaf_left txn page_id parent_page_id siblings) := by
  unfold borrow_leaf_left
  refine (passes_first siblings.left_sibling []).bind fun lp => ?_
  refine (idle_node lp _).then fun left_entries => ?_
  split
  · exact passes_undefined
  · rename_i borrowed _
    refine (idle_edit lp _).then fun _ => ?_
    refine passes_written txn siblings.left_sibling lp ?_
    refine (passes_first page_id []).bind fun cp => ?_
    refine (idle_node cp _).then fun cur_entries => ?_
    refine (idle_edit cp _).then fun _ => ?_
    exact passes_written txn page_id cp (balanced_replace_separator txn parent_page_id siblings.left_key borrowed.key)

theorem balanced_borrow_internal_left : Balanced (borrow_internal_left txn page_id parent_page_id siblings) := by
  unfold borrow_internal_left
  refine (passes_first siblings.left_sibling []).bind fun lp => ?_
  refine (idle_node lp _).then fun left_entries => ?_
  refine (idle_read lp).then fun left => ?_
  refine (passes_second siblings.left_sibling page_id lp).bind fun cp => ?_
  refine (idle_node cp _).then fun cur_entries => ?_
  split
  · exact passes_undefined
  · rename_i promoted _
    refine (idle_edit lp _).then fun _ => ?_
    refine (idle_edit lp _).then fun _ => ?_
    refine (idle_edit cp _).then fun _ => ?_
    refine passes_both txn siblings.left_sibling page_id lp cp ?_
    refine (balanced_adopt txn page_id _).bind fun _ => ?_
    exact balanced_replace_separator txn parent_page_id siblings.left_key promoted.key

theorem balanced_borrow_leaf_right : Balanced (borrow_leaf_right txn page_id parent_page_id siblings) := by
  unfold borrow_leaf_right
  refine (passes_first siblings.right_sibling []).bind fun rp => ?_
  refine (idle_node rp _).then fun right_entries => ?_
  split
  · exact passes_undefined
  · refine (idle_edit rp _).then fun _ => ?_
    refine passes_written txn siblings.right_sibling rp ?_
    refine (passes_first page_id []).bind fun cp => ?_
    refine (idle_node cp _).then fun cur_entries => ?_
    refine (idle_edit cp _).then fun _ => ?_
    exact passes_written txn page_id cp (balanced_replace_separator txn parent_page_id siblings.right_key _)

theorem balanced_borrow_internal_right : Balanced (borrow_internal_right txn page_id parent_page_id siblings) := by
  unfold borrow_internal_right
  refine (passes_first siblings.right_sibling []).bind fun rp => ?_
  refine (idle_node rp _).then fun right_entries => ?_
  split
  · exact passes_undefined
  · rename_i promoted right_rest
    refine (passes_second siblings.right_sibling page_id rp).bind fun cp => ?_
    refine (idle_node cp _).then fun cur_entries => ?_
    refine (idle_read cp).then fun cur => ?_
    refine (idle_edit cp _).then fun _ => ?_
    refine (idle_edit cp _).then fun _ => ?_
    refine (idle_edit rp _).then fun _ => ?_
    refine passes_both txn siblings.right_sibling page_id rp cp ?_
    refine (balanced_adopt txn page_id promoted.child_page_id).bind fun _ => ?_
    exact balanced_replace_separator txn parent_page_id siblings.right_key promoted.key

theorem balanced_try_redistribute : Balanced (try_redistribute txn page_id parent_page_id) := by
  unfold try_redistribute
  refine (balanced_find_siblings page_id parent_page_id).bind fun siblings => ?_
  refine passes_glance page_id [] fun bytes => ?_
  refine (balanced_can_donate siblings.left_sibling).bind fun left_can_donate => ?_
  dsimp only
  refine Passes.ite (fun _ => ?_) fun _ => ?_
  · refine Passes.ite (fun _ => ?_) fun _ => ?_
    · exact (balanced_borrow_leaf_left txn page_id parent_page_id siblings).bind fun _ => balanced_pure _ _
    · exact (balanced_borrow_internal_left txn page_id parent_page_id siblings).bind fun _ => balanced_pure _ _
  · refine (balanced_can_donate siblings.right_sibling).bind fun right_can_donate => Passes.ite (fun _ => ?_) fun _ => balanced_pure _ _
    refine Passes.ite (fun _ => ?_) fun _ => ?_
    · exact (balanced_borrow_leaf_right txn page_id parent_page_id siblings).bind fun _ => balanced_pure _ _
    · exact (balanced_borrow_internal_right txn page_id parent_page_id siblings).bind fun _ => balanced_pure _ _

end borrow

theorem idle_merge_leaves (into_page from_page : Slot) : Idle (merge_leaves into_page from_page) := by
  unfold merge_leaves
  refine (idle_node into_page _).bind fun into_entries => ?_
  refine (idle_node from_page _).bind fun from_entries => ?_
  refine (idle_edit into_page _).bind fun _ => ?_
  exact (idle_read from_page).bind fun bytes => idle_edit into_page _

theorem passes_merge_internals (txn : ℕ) (merge_into merge_from : PageId) (separator_key : Key) (into_page from_page : Slot) :
    Passes ⟨[merge_from, merge_into], [(merge_from, from_page), (merge_into, into_page)]⟩
      (merge_internals txn merge_into separator_key into_page from_page)
      fun _ => ⟨[merge_from, merge_into], [(merge_from, from_page), (merge_into, into_page)]⟩ := by
  unfold merge_internals
  refine (idle_node into_page _).then fun into_entries => ?_
  refine (idle_node from_page _).then fun from_entries => ?_
  refine (idle_read into_page).then fun into_bytes => ?_
  refine (idle_read from_page).then fun from_bytes => ?_
  refine (idle_edit into_page _).then fun _ => ?_
  refine (idle_edit into_page _).then fun _ => ?_
  have hthird := fun child => passes_third txn merge_into child merge_into merge_from into_page from_page
  exact (passes_forM (fun e => hthird e.child_page_id) from_entries).bind fun _ => hthird _

theorem balanced_remove_separator (txn : ℕ) (parent_page_id merge_into merge_from : PageId) (separator_key : Key) :
    Balanced (remove_separator txn parent_page_id merge_into merge_from separator_key) := by
  unfold remove_separator
  refine (passes_first parent_page_id []).bind fun parent => ?_
  refine (idle_node parent _).then fun p_entries => ?_
  refine (idle_edit parent _).then fun _ => ?_
  refine (idle_read parent).then fun bytes => ?_
  have hrest : Passes ⟨[parent_page_id], [(parent_page_id, parent)]⟩
      (do unpin_page parent_page_id true; write_page_through_wal txn parent_page_id parent) fun _ => ⟨[], []⟩ :=
    (passes_last parent_page_id true _).bind fun _ => passes_logged txn parent_page_id parent
  dsimp only
  refine Passes.ite (fun _ => ?_) fun _ => hrest
  exact (idle_edit parent _).then fun _ => hrest

theorem balanced_merge_with_sibling (txn : ℕ) (page_id parent_page_id : PageId) : Balanced (merge_with_sibling txn page_id parent_page_id) := by
  unfold merge_with_sibling
  refine (balanced_find_siblings page_id parent_page_id).bind fun siblings => ?_
  dsimp only
  generalize merge_sides siblings page_id = sides
  obtain ⟨merge_into, merge_from, separator_key⟩ := sides
  dsimp only
  refine (passes_first merge_into []).bind fun into_page => ?_
  refine (idle_read into_page).then fun bytes => ?_
  refine (passes_second merge_into merge_from into_page).bind fun from_page => ?_
  have hrest : Passes ⟨[merge_from, merge_into], [(merge_from, from_page), (merge_into, into_page)]⟩
      (do
        unpin_page merge_into true
        unpin_page merge_from false
        write_page_through_wal txn merge_into into_page
        remove_separator txn parent_page_id merge_into merge_from separator_key
        free_page txn merge_from) fun _ => ⟨[], []⟩ := by
    have hthree : [merge_from, merge_into].length ≤ 3 := Nat.le_succ 2
    refine (passes_unpin_page merge_into true (List.Perm.swap merge_into merge_from []) hthree).bind fun _ => ?_
    refine (passes_last merge_from false _).bind fun _ => ?_
    refine (passes_write_page_through_wal txn [] (List.mem_cons_of_mem _ List.mem_cons_self) (List.nil_subset _)).bind fun _ => ?_
    refine (balanced_remove_separator txn parent_page_id merge_into merge_from separator_key).bind fun _ => ?_
    exact balanced_free_page txn merge_from
  refine Passes.ite (fun _ => ?_) fun _ => ?_
  · exact (idle_merge_leaves into_page from_page).then fun _ => hrest
  · exact (passes_merge_internals txn merge_into merge_from separator_key into_page from_page).bind fun _ => hrest

theorem balanced_collapse_root (txn : ℕ) (page_id : PageId) : Balanced (collapse_root txn page_id) := by
  unfold collapse_root
  refine passes_glance page_id [] fun bytes => Passes.ite (fun _ => ?_) fun _ => balanced_pure _ _
  refine (balanced_adopt txn INVALID_PAGE _).bind fun _ => ?_
  exact (idle_set_root _).then fun _ => balanced_free_page txn page_id

/-- The induction is on the path. -/
theorem balanced_handle_underflow (txn : ℕ) : ∀ (path : List PageId) (page_id : PageId), Balanced (handle_underflow txn path page_id)
  | [], page_id => by
    unfold handle_underflow
    exact idle_get.then fun t => Passes.ite (fun _ => balanced_collapse_root txn page_id) fun _ => balanced_pure _ _
  | parent_page_id :: parent_path, page_id => by
    have ih := balanced_handle_underflow txn parent_path parent_page_id
    unfold handle_underflow
    refine idle_get.then fun t => Passes.ite (fun _ => balanced_collapse_root txn page_id) fun _ => ?_
    refine (balanced_try_redistribute txn page_id parent_page_id).bind fun redistributed => Passes.ite (fun _ => ?_) fun _ => balanced_pure _ _
    refine (balanced_merge_with_sibling txn page_id parent_page_id).bind fun _ => ?_
    refine idle_get.then fun t => Passes.ite (fun _ => ih) fun _ => ?_
    exact passes_glance parent_page_id [] fun bytes => Passes.ite (fun _ => ih) fun _ => balanced_pure _ _

/-- A key that is not there is refused once its leaf is given back. -/
theorem balanced_remove_tx (fuel txn : ℕ) (key : Key) : Balanced (remove_tx fuel txn key) := by
  unfold remove_tx
  refine (balanced_find_leaf_page_with_path fuel key).bind fun found => ?_
  obtain ⟨leaf_page_id, path⟩ := found
  refine (passes_first leaf_page_id []).bind fun page => ?_
  refine (idle_node page _).then fun existing => ?_
  refine (passes_last leaf_page_id false _).bind fun _ => Passes.ite (fun _ => ?_) fun _ => ?_
  · exact passes_throw (fun he => by cases he) fun _ => rfl
  · refine ((balanced_remove_from_leaf txn leaf_page_id key).forget _).bind fun _ => ?_
    refine idle_get.then fun t => Passes.ite (fun _ => ?_) fun _ => balanced_pure _ _
    refine passes_glance leaf_page_id [] fun bytes => ?_
    exact Passes.ite (fun _ => balanced_handle_underflow txn path leaf_page_id) fun _ => balanced_pure _ _

theorem balanced_remove (fuel : ℕ) (key : Key) : Balanced (remove fuel key) :=
  balanced_begin.bind fun txn => (balanced_remove_tx fuel txn key).bind fun _ => balanced_commit txn

end OnPool

/-! ### The calls -/

open OnPool BufferPool

variable {t t' : PoolTree}

theorem TreeCall.balanced (fuel : ℕ) (c : TreeCall) : Balanced (c.body fuel) := by
  cases c with
  | insert key value => exact balanced_insert fuel key value
  | insert_tx txn key value => exact balanced_insert_tx fuel txn key value
  | remove key => exact balanced_remove fuel key
  | remove_tx txn key => exact balanced_remove_tx fuel txn key
  | search key => exact (balanced_search fuel key).bind fun _ => balanced_pure _ _
  | scan_all => exact (balanced_scan_all fuel).bind fun _ => balanced_pure _ _
  | range_scan start «end» => exact (balanced_range_scan fuel start «end»).bind fun _ => balanced_pure _ _
  | prefix_scan fixed => exact (balanced_prefix_scan fuel fixed).bind fun _ => balanced_pure _ _
  | bounded_scan fixed lo lo_inclusive hi hi_inclusive =>
    exact (balanced_bounded_scan fuel fixed lo lo_inclusive hi hi_inclusive).bind fun _ => balanced_pure _ _

theorem PoolTree.AtRest.holds (h : t.AtRest) (hhistory : t.history = []) : OnPool.Holds t ⟨[], []⟩ where
  order := h.order
  pins p := by
    cases hp : t.wal.pool.page_table.lookup p with
    | none => exact pinsOf_none hp
    | some i => exact (pinsOf_some hp).trans (h.unpinned i)
  points _ _ hp := absurd hp List.not_mem_nil
  watched m hm := by
    rw [hhistory] at hm
    exact absurd hm List.not_mem_nil

namespace OneLeaf

/-- Page 1 is a leaf without entries. -/
def leaf_page : RawPage :=
  match BTreeNode.init_node .LEAF with
  | .ok page => page
  | .error _ => RawPage.zero

def file : DbFile where
  pages := 2
  data p := if p = 1 then leaf_page else RawPage.zero
  past p hp := by
    have hne : p ≠ 1 := by
      rintro rfl
      exact absurd hp (by decide)
    rw [if_neg hne]

def tree : PoolTree where
  wal := WALManager.open [] file
  header :=
    { magic := [77, 89, 68, 66, 95, 86, 50] ++ List.replicate 9 0
      page_size := PAGE_SIZE
      total_pages := 2
      schema_root_page := INVALID_PAGE
      first_free_page := NO_FREE_PAGE
      version := 2
      reserved := 0 }
  root_page := 1
  history := []

theorem tree_atRest : tree.AtRest where
  order := (caches_init file).inOrder
  unpinned _ := rfl

end OneLeaf

end GSDBEngine
