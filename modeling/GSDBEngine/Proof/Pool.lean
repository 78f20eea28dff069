import GSDBEngine.Spec.PoolRun
import GSDBEngine.Lib.Eff

/-!
# The pool caches the file

`Caches s n c U`: the pool `s` stands for the contents `c` of `n` pages, in frames where a page
has one and in the file otherwise, but for the pages `U` that are being written to. Evicting a
slot that has no pin, loading a page, and giving a slot a new place in the LRU list keep it; that
the tables are in order they keep whatever the frames hold.

* `InOrder.evicted`, `InOrder.occupied`, `InOrder.pushed`: the three changes, on the tables.
* `Caches.evicted`, `Caches.occupied`, `Caches.pushed`: on the contents.
* `wp_fetch_page`, `wp_new_page`, `wp_flush_page`, `wp_flush_all`: the methods.
-/

namespace GSDBEngine

namespace BufferPool

open Eff

variable {s s' : BufferPool} {n : ℕ} {c : PageId → RawPage} {U : PageId → Prop} {p q : PageId} {i j : Slot} {page : RawPage}

structure Caches (s : BufferPool) (n : ℕ) (c : PageId → RawPage) (U : PageId → Prop) : Prop extends Sound s where
  fresh : ∀ m ∈ s.lru_list, m.node < s.next_node
  total : s.disk.total_pages = n
  in_file : ∀ p i, s.page_table.lookup p = some i → p < n
  frame : ∀ p i, s.page_table.lookup p = some i → s.frames i = c p
  clean : ∀ p i, s.page_table.lookup p = some i → (s.frame_meta i).is_dirty = false → ¬ U p → s.disk.file.data p = c p
  away : ∀ p, s.page_table.lookup p = none → p < n → s.disk.file.data p = c p
  pinned : ∀ p, U p → ∃ i, s.page_table.lookup p = some i ∧ 0 < (s.frame_meta i).pin_count

/-- The pins of a page. -/
def pinsOf (s : BufferPool) (p : PageId) : ℕ :=
  match s.page_table.lookup p with
  | some i => (s.frame_meta i).pin_count
  | none => 0

/-- A page with a pin is where it was. -/
def Stays (s s' : BufferPool) : Prop :=
  ∀ p i, s.page_table.lookup p = some i → 0 < (s.frame_meta i).pin_count → s'.page_table.lookup p = some i

/-- The page is cached and dirty. -/
def DirtyAt (s : BufferPool) (p : PageId) : Prop := ∃ i, s.page_table.lookup p = some i ∧ (s.frame_meta i).is_dirty = true

/-- The page is in the slot that is evicted next. -/
def Victim (s : BufferPool) (p : PageId) : Prop := ∃ i, s.victim = some i ∧ s.page_table.lookup p = some i

/-- Of the dirty pages, at most one of `V` goes to the file, and is clean then. -/
inductive WrittenBack (s : BufferPool) (c : PageId → RawPage) (V : PageId → Prop) (s' : BufferPool) : Prop
  | none : s'.disk = s.disk → (∀ q, DirtyAt s' q ↔ DirtyAt s q) → WrittenBack s c V s'
  | page (p : PageId) : V p → DirtyAt s p → s'.disk = s.disk.pwrite p (c p) →
      (∀ q, DirtyAt s' q ↔ DirtyAt s q ∧ q ≠ p) → WrittenBack s c V s'

/-- What an eviction does to the file: the page that is evicted is written, if it was dirty. -/
abbrev Spills (s : BufferPool) (c : PageId → RawPage) (s' : BufferPool) : Prop := WrittenBack s c (Victim s) s'

/-- What a fetch does to the file: a slot is evicted if the page has none. -/
def Loads (s : BufferPool) (c : PageId → RawPage) (p : PageId) (s' : BufferPool) : Prop :=
  WrittenBack s c (fun q => s.page_table.lookup p = none ∧ Victim s q) s'

theorem WrittenBack.mono {V V' : PageId → Prop} (h : WrittenBack s c V s') (hV : ∀ q, V q → V' q) : WrittenBack s c V' s' := by
  cases h with
  | none hd hdirty => exact .none hd hdirty
  | page p hv hp hd hdirty => exact .page p (hV p hv) hp hd hdirty

/-- A page that is clean in the pool, with the same bytes in the file. -/
structure Untouched (s s' : BufferPool) (q : PageId) : Prop where
  data : s'.disk.file.data q = s.disk.file.data q
  clean : ¬ DirtyAt s' q

theorem WrittenBack.untouched {V : PageId → Prop} (h : WrittenBack s c V s') (hq : ¬ DirtyAt s q) : Untouched s s' q := by
  cases h with
  | none hd hdirty => exact ⟨by rw [hd], fun hq' => hq ((hdirty q).1 hq')⟩
  | page p hv hp hd hdirty =>
    have hqp : q ≠ p := fun hqp => hq (hqp ▸ hp)
    refine ⟨?_, fun hq' => hq ((hdirty q).1 hq').1⟩
    rw [hd]
    exact Function.update_of_ne hqp ..

/-- Writing a page back does not make the file longer. -/
theorem WrittenBack.pages {V : PageId → Prop} (h : WrittenBack s c V s') (hc : Caches s n c U) :
    s'.disk.file.pages = s.disk.file.pages := by
  cases h with
  | none hd hdirty => rw [hd]
  | page p hv hp hd hdirty =>
    obtain ⟨i, hi, -⟩ := hp
    have hlt := hc.in_file p i hi
    rw [← hc.total] at hlt
    rw [hd]
    show max s.disk.file.pages (p + 1) = s.disk.file.pages
    exact max_eq_left (hlt.trans_le s.disk.covered)

theorem Untouched.trans {s'' : BufferPool} (h : Untouched s s' q) (h' : Untouched s' s'' q) : Untouched s s'' q :=
  ⟨h'.data.trans h.data, h'.clean⟩

theorem pinsOf_some (h : s.page_table.lookup p = some i) : s.pinsOf p = (s.frame_meta i).pin_count := by
  simp [pinsOf, h]

theorem pinsOf_none (h : s.page_table.lookup p = none) : s.pinsOf p = 0 := by
  simp [pinsOf, h]

theorem Sound.slot_unique (h : Sound s) (hp : s.page_table.lookup p = some i) (hq : s.page_table.lookup q = some i) : p = q :=
  ((h.table p i).1 hp).1.symm.trans ((h.table q i).1 hq).1

theorem Sound.ne_invalid (h : Sound s) (hp : s.page_table.lookup p = some i) : p ≠ INVALID_PAGE := ((h.table p i).1 hp).2

/-- A free slot holds no page. -/
theorem Sound.not_cached (h : Sound s) (hfree : s.frame_meta i = {}) (q : PageId) : s.page_table.lookup q ≠ some i := fun hq => by
  have hid := ((h.table q i).1 hq).1
  rw [hfree] at hid
  exact h.ne_invalid hq hid.symm

theorem Caches.inOrder (h : Caches s n c U) : InOrder s where
  toSound := h.toSound
  fresh := h.fresh
  in_file p i hp := by
    rw [h.total]
    exact h.in_file p i hp

/-! ### Eviction -/

/-- The pool after `evict_frame`. -/
def evicted (s : BufferPool) (i : Slot) : BufferPool :=
  let old := s.frame_meta i
  (BufferPool.setMeta
    { s with
      disk := if old.page_id ≠ INVALID_PAGE ∧ old.is_dirty = true then s.disk.pwrite old.page_id (s.frames i) else s.disk
      page_table := if old.page_id ≠ INVALID_PAGE then s.page_table.erase old.page_id else s.page_table } i {}).setFrame i RawPage.zero

section wp

variable {E : IoErr → BufferPool → Prop}

theorem wp_writePage {Q : PUnit → BufferPool → Prop} (h : p < s.disk.total_pages)
    (hQ : Q ⟨⟩ { s with disk := s.disk.pwrite p page }) : wp (writePage p page) E Q s := by
  have hd : s.disk.write_page p page = .ok (s.disk.pwrite p page) := by simp [DiskManager.write_page, h]
  unfold writePage
  rw [wp_bind, wp_get, hd]
  exact hQ

theorem InOrder.wp_evict_frame (h : InOrder s) (i : Slot) : wp (evict_frame i) E (fun _ s' => s' = s.evicted i) s := by
  unfold evict_frame
  rw [wp_bind, wp_get]
  by_cases hp : (s.frame_meta i).page_id = INVALID_PAGE
  · simp [hp, evicted]
  · have hlt : (s.frame_meta i).page_id < s.disk.total_pages := h.in_file _ i ((h.table _ i).2 ⟨rfl, hp⟩)
    by_cases hd : (s.frame_meta i).is_dirty = true
    · simp only [hp, hd, ne_eq, not_false_eq_true, if_true]
      rw [wp_bind]
      refine wp_writePage hlt ?_
      simp [evicted, hp, hd]
    · simp [hp, hd, evicted]

end wp

@[simp] theorem evicted_meta (s : BufferPool) (i j : Slot) :
    (s.evicted i).frame_meta j = if j = i then {} else s.frame_meta j := Function.update_apply ..

@[simp] theorem evicted_frames (s : BufferPool) (i j : Slot) :
    (s.evicted i).frames j = if j = i then RawPage.zero else s.frames j := Function.update_apply ..

theorem Sound.evicted_lookup (h : Sound s) (i : Slot) (p : PageId) :
    (s.evicted i).page_table.lookup p = if s.page_table.lookup p = some i then none else s.page_table.lookup p := by
  show AList.lookup p (if (s.frame_meta i).page_id ≠ INVALID_PAGE then _ else _) = _
  by_cases hi : (s.frame_meta i).page_id = INVALID_PAGE
  · have hne : s.page_table.lookup p ≠ some i := fun hp => h.ne_invalid hp (((h.table p i).1 hp).1.symm.trans hi)
    simp [hi, hne]
  · have hold := (h.table _ i).2 ⟨rfl, hi⟩
    rw [if_pos hi]
    by_cases hp : p = (s.frame_meta i).page_id
    · rw [hp, if_pos hold, AList.lookup_erase]
    · rw [AList.lookup_erase_ne hp, if_neg fun hpi => hp (h.slot_unique hpi hold)]

/-- The page in the slot is in the file now. -/
theorem Caches.evicted_data (h : Caches s n c U) (hpin : (s.frame_meta i).pin_count = 0) (p : PageId) :
    (s.evicted i).disk.file.data p = if s.page_table.lookup p = some i then c p else s.disk.file.data p := by
  have hnot : ∀ q, s.page_table.lookup q = some i → ¬ U q := fun q hq hU => by
    obtain ⟨j, hj, hpos⟩ := h.pinned q hU
    rw [hq] at hj; cases hj
    omega
  show (if _ ∧ _ then _ else _ : DiskManager).file.data p = _
  split
  · rename_i hdirty
    have hold := (h.table _ i).2 ⟨rfl, hdirty.1⟩
    show Function.update s.disk.file.data _ _ p = _
    by_cases hp : p = (s.frame_meta i).page_id
    · rw [hp, Function.update_self, if_pos hold, h.frame _ i hold]
    · rw [Function.update_of_ne hp, if_neg fun hpi => hp (h.toSound.slot_unique hpi hold)]
  · rename_i hclean
    split
    · rename_i hp
      refine h.clean p i hp ?_ (hnot p hp)
      by_contra hd
      exact hclean ⟨by rw [((h.table p i).1 hp).1]; exact h.ne_invalid hp, by simpa using hd⟩
    · rfl

theorem evicted_total (s : BufferPool) (i : Slot) : (s.evicted i).disk.total_pages = s.disk.total_pages := by
  show (if _ ∧ _ then _ else _ : DiskManager).total_pages = _
  split <;> rfl

theorem Sound.evicted_some (h : Sound s) (p : PageId) (j : Slot) :
    (s.evicted i).page_table.lookup p = some j ↔ s.page_table.lookup p = some j ∧ j ≠ i := by
  rw [h.evicted_lookup]
  split
  · rename_i hp
    simp [hp, eq_comm]
  · rename_i hp
    exact ⟨fun hj => ⟨hj, fun hji => hp (hji ▸ hj)⟩, fun hj => hj.1⟩

/-- **An eviction keeps the tables in order.** -/
theorem InOrder.evicted (h : InOrder s) (i : Slot) : InOrder (s.evicted i) := by
  refine ⟨⟨fun p j => ?_, fun j hj => ?_, h.slots, h.nodes, h.lru_map⟩, h.fresh, fun p j hp => ?_⟩
  · rw [h.evicted_some, evicted_meta, h.table]
    split
    · simp_all [eq_comm]
    · simp_all
  · rw [evicted_meta] at hj ⊢
    split
    · rfl
    · rename_i hji
      exact h.free j (by rwa [if_neg hji] at hj)
  · rw [evicted_total]
    exact h.in_file p j ((h.evicted_some p j).1 hp).1

/-- **An eviction keeps the contents.** -/
theorem Caches.evicted (h : Caches s n c U) (hpin : (s.frame_meta i).pin_count = 0) : Caches (s.evicted i) n c U := by
  have hlook := h.toSound.evicted_lookup i
  have hsome := h.toSound.evicted_some (i := i)
  refine ⟨(h.inOrder.evicted i).toSound, h.fresh, (evicted_total s i).trans h.total, fun p j hp => ?_, fun p j hp => ?_,
    fun p j hp hd hU => ?_, fun p hp hlt => ?_, fun p hU => ?_⟩
  · exact h.in_file p j ((hsome p j).1 hp).1
  · obtain ⟨hp, hji⟩ := (hsome p j).1 hp
    rw [evicted_frames, if_neg hji]
    exact h.frame p j hp
  · obtain ⟨hp, hji⟩ := (hsome p j).1 hp
    rw [evicted_meta, if_neg hji] at hd
    rw [h.evicted_data hpin, if_neg (by rw [hp]; simpa using hji)]
    exact h.clean p j hp hd hU
  · rw [h.evicted_data hpin]
    split
    · rfl
    · rename_i hpi
      rw [hlook, if_neg hpi] at hp
      exact h.away p hp hlt
  · obtain ⟨j, hj, hpos⟩ := h.pinned p hU
    have hji : j ≠ i := fun hji => by rw [hji, hpin] at hpos; exact Nat.lt_irrefl _ hpos
    exact ⟨j, (hsome p j).2 ⟨hj, hji⟩, by rw [evicted_meta, if_neg hji]; exact hpos⟩

theorem Sound.evicted_stays (h : Sound s) (hpin : (s.frame_meta i).pin_count = 0) : Stays s (s.evicted i) := by
  intro p j hp hpos
  have hji : j ≠ i := fun hji => by rw [hji, hpin] at hpos; exact Nat.lt_irrefl _ hpos
  rw [h.evicted_lookup, if_neg (by rw [hp]; simpa using hji), hp]

theorem Sound.evicted_pins (h : Sound s) (hpin : (s.frame_meta i).pin_count = 0) (p : PageId) :
    (s.evicted i).pinsOf p = s.pinsOf p := by
  cases hp : s.page_table.lookup p with
  | none =>
    rw [pinsOf_none hp, pinsOf_none]
    rw [h.evicted_lookup, hp]; simp
  | some j =>
    rw [pinsOf_some hp]
    by_cases hji : j = i
    · subst hji
      rw [hpin, pinsOf_none]
      rw [h.evicted_lookup, if_pos hp]
    · rw [pinsOf_some (i := j), evicted_meta, if_neg hji]
      rw [h.evicted_lookup, if_neg (by rw [hp]; simpa using hji), hp]

theorem victim_pin (h : s.victim = some i) : (s.frame_meta i).pin_count = 0 := by
  obtain ⟨m, hm, rfl⟩ := Option.map_eq_some_iff.1 h
  simpa using List.find?_some hm

theorem Sound.victim_none (h : Sound s) (hv : s.victim = none) (i : Slot) : 0 < (s.frame_meta i).pin_count := by
  have hi : i ∈ s.lru_list.map LruNode.slot := h.slots.mem_iff.2 (List.mem_finRange i)
  obtain ⟨m, hm, rfl⟩ := List.mem_map.1 hi
  have hnone := List.find?_eq_none.1 (Option.map_eq_none_iff.1 hv) m (List.mem_reverse.2 hm)
  exact Nat.pos_of_ne_zero (by simpa using hnone)

/-- What the eviction of a slot does to the file. -/
theorem Caches.spills (h : Caches s n c U) (hv : s.victim = some i) : Spills s c (s.evicted i) := by
  have hdirty : ∀ q, DirtyAt (s.evicted i) q ↔ DirtyAt s q ∧ s.page_table.lookup q ≠ some i := fun q => by
    unfold DirtyAt
    rw [h.toSound.evicted_lookup]
    split
    · rename_i hq
      simp [hq]
    · rename_i hq
      constructor
      · rintro ⟨j, hj, hd⟩
        have hji : j ≠ i := fun hji => hq (hji ▸ hj)
        rw [evicted_meta, if_neg hji] at hd
        exact ⟨⟨j, hj, hd⟩, hq⟩
      · rintro ⟨⟨j, hj, hd⟩, -⟩
        have hji : j ≠ i := fun hji => hq (hji ▸ hj)
        exact ⟨j, hj, by rw [evicted_meta, if_neg hji]; exact hd⟩
  by_cases hd : (s.frame_meta i).page_id ≠ INVALID_PAGE ∧ (s.frame_meta i).is_dirty = true
  · have hold := (h.table _ i).2 ⟨rfl, hd.1⟩
    refine .page (s.frame_meta i).page_id ⟨i, hv, hold⟩ ⟨i, hold, hd.2⟩ ?_ fun q => ?_
    · rw [← h.frame _ i hold]
      exact if_pos hd
    · rw [hdirty]
      refine and_congr_right fun _ => not_congr ⟨fun hq => h.toSound.slot_unique hq hold, fun hq => ?_⟩
      rw [hq]
      exact hold
  · refine .none (if_neg hd) fun q => ?_
    rw [hdirty]
    refine and_iff_left_of_imp ?_
    rintro ⟨j, hj, hdj⟩ hq
    rw [hj] at hq; cases hq
    exact hd ⟨by rw [((h.table q i).1 hj).1]; exact h.ne_invalid hj, hdj⟩

/-- `evict_slot`: a slot without a pin is emptied, or there is none. -/
theorem InOrder.wp_evict_slot (h : InOrder s) :
    wp evict_slot (fun e s' => s' = s ∧ e = .all_pinned ∧ ∀ i, 0 < (s.frame_meta i).pin_count)
      (fun i s' => s.victim = some i ∧ (s.frame_meta i).pin_count = 0 ∧ s' = s.evicted i) s := by
  unfold evict_slot
  rw [wp_bind, wp_get]
  cases hv : s.victim with
  | none => exact ⟨rfl, rfl, h.toSound.victim_none hv⟩
  | some i =>
    dsimp only
    rw [wp_bind]
    exact wp_post (h.wp_evict_frame i) fun _ s' hs' => ⟨rfl, victim_pin hv, hs'⟩

theorem Caches.wp_evict_slot (h : Caches s n c U) :
    wp evict_slot (fun e s' => s' = s ∧ e = .all_pinned ∧ ∀ i, 0 < (s.frame_meta i).pin_count)
      (fun i s' => (s.frame_meta i).pin_count = 0 ∧ s' = s.evicted i ∧ Spills s c s') s := by
  refine wp_post h.inOrder.wp_evict_slot fun i s' hs' => ?_
  obtain ⟨hv, hpin, rfl⟩ := hs'
  exact ⟨hpin, rfl, h.spills hv⟩

/-! ### A page into a slot -/

/-- The pool after `occupy`. -/
def occupied (s : BufferPool) (p : PageId) (i : Slot) : BufferPool :=
  { s.setMeta i { page_id := p, is_dirty := false, pin_count := 1 } with page_table := s.page_table.insert p i }

@[simp] theorem occupied_meta (s : BufferPool) (p : PageId) (i j : Slot) : (s.occupied p i).frame_meta j =
    if j = i then { page_id := p, is_dirty := false, pin_count := 1 } else s.frame_meta j := Function.update_apply ..

theorem occupied_lookup (s : BufferPool) (p q : PageId) (i : Slot) :
    (s.occupied p i).page_table.lookup q = if q = p then some i else s.page_table.lookup q := by
  show AList.lookup q (s.page_table.insert p i) = _
  split
  · rename_i hqp
    rw [hqp, AList.lookup_insert]
  · rename_i hqp
    rw [AList.lookup_insert_ne hqp]

theorem Sound.occupied_some (h : Sound s) (hfree : s.frame_meta i = {}) (hnone : s.page_table.lookup p = none) (q : PageId) (j : Slot) :
    (s.occupied p i).page_table.lookup q = some j ↔ q = p ∧ j = i ∨ s.page_table.lookup q = some j ∧ j ≠ i := by
  rw [occupied_lookup]
  by_cases hqp : q = p
  · subst hqp
    simp [hnone, eq_comm]
  · rw [if_neg hqp]
    refine ⟨fun hq => Or.inr ⟨hq, fun hji => h.not_cached hfree q (hji ▸ hq)⟩, ?_⟩
    rintro (⟨hq, -⟩ | ⟨hq, -⟩)
    · exact absurd hq hqp
    · exact hq

/-- **A page that is not cached, into a free slot.** -/
theorem InOrder.occupied (h : InOrder s) (hfree : s.frame_meta i = {}) (hnone : s.page_table.lookup p = none)
    (hlt : p < s.disk.total_pages) (hp : p ≠ INVALID_PAGE) : InOrder (s.occupied p i) := by
  have hlook := h.occupied_some hfree hnone
  refine ⟨⟨fun q j => ?_, fun j hj => ?_, h.slots, h.nodes, h.lru_map⟩, h.fresh, fun q j hq => ?_⟩
  · rw [hlook, occupied_meta, h.table]
    by_cases hji : j = i
    · subst hji
      rw [if_pos rfl]
      constructor
      · rintro (⟨rfl, -⟩ | ⟨-, hne⟩)
        · exact ⟨rfl, hp⟩
        · exact absurd rfl hne
      · exact fun hq => Or.inl ⟨hq.1.symm, rfl⟩
    · simp [hji]
  · rw [occupied_meta] at hj ⊢
    split
    · rename_i hji
      rw [if_pos hji] at hj
      exact absurd hj hp
    · rename_i hji
      exact h.free j (by rwa [if_neg hji] at hj)
  · rcases (hlook q j).1 hq with ⟨rfl, -⟩ | ⟨hq, -⟩
    · exact hlt
    · exact h.in_file q j hq

/-- The same where the slot holds the contents of the page. -/
theorem Caches.occupied (h : Caches s n c U) (hfree : s.frame_meta i = {}) (hnone : s.page_table.lookup p = none) (hlt : p < n)
    (hp : p ≠ INVALID_PAGE) (hframe : s.frames i = c p) : Caches (s.occupied p i) n c U := by
  have hnot := h.toSound.not_cached hfree
  have hlook := h.toSound.occupied_some hfree hnone
  have hin : p < s.disk.total_pages := hlt.trans_eq h.total.symm
  refine ⟨(h.inOrder.occupied hfree hnone hin hp).toSound, h.fresh, h.total, fun q j hq => ?_, fun q j hq => ?_, fun q j hq hd hU => ?_,
    fun q hq hlt' => ?_, fun q hU => ?_⟩
  · rcases (hlook q j).1 hq with ⟨rfl, -⟩ | ⟨hq, -⟩
    · exact hlt
    · exact h.in_file q j hq
  · rcases (hlook q j).1 hq with ⟨rfl, rfl⟩ | ⟨hq, -⟩
    · exact hframe
    · exact h.frame q j hq
  · rcases (hlook q j).1 hq with ⟨rfl, rfl⟩ | ⟨hq, hji⟩
    · exact h.away q hnone hlt
    · rw [occupied_meta, if_neg hji] at hd
      exact h.clean q j hq hd hU
  · rw [occupied_lookup] at hq
    split at hq
    · cases hq
    · exact h.away q hq hlt'
  · obtain ⟨j, hj, hpos⟩ := h.pinned q hU
    have hji : j ≠ i := fun hji => hnot q (hji ▸ hj)
    exact ⟨j, (hlook q j).2 (Or.inr ⟨hj, hji⟩), by rw [occupied_meta, if_neg hji]; exact hpos⟩

theorem InOrder.setFrame (h : InOrder s) (i : Slot) (page : RawPage) : InOrder (s.setFrame i page) where
  table := h.table
  free := h.free
  slots := h.slots
  nodes := h.nodes
  lru_map := h.lru_map
  fresh := h.fresh
  in_file := h.in_file

/-- A free slot holds no page, whatever its frame. -/
theorem Caches.setFree (h : Caches s n c U) (hfree : s.frame_meta i = {}) (page : RawPage) : Caches (s.setFrame i page) n c U where
  toSound := (h.inOrder.setFrame i page).toSound
  fresh := h.fresh
  total := h.total
  in_file := h.in_file
  frame q j hq := by
    have hji : j ≠ i := fun hji => h.toSound.not_cached hfree q (hji ▸ hq)
    exact (Function.update_of_ne hji ..).trans (h.frame q j hq)
  clean := h.clean
  away := h.away
  pinned := h.pinned

theorem Sound.occupied_dirty (h : Sound s) (hfree : s.frame_meta i = {}) (hnone : s.page_table.lookup p = none) (q : PageId) :
    DirtyAt (s.occupied p i) q ↔ DirtyAt s q := by
  unfold DirtyAt
  by_cases hqp : q = p
  · subst hqp
    simp [occupied_lookup, hnone]
  · rw [occupied_lookup, if_neg hqp]
    refine exists_congr fun j => and_congr_right fun hj => ?_
    have hji : j ≠ i := fun hji => h.not_cached hfree q (hji ▸ hj)
    rw [occupied_meta, if_neg hji]

theorem WrittenBack.congr {V : PageId → Prop} {t : BufferPool} (h : WrittenBack s c V s') (hdisk : t.disk = s'.disk) (hd : ∀ q, DirtyAt t q ↔ DirtyAt s' q) :
    WrittenBack s c V t := by
  cases h with
  | none h₁ h₂ => exact .none (hdisk.trans h₁) fun q => (hd q).trans (h₂ q)
  | page p hv hp h₁ h₂ => exact .page p hv hp (hdisk.trans h₁) fun q => (hd q).trans (h₂ q)

/-! ### The LRU list -/

/-- A node of a list with distinct node ids, filtered out. -/
theorem filter_node {l₁ l₂ : List LruNode} {m : LruNode} (h : ((l₁ ++ m :: l₂).map LruNode.node).Nodup) :
    (l₁ ++ m :: l₂).filter (fun x => x.node ≠ m.node) = l₁ ++ l₂ := by
  rw [List.map_append, List.map_cons, List.nodup_middle, List.nodup_cons] at h
  have hne : ∀ x ∈ l₁ ++ l₂, x.node ≠ m.node := fun x hx hxm => h.1 (by
    rw [← hxm, ← List.map_append]
    exact List.mem_map_of_mem hx)
  rw [List.filter_append, List.filter_cons_of_neg (by simp), ← List.filter_append]
  exact List.filter_eq_self.2 fun x hx => by simpa using hne x hx

/-- **A slot moved to the front** keeps the list a permutation of the slots. -/
theorem InOrder.pushed (h : InOrder s) {node : ℕ} (hi : s.lru_map i = some node) : InOrder (s.pushFront i node) := by
  obtain ⟨node', hmap, hmem⟩ := h.lru_map i
  rw [hi] at hmap; cases hmap
  obtain ⟨l₁, l₂, hl⟩ := List.append_of_mem hmem
  have hnodes := h.nodes
  have hslots := h.slots
  rw [hl] at hnodes hslots
  have hlist : (s.pushFront i node).lru_list = ⟨s.next_node, i⟩ :: (l₁ ++ l₂) := by
    show _ :: s.lru_list.filter _ = _
    rw [hl]
    exact congrArg _ (filter_node (m := ⟨node, i⟩) hnodes)
  have hsub : ∀ m ∈ l₁ ++ l₂, m ∈ s.lru_list := fun m hm => by
    rw [hl]
    rcases List.mem_append.1 hm with hm | hm
    · exact List.mem_append_left _ hm
    · exact List.mem_append_right _ (List.mem_cons_of_mem _ hm)
  have hslot : i ∉ (l₁ ++ l₂).map LruNode.slot := by
    have hnd := hslots.nodup_iff.2 (List.nodup_finRange _)
    rw [List.map_append, List.map_cons, List.nodup_middle, List.nodup_cons, ← List.map_append] at hnd
    exact hnd.1
  refine ⟨⟨h.table, h.free, ?_, ?_, fun j => ?_⟩, fun m hm => ?_, h.in_file⟩
  · rw [hlist, List.map_cons, List.map_append]
    rw [List.map_append, List.map_cons] at hslots
    exact List.perm_middle.symm.trans hslots
  · rw [hlist, List.map_cons, List.nodup_cons]
    refine ⟨fun hm => ?_, ?_⟩
    · obtain ⟨m, hm, hnode⟩ := List.mem_map.1 hm
      exact (h.fresh m (hsub m hm)).ne hnode
    · rw [List.map_append, List.map_cons, List.nodup_middle, List.nodup_cons, ← List.map_append] at hnodes
      exact hnodes.2
  · rw [hlist]
    show ∃ node', Function.update s.lru_map i (some s.next_node) j = some node' ∧ _
    by_cases hji : j = i
    · subst hji
      exact ⟨s.next_node, Function.update_self .., List.mem_cons_self⟩
    · obtain ⟨node', hmap, hmem'⟩ := h.lru_map j
      refine ⟨node', by rw [Function.update_of_ne hji]; exact hmap, List.mem_cons_of_mem _ ?_⟩
      rw [hl] at hmem'
      rcases List.mem_append.1 hmem' with hm | hm
      · exact List.mem_append_left _ hm
      · rcases List.mem_cons.1 hm with heq | hm
        · exact absurd (congrArg LruNode.slot heq) hji
        · exact List.mem_append_right _ hm
  · rw [hlist] at hm
    show m.node < s.next_node + 1
    rcases List.mem_cons.1 hm with rfl | hm
    · exact Nat.lt_succ_self _
    · exact (h.fresh m (hsub m hm)).trans (Nat.lt_succ_self _)

theorem Caches.pushed (h : Caches s n c U) {node : ℕ} (hi : s.lru_map i = some node) : Caches (s.pushFront i node) n c U where
  toSound := (h.inOrder.pushed hi).toSound
  fresh := (h.inOrder.pushed hi).fresh
  total := h.total
  in_file := h.in_file
  frame := h.frame
  clean := h.clean
  away := h.away
  pinned := h.pinned

theorem wp_touch {E : IoErr → BufferPool → Prop} {Q : PUnit → BufferPool → Prop}
    (h : ∃ node, s.lru_map i = some node ∧ (⟨node, i⟩ : LruNode) ∈ s.lru_list)
    (hQ : ∀ node, s.lru_map i = some node → Q ⟨⟩ (s.pushFront i node)) : wp (touch i) E Q s := by
  obtain ⟨node, hmap, hmem⟩ := h
  have hany : s.lru_list.any (fun m => m.node == node) = true :=
    List.any_eq_true.2 ⟨_, hmem, by simp⟩
  unfold touch
  rw [wp_bind, wp_get, hmap]
  dsimp only
  rw [if_pos hany]
  exact hQ node hmap

/-! ### Metadata -/

@[simp] theorem setMeta_meta (s : BufferPool) (i j : Slot) (m : FrameMeta) :
    (s.setMeta i m).frame_meta j = if j = i then m else s.frame_meta j := Function.update_apply ..

/-- New flags for a page that is cached. -/
theorem InOrder.setMeta {m : FrameMeta} (h : InOrder s) (hp : s.page_table.lookup p = some i) (hm : m.page_id = p) : InOrder (s.setMeta i m) := by
  refine ⟨⟨fun q j => ?_, fun j hj => ?_, h.slots, h.nodes, h.lru_map⟩, h.fresh, h.in_file⟩
  · rw [setMeta_meta]
    show s.page_table.lookup q = some j ↔ _
    rw [h.table]
    split
    · rename_i hji
      rw [hji, ((h.table p i).1 hp).1, hm]
    · rfl
  · rw [setMeta_meta] at hj ⊢
    split
    · rename_i hji
      rw [if_pos hji, hm] at hj
      exact absurd hj (h.ne_invalid hp)
    · rename_i hji
      exact h.free j (by rwa [if_neg hji] at hj)

theorem Caches.setMeta {U' : PageId → Prop} {m : FrameMeta} (h : Caches s n c U) (hp : s.page_table.lookup p = some i)
    (hm : m.page_id = p) (hU : ∀ q, q ≠ p → (U' q ↔ U q)) (hclean : m.is_dirty = false → ¬ U' p → s.disk.file.data p = c p)
    (hpin : U' p → 0 < m.pin_count) : Caches (s.setMeta i m) n c U' := by
  have hslot : ∀ q j, s.page_table.lookup q = some j → j = i → q = p := fun q j hq hji =>
    h.toSound.slot_unique hq (hji ▸ hp)
  refine ⟨(h.inOrder.setMeta hp hm).toSound, h.fresh, h.total, h.in_file, h.frame, fun q j hq hd hUq => ?_, h.away, fun q hUq => ?_⟩
  · rw [setMeta_meta] at hd
    by_cases hji : j = i
    · obtain rfl := hslot q j hq hji
      rw [if_pos hji] at hd
      exact hclean hd hUq
    · rw [if_neg hji] at hd
      have hqp : q ≠ p := fun hqp => hji (by
        rw [hqp, show (s.setMeta i m).page_table = s.page_table from rfl, hp] at hq
        exact (Option.some.inj hq).symm)
      exact h.clean q j hq hd fun hUq' => hUq ((hU q hqp).2 hUq')
  · by_cases hqp : q = p
    · subst hqp
      exact ⟨i, hp, by rw [setMeta_meta, if_pos rfl]; exact hpin hUq⟩
    · obtain ⟨j, hj, hpos⟩ := h.pinned q ((hU q hqp).1 hUq)
      exact ⟨j, hj, by rw [setMeta_meta, if_neg fun hji => hqp (hslot q j hj hji)]; exact hpos⟩

theorem Sound.setMeta_pins (h : Sound s) (hp : s.page_table.lookup p = some i) (m : FrameMeta) (q : PageId) :
    (s.setMeta i m).pinsOf q = if q = p then m.pin_count else s.pinsOf q := by
  have hlook : (s.setMeta i m).page_table.lookup q = s.page_table.lookup q := rfl
  by_cases hqp : q = p
  · subst hqp
    rw [if_pos rfl, pinsOf_some (hlook.trans hp), setMeta_meta, if_pos rfl]
  · rw [if_neg hqp]
    cases hq : s.page_table.lookup q with
    | none => rw [pinsOf_none hq, pinsOf_none (hlook.trans hq)]
    | some j =>
      have hji : j ≠ i := fun hji => hqp (h.slot_unique hq (hji ▸ hp))
      rw [pinsOf_some hq, pinsOf_some (hlook.trans hq), setMeta_meta, if_neg hji]

/-! ### The methods -/

/-- Where the pins are after page `p` got one more, in slot `i`. -/
structure Pinned (s : BufferPool) (p : PageId) (i : Slot) (s' : BufferPool) : Prop where
  lookup : s'.page_table.lookup p = some i
  stays : Stays s s'
  pins : ∀ q, s'.pinsOf q = if q = p then s.pinsOf p + 1 else s.pinsOf q

/-- A call that moved no pin. -/
structure Unmoved (s s' : BufferPool) : Prop where
  stays : Stays s s'
  pins : ∀ q, s'.pinsOf q = s.pinsOf q

theorem Unmoved.refl (s : BufferPool) : Unmoved s s := ⟨fun _ _ h _ => h, fun _ => rfl⟩

theorem Sound.evicted_unmoved (h : Sound s) (hpin : (s.frame_meta i).pin_count = 0) : Unmoved s (s.evicted i) :=
  ⟨h.evicted_stays hpin, h.evicted_pins hpin⟩

theorem pinned_occupied (hnone : s.page_table.lookup p = none) (hfree : s.frame_meta i = {}) (h : Sound s) :
    Pinned s p i (s.occupied p i) where
  lookup := by rw [occupied_lookup, if_pos rfl]
  stays q j hq hpos := by
    have hqp : q ≠ p := fun hqp => by rw [hqp, hnone] at hq; cases hq
    rw [occupied_lookup, if_neg hqp, hq]
  pins q := by
    by_cases hqp : q = p
    · subst hqp
      rw [if_pos rfl, pinsOf_none hnone, pinsOf_some (i := i) (by rw [occupied_lookup, if_pos rfl]), occupied_meta, if_pos rfl]
    · rw [if_neg hqp]
      have hlook : (s.occupied p i).page_table.lookup q = s.page_table.lookup q := by rw [occupied_lookup, if_neg hqp]
      cases hq : s.page_table.lookup q with
      | none => rw [pinsOf_none hq, pinsOf_none (hlook.trans hq)]
      | some j =>
        have hji : j ≠ i := fun hji => h.not_cached hfree q (hji ▸ hq)
        rw [pinsOf_some hq, pinsOf_some (hlook.trans hq), occupied_meta, if_neg hji]

theorem Pinned.pushed {node : ℕ} (h : Pinned s p i s') : Pinned s p i (s'.pushFront j node) := ⟨h.lookup, h.stays, h.pins⟩

theorem Pinned.after {s₁ : BufferPool} (h : Pinned s₁ p i s') (h₁ : Unmoved s s₁)
    (hpos : ∀ q j, s.page_table.lookup q = some j → 0 < (s.frame_meta j).pin_count → 0 < (s₁.frame_meta j).pin_count) :
    Pinned s p i s' where
  lookup := h.lookup
  stays q j hq hp := h.stays q j (h₁.stays q j hq hp) (hpos q j hq hp)
  pins q := by rw [h.pins, h₁.pins, h₁.pins]

theorem evicted_pos (hpin : (s.frame_meta i).pin_count = 0) (hp : 0 < (s.frame_meta j).pin_count) :
    0 < ((s.evicted i).frame_meta j).pin_count := by
  have hji : j ≠ i := fun hji => by rw [hji, hpin] at hp; exact Nat.lt_irrefl _ hp
  rw [evicted_meta, if_neg hji]
  exact hp

theorem lt_invalid (h : p < s.disk.total_pages) : p ≠ INVALID_PAGE := by
  have hbound : s.disk.total_pages ≤ INVALID_PAGE := Nat.le_of_lt_succ s.disk.bound
  exact (lt_of_lt_of_le h hbound).ne

theorem evicted_zero (s : BufferPool) (i : Slot) : (s.evicted i).setFrame i RawPage.zero = s.evicted i := by
  have hself : (s.evicted i).frames i = RawPage.zero := by rw [evicted_frames, if_pos rfl]
  unfold BufferPool.setFrame
  rw [← hself, Function.update_eq_self]

/-- The pins of a page that is loaded into a slot just emptied. -/
theorem InOrder.pinned_loaded (h : InOrder s) (hpin : (s.frame_meta i).pin_count = 0) (hnone : s.page_table.lookup p = none) (page : RawPage) :
    Pinned s p i (((s.evicted i).setFrame i page).occupied p i) := by
  have hnone₁ : (s.evicted i).page_table.lookup p = none := by
    rw [h.evicted_lookup, hnone, if_neg (by simp)]
  have hfree : (s.evicted i).frame_meta i = {} := by rw [evicted_meta, if_pos rfl]
  have hun := h.evicted_unmoved hpin
  have hsound := ((h.evicted i).setFrame i page).toSound
  exact (pinned_occupied (s := (s.evicted i).setFrame i page) hnone₁ hfree hsound).after ⟨hun.stays, hun.pins⟩ fun q j _ hpos => evicted_pos hpin hpos

/-- And the tables. -/
theorem InOrder.loaded (h : InOrder s) (hnone : s.page_table.lookup p = none) (page : RawPage) (hlt : p < s.disk.total_pages) :
    InOrder (((s.evicted i).setFrame i page).occupied p i) := by
  have hnone₁ : (s.evicted i).page_table.lookup p = none := by
    rw [h.evicted_lookup, hnone, if_neg (by simp)]
  have hfree : (s.evicted i).frame_meta i = {} := by rw [evicted_meta, if_pos rfl]
  have hin : p < ((s.evicted i).setFrame i page).disk.total_pages := hlt.trans_eq (evicted_total s i).symm
  exact ((h.evicted i).setFrame i page).occupied hfree hnone₁ hin (lt_invalid hlt)

/-- **`fetch_page`** pins the page, or throws and moves no pin. -/
theorem InOrder.wp_fetch_page (h : InOrder s) (hwrap : s.pinsOf p + 1 < 2 ^ 32) :
    wp (fetch_page p) (fun e s' => InOrder s' ∧ Unmoved s s' ∧ (e = .all_pinned → ∀ i, 0 < (s.frame_meta i).pin_count))
      (fun i s' => InOrder s' ∧ Pinned s p i s') s := by
  unfold fetch_page
  rw [wp_bind, wp_get]
  cases hp : s.page_table.lookup p with
  | some i =>
    rw [pinsOf_some hp] at hwrap
    dsimp only
    rw [wp_bind, wp_modify, wp_bind, Nat.mod_eq_of_lt hwrap]
    refine wp_touch (h.lru_map i) fun node hnode => ?_
    have hmeta := h.setMeta (m := { s.frame_meta i with pin_count := (s.frame_meta i).pin_count + 1 }) hp ((h.table p i).1 hp).1
    refine ⟨hmeta.pushed hnode, hp, fun _ _ hq _ => hq, fun q => ?_⟩
    rw [pinsOf_some hp]
    exact h.setMeta_pins hp _ q
  | none =>
    dsimp only
    rw [wp_bind]
    refine wp_mono h.wp_evict_slot ?_ ?_
    · rintro i s₁ ⟨-, hpin, rfl⟩
      have h₁ := h.evicted i
      rw [wp_bind]
      unfold readInto
      rw [wp_bind, wp_get]
      cases hread : (s.evicted i).disk.read_page p with
      | error e =>
        refine ⟨h₁, h.evicted_unmoved hpin, fun he => ?_⟩
        unfold DiskManager.read_page at hread
        split at hread
        · cases hread
          cases he
        · cases hread
      | ok page =>
        have hlt : p < s.disk.total_pages := by
          unfold DiskManager.read_page at hread
          split at hread
          · cases hread
          · rename_i hlt
            rw [evicted_total] at hlt
            exact not_le.1 hlt
        dsimp only
        rw [wp_set, wp_bind]
        unfold occupy
        rw [wp_modify, wp_bind]
        refine wp_touch (h.lru_map i) fun node hnode => ?_
        exact ⟨(h.loaded hp page hlt).pushed hnode, (h.pinned_loaded hpin hp page).pushed⟩
    · rintro e s₁ ⟨rfl, -, hall⟩
      exact ⟨h, Unmoved.refl _, fun _ => hall⟩

/-- **`fetch_page`** returns a frame with the contents of the page, and pins it. -/
theorem Caches.wp_fetch_page (h : Caches s n c U) (hn : n < 2 ^ 32) (p : PageId) :
    wp (fetch_page p)
      (fun e s' => Caches s' n c U ∧ Unmoved s s' ∧ Loads s c p s' ∧
        (e = .out_of_range p ∧ n ≤ p ∨ e = .all_pinned ∧ s.page_table.lookup p = none ∧ ∀ i, 0 < (s.frame_meta i).pin_count))
      (fun i s' => s'.frames i = c p ∧ (s.pinsOf p + 1 < 2 ^ 32 → Caches s' n c U ∧ Pinned s p i s') ∧ Loads s c p s') s := by
  have hmax : n ≤ INVALID_PAGE := by unfold INVALID_PAGE; omega
  unfold fetch_page
  rw [wp_bind, wp_get]
  cases hp : s.page_table.lookup p with
  | some i =>
    dsimp only
    rw [wp_bind, wp_modify, wp_bind]
    refine wp_touch (h.lru_map i) fun node hnode => ⟨h.frame p i hp, fun hwrap => ?_, .none rfl fun q => ?_⟩
    rotate_left
    · refine exists_congr fun j => and_congr_right fun _ => ?_
      show ((s.setMeta i _).frame_meta j).is_dirty = true ↔ _
      rw [setMeta_meta]
      split
      · rename_i hji
        rw [hji]
      · rfl
    rw [pinsOf_some hp] at hwrap
    have hpins := h.toSound.setMeta_pins hp
      { s.frame_meta i with pin_count := ((s.frame_meta i).pin_count + 1) % 2 ^ 32 }
    rw [Nat.mod_eq_of_lt hwrap] at hpins ⊢
    refine ⟨(h.setMeta (m := { s.frame_meta i with pin_count := (s.frame_meta i).pin_count + 1 }) hp ((h.table p i).1 hp).1
      (fun _ _ => Iff.rfl) (h.clean p i hp) fun _ => Nat.succ_pos _).pushed hnode, hp, fun _ _ hq _ => hq, fun q => ?_⟩
    rw [pinsOf_some hp]
    exact hpins q
  | none =>
    dsimp only
    rw [wp_bind]
    refine wp_mono h.wp_evict_slot ?_ ?_
    · rintro i s₁ ⟨hpin, rfl, hsp⟩
      have hload : Loads s c p (s.evicted i) := hsp.mono fun q hq => ⟨hp, hq⟩
      have h₁ := h.evicted hpin
      have hun := h.toSound.evicted_unmoved hpin
      have hnone : (s.evicted i).page_table.lookup p = none := by rw [h.toSound.evicted_lookup, hp]; simp
      rw [wp_bind]
      unfold readInto
      rw [wp_bind, wp_get]
      by_cases hlt : p < n
      · have hread : (s.evicted i).disk.read_page p = .ok (c p) := by
          rw [DiskManager.read_page, h₁.total, if_neg (not_le.2 hlt), h₁.away p hnone hlt]
        rw [hread]
        dsimp only
        have hfree : (s.evicted i).frame_meta i = {} := by rw [evicted_meta, if_pos rfl]
        have h₂ := h₁.setFree hfree (c p)
        rw [wp_set, wp_bind]
        unfold occupy
        rw [wp_modify, wp_bind]
        refine wp_touch (h.lru_map i) fun node hnode => ?_
        have hframe : ((s.evicted i).setFrame i (c p)).frames i = c p := Function.update_self ..
        have hpin' : Pinned s p i (((s.evicted i).setFrame i (c p)).occupied p i) :=
          (pinned_occupied (s := (s.evicted i).setFrame i (c p)) hnone hfree h₂.toSound).after
            ⟨hun.stays, hun.pins⟩ fun q j _ hpos => evicted_pos hpin hpos
        refine ⟨hframe, fun _ => ⟨?_, hpin'.pushed⟩, hload.congr rfl fun q => ?_⟩
        rotate_left
        · exact (h₂.toSound.occupied_dirty hfree hnone q)
        exact (h₂.occupied hfree hnone hlt (lt_of_lt_of_le hlt hmax).ne hframe).pushed hnode
      · have hread : (s.evicted i).disk.read_page p = .error (.out_of_range p) := by
          rw [DiskManager.read_page, h₁.total, if_pos (not_lt.1 hlt)]
        rw [hread]
        exact ⟨h₁, hun, hload, Or.inl ⟨rfl, not_lt.1 hlt⟩⟩
    · rintro e s₁ ⟨rfl, rfl, hall⟩
      exact ⟨h, Unmoved.refl _, .none rfl fun _ => Iff.rfl, Or.inr ⟨rfl, rfl, hall⟩⟩

theorem Caches.congr {c' : PageId → RawPage} {U' : PageId → Prop} (h : Caches s n c U) (hc : ∀ q, q < n → c' q = c q)
    (hU : ∀ q, U' q ↔ U q) : Caches s n c' U' :=
  { h with
    frame := fun q j hq => (h.frame q j hq).trans (hc q (h.in_file q j hq)).symm
    clean := fun q j hq hd hUq => (h.clean q j hq hd fun hUq' => hUq ((hU q).2 hUq')).trans (hc q (h.in_file q j hq)).symm
    away := fun q hq hlt => (h.away q hq hlt).trans (hc q hlt).symm
    pinned := fun q hUq => h.pinned q ((hU q).1 hUq) }

/-- The file one page longer. -/
theorem Caches.allocated (h : Caches s n c U) (hn : n + 1 < 2 ^ 32) :
    Caches { s with disk := s.disk.allocate_page.2 } (n + 1) (Function.update c n RawPage.zero) U := by
  have hne : ∀ q i, s.page_table.lookup q = some i → q ≠ n := fun q i hq => (h.in_file q i hq).ne
  have hdata : ∀ q, q ≠ n → s.disk.allocate_page.2.file.data q = s.disk.file.data q := fun q hq => by
    show Function.update s.disk.file.data s.disk.total_pages _ q = _
    rw [h.total, Function.update_of_ne hq]
  have hnew : s.disk.allocate_page.2.file.data n = RawPage.zero := by
    show Function.update s.disk.file.data s.disk.total_pages _ n = _
    rw [h.total, Function.update_self]
  refine ⟨⟨h.table, h.free, h.slots, h.nodes, h.lru_map⟩, h.fresh, ?_, fun q i hq => ?_, fun q i hq => ?_, fun q i hq hd hU => ?_,
    fun q hq hlt => ?_, h.pinned⟩
  · show (s.disk.total_pages + 1) % 2 ^ 32 = n + 1
    rw [h.total, Nat.mod_eq_of_lt hn]
  · exact (h.in_file q i hq).trans (Nat.lt_succ_self n)
  · rw [Function.update_of_ne (hne q i hq)]
    exact h.frame q i hq
  · rw [Function.update_of_ne (hne q i hq)]
    exact (hdata q (hne q i hq)).trans (h.clean q i hq hd hU)
  · by_cases hqn : q = n
    · rw [hqn, Function.update_self]
      exact hnew
    · rw [Function.update_of_ne hqn]
      exact (hdata q hqn).trans (h.away q hq (lt_of_le_of_ne (Nat.le_of_lt_succ hlt) hqn))

theorem InOrder.allocated (h : InOrder s) (hn : s.disk.total_pages + 1 < 2 ^ 32) : InOrder { s with disk := s.disk.allocate_page.2 } where
  table := h.table
  free := h.free
  slots := h.slots
  nodes := h.nodes
  lru_map := h.lru_map
  fresh := h.fresh
  in_file p i hp := by
    show p < (s.disk.total_pages + 1) % 2 ^ 32
    rw [Nat.mod_eq_of_lt hn]
    exact (h.in_file p i hp).trans (Nat.lt_succ_self _)

/-- **`new_page`** pins a page that is new, or throws and moves no pin. -/
theorem InOrder.wp_new_page (h : InOrder s) (hn : s.disk.total_pages + 1 < 2 ^ 32) :
    wp new_page (fun e s' => InOrder s' ∧ Unmoved s s' ∧ (e = .all_pinned → ∀ i, 0 < (s.frame_meta i).pin_count))
      (fun r s' => InOrder s' ∧ Pinned s r.1 r.2 s') s := by
  have h₀ := h.allocated hn
  have hnone : s.page_table.lookup s.disk.total_pages = none := by
    cases hlook : s.page_table.lookup s.disk.total_pages with
    | none => rfl
    | some j => exact absurd (h.in_file _ j hlook) (Nat.lt_irrefl _)
  unfold new_page
  rw [wp_bind, wp_get]
  show wp (set { s with disk := s.disk.allocate_page.2 } >>= fun _ => evict_slot >>= fun slot =>
    occupy s.disk.total_pages slot >>= fun _ => touch slot >>= fun _ => pure (s.disk.total_pages, slot)) _ _ s
  rw [wp_bind, wp_set, wp_bind]
  refine wp_mono h₀.wp_evict_slot ?_ ?_
  · rintro i s₁ ⟨-, hpin, rfl⟩
    rw [wp_bind]
    unfold occupy
    rw [wp_modify, wp_bind]
    refine wp_touch (h₀.lru_map i) fun node hnode => ?_
    have hlt : s.disk.total_pages < (s.disk.total_pages + 1) % 2 ^ 32 := by
      rw [Nat.mod_eq_of_lt hn]
      exact Nat.lt_succ_self _
    have hpinned := h₀.pinned_loaded hpin hnone RawPage.zero
    have hloaded := h₀.loaded (i := i) hnone RawPage.zero hlt
    rw [evicted_zero] at hpinned hloaded
    exact ⟨hloaded.pushed hnode, ⟨hpinned.lookup, hpinned.stays, hpinned.pins⟩⟩
  · rintro e s₁ ⟨rfl, -, hall⟩
    exact ⟨h₀, ⟨fun _ _ hq _ => hq, fun _ => rfl⟩, fun _ => hall⟩

/-- **`new_page`** makes the file one page longer, and pins the page. -/
theorem Caches.wp_new_page (h : Caches s n c U) (hn : n + 1 < 2 ^ 32) :
    wp new_page
      (fun _ s' => Caches s' (n + 1) (Function.update c n RawPage.zero) U ∧ Unmoved s s' ∧
        Spills { s with disk := s.disk.allocate_page.2 } (Function.update c n RawPage.zero) s')
      (fun r s' => r.1 = n ∧ Caches s' (n + 1) (Function.update c n RawPage.zero) U ∧ Pinned s n r.2 s' ∧
        Spills { s with disk := s.disk.allocate_page.2 } (Function.update c n RawPage.zero) s') s := by
  have h₀ := h.allocated hn
  have hmax : n ≠ INVALID_PAGE := by unfold INVALID_PAGE; omega
  unfold new_page
  rw [wp_bind, wp_get]
  show wp (set { s with disk := s.disk.allocate_page.2 } >>= fun _ => evict_slot >>= fun slot =>
    occupy s.disk.total_pages slot >>= fun _ => touch slot >>= fun _ => pure (s.disk.total_pages, slot)) _ _ s
  rw [wp_bind, wp_set, wp_bind, h.total]
  refine wp_mono h₀.wp_evict_slot ?_ ?_
  · rintro i s₁ ⟨hpin, rfl, hsp⟩
    have h₁ := h₀.evicted hpin
    have hun := h₀.toSound.evicted_unmoved hpin
    have hnone₀ : s.page_table.lookup n = none := by
      cases hlook : s.page_table.lookup n with
      | none => rfl
      | some j => exact absurd (h.in_file n j hlook) (Nat.lt_irrefl n)
    generalize hs₁ : BufferPool.evicted { s with disk := s.disk.allocate_page.2 } i = s₁ at h₁ hun hsp ⊢
    have hnone : s₁.page_table.lookup n = none := by
      rw [← hs₁, h₀.toSound.evicted_lookup, show AList.lookup n s.page_table = none from hnone₀]
      simp
    have hfree : s₁.frame_meta i = {} := by rw [← hs₁, evicted_meta, if_pos rfl]
    have hframe : s₁.frames i = Function.update c n RawPage.zero n := by
      rw [← hs₁, evicted_frames, if_pos rfl, Function.update_self]
    rw [wp_bind]
    unfold occupy
    rw [wp_modify, wp_bind]
    refine wp_touch (h₁.lru_map i) fun node hnode => ?_
    have hpinned := (pinned_occupied hnone hfree h₁.toSound).after (s := s) ⟨hun.stays, hun.pins⟩ fun q j _ hpos => by
      rw [← hs₁]
      exact evicted_pos hpin hpos
    exact ⟨rfl, (h₁.occupied hfree hnone (Nat.lt_succ_self n) hmax hframe).pushed hnode, hpinned.pushed,
      hsp.congr rfl fun q => h₁.toSound.occupied_dirty hfree hnone q⟩
  · rintro e s₁ ⟨rfl, -, -⟩
    exact ⟨h₀, ⟨fun _ _ hq _ => hq, fun _ => rfl⟩, .none rfl fun _ => Iff.rfl⟩

/-- The pool after `unpin_page`. -/
def unpinned (s : BufferPool) (p : PageId) (d : Bool) : BufferPool :=
  match s.page_table.lookup p with
  | none => s
  | some i =>
    if (s.frame_meta i).pin_count = 0 then s
    else s.setMeta i { s.frame_meta i with pin_count := (s.frame_meta i).pin_count - 1, is_dirty := (s.frame_meta i).is_dirty || d }

theorem unpinned_table (s : BufferPool) (p : PageId) (d : Bool) : (s.unpinned p d).page_table = s.page_table := by
  unfold unpinned
  split
  · rfl
  · split <;> rfl

/-- **`unpin_page`** gives a pin back, where there is one. -/
theorem InOrder.unpinned (h : InOrder s) (p : PageId) (d : Bool) :
    InOrder (s.unpinned p d) ∧ ∀ q, (s.unpinned p d).pinsOf q = if q = p then s.pinsOf p - 1 else s.pinsOf q := by
  have hsame : s.pinsOf p = 0 → ∀ q, s.pinsOf q = if q = p then s.pinsOf p - 1 else s.pinsOf q := by
    intro h0 q
    split
    · rename_i hqp
      rw [hqp, h0]
    · rfl
  unfold BufferPool.unpinned
  cases hp : s.page_table.lookup p with
  | none => exact ⟨h, hsame (pinsOf_none hp)⟩
  | some i =>
    dsimp only
    split
    · rename_i h0
      exact ⟨h, hsame ((pinsOf_some hp).trans h0)⟩
    · rw [pinsOf_some hp]
      exact ⟨h.setMeta hp ((h.table p i).1 hp).1, fun q => h.setMeta_pins hp _ q⟩

/-- **`unpin_page`** gives a pin back; the last one only once everything written is reported. -/
theorem Caches.unpinned (h : Caches s n c U) {d : Bool} (hlast : d = false → s.pinsOf p = 1 → ¬ U p) :
    Caches (s.unpinned p d) n c (fun q => U q ∧ ¬ (q = p ∧ d = true)) ∧
      ∀ q, (s.unpinned p d).pinsOf q = if q = p then s.pinsOf p - 1 else s.pinsOf q := by
  have hsame : s.pinsOf p = 0 → Caches s n c (fun q => U q ∧ ¬ (q = p ∧ d = true)) ∧
      ∀ q, s.pinsOf q = if q = p then s.pinsOf p - 1 else s.pinsOf q := fun h0 => by
    refine ⟨h.congr (fun _ _ => rfl) fun q => and_iff_left_of_imp fun hU hq => ?_, fun q => ?_⟩
    · obtain ⟨i, hi, hpos⟩ := h.pinned q hU
      rw [hq.1] at hi
      rw [pinsOf_some hi] at h0
      omega
    · split
      · rename_i hqp
        rw [hqp, h0]
      · rfl
  unfold BufferPool.unpinned
  cases hp : s.page_table.lookup p with
  | none => exact hsame (pinsOf_none hp)
  | some i =>
    dsimp only
    split
    · rename_i h0
      exact hsame ((pinsOf_some hp).trans h0)
    · rename_i h0
      rw [pinsOf_some hp] at hlast ⊢
      refine ⟨h.setMeta hp ((h.table p i).1 hp).1 (fun q hq => ?_) (fun hd hU => ?_) (fun hU => ?_),
        fun q => h.toSound.setMeta_pins hp _ q⟩
      · simp [hq]
      · obtain ⟨hd₁, hd₂⟩ := Bool.or_eq_false_iff.1 hd
        refine h.clean p i hp hd₁ fun hUp => hU ⟨hUp, ?_⟩
        rw [hd₂]
        simp
      · show 0 < (s.frame_meta i).pin_count - 1
        have hd : d = false := by
          by_contra hd
          exact hU.2 ⟨rfl, by simpa using hd⟩
        have h1 : (s.frame_meta i).pin_count ≠ 1 := fun h1 => hlast hd h1 hU.1
        omega

/-- A caller writes to a frame it has pinned. -/
theorem Caches.written (h : Caches s n c U) (hp : s.page_table.lookup p = some i) (hpin : 0 < (s.frame_meta i).pin_count)
    (page : RawPage) : Caches (s.setFrame i page) n (Function.update c p page) (fun q => q = p ∨ U q) := by
  have hne : ∀ q j, s.page_table.lookup q = some j → q ≠ p → j ≠ i := fun q j hq hqp hji =>
    hqp (h.toSound.slot_unique hq (hji ▸ hp))
  refine ⟨⟨h.table, h.free, h.slots, h.nodes, h.lru_map⟩, h.fresh, h.total, h.in_file, fun q j hq => ?_, fun q j hq hd hU => ?_,
    fun q hq hlt => ?_, fun q hU => ?_⟩
  · by_cases hqp : q = p
    · subst hqp
      rw [show (s.setFrame i page).page_table = s.page_table from rfl, hp] at hq
      cases hq
      exact (Function.update_self i page s.frames).trans (Function.update_self q page c).symm
    · rw [Function.update_of_ne hqp]
      exact (Function.update_of_ne (hne q j hq hqp) ..).trans (h.frame q j hq)
  · rw [not_or] at hU
    rw [Function.update_of_ne hU.1]
    exact h.clean q j hq hd hU.2
  · have hqp : q ≠ p := fun hqp => by
      rw [hqp, show (s.setFrame i page).page_table = s.page_table from rfl, hp] at hq
      cases hq
    rw [Function.update_of_ne hqp]
    exact h.away q hq hlt
  · rcases hU with rfl | hU
    · exact ⟨i, hp, hpin⟩
    · exact h.pinned q hU

theorem wp_unpin_page {E : IoErr → BufferPool → Prop} {Q : PUnit → BufferPool → Prop} {d : Bool} (h : Q ⟨⟩ (s.unpinned p d)) :
    wp (unpin_page p d) E Q s := h

/-- A page written as it is. -/
theorem Caches.pwritten (h : Caches s n c U) (p : PageId) : Caches { s with disk := s.disk.pwrite p (c p) } n c U := by
  have hdata : ∀ q, s.disk.file.data q = c q → (s.disk.pwrite p (c p)).file.data q = c q := fun q hq => by
    show Function.update s.disk.file.data p (c p) q = c q
    by_cases hqp : q = p
    · rw [hqp, Function.update_self]
    · rw [Function.update_of_ne hqp, hq]
  exact { h with
    clean := fun q i hq hd hU => hdata q (h.clean q i hq hd hU)
    away := fun q hq hlt => hdata q (h.away q hq hlt) }

/-- A pool of which only the file and the dirty flags differ. -/
structure Flushed (s s' : BufferPool) : Prop where
  table : s'.page_table = s.page_table
  pins : ∀ i, (s'.frame_meta i).pin_count = (s.frame_meta i).pin_count
  dirty : ∀ i, (s.frame_meta i).is_dirty = false → (s'.frame_meta i).is_dirty = false

theorem Flushed.refl (s : BufferPool) : Flushed s s := ⟨rfl, fun _ => rfl, fun _ h => h⟩

theorem Flushed.trans {s'' : BufferPool} (h : Flushed s s') (h' : Flushed s' s'') : Flushed s s'' where
  table := h'.table.trans h.table
  pins i := (h'.pins i).trans (h.pins i)
  dirty i hi := h'.dirty i (h.dirty i hi)

theorem Flushed.unmoved (h : Flushed s s') : Unmoved s s' where
  stays p i hp _ := by rw [h.table]; exact hp
  pins q := by
    unfold pinsOf
    rw [h.table]
    cases s.page_table.lookup q with
    | none => rfl
    | some i => exact h.pins i

/-- A page to the file. -/
theorem Caches.wp_flushSlot {E : IoErr → BufferPool → Prop} (h : Caches s n c U) (hp : s.page_table.lookup p = some i) :
    wp (flushSlot p i) E (fun _ s' => Caches s' n c U ∧ Flushed s s' ∧ (s'.frame_meta i).is_dirty = false ∧
      WrittenBack s c (· = p) s') s := by
  unfold flushSlot
  rw [wp_bind, wp_get]
  by_cases hd : (s.frame_meta i).is_dirty = true
  · rw [if_pos hd, wp_bind, h.frame p i hp]
    have h₁ := h.pwritten p
    refine wp_writePage (by rw [h.total]; exact h.in_file p i hp) ?_
    rw [wp_modify]
    refine ⟨h₁.setMeta hp ((h.table p i).1 hp).1 (fun _ _ => Iff.rfl) (fun _ _ => ?_) fun hU => ?_, ⟨rfl, fun j => ?_, fun j hj => ?_⟩, ?_, ?_⟩
    · exact Function.update_self ..
    · obtain ⟨j, hj, hpos⟩ := h.pinned p hU
      rw [hp] at hj; cases hj
      exact hpos
    · rw [setMeta_meta]
      split
      · rename_i hji
        rw [hji]
      · rfl
    · rw [setMeta_meta]
      split
      · rfl
      · exact hj
    · rw [setMeta_meta, if_pos rfl]
    · refine .page p rfl ⟨i, hp, hd⟩ rfl fun q => ?_
      unfold DirtyAt
      by_cases hqp : q = p
      · subst hqp
        show (∃ j, s.page_table.lookup q = some j ∧ _) ↔ _
        simp [hp]
      · show (∃ j, s.page_table.lookup q = some j ∧ _) ↔ _
        simp only [hqp, not_false_eq_true, and_true, ne_eq]
        refine exists_congr fun j => and_congr_right fun hj => ?_
        have hji : j ≠ i := fun hji => hqp (h.toSound.slot_unique hj (hji ▸ hp))
        rw [setMeta_meta, if_neg hji]
  · rw [if_neg hd]
    exact ⟨h, Flushed.refl s, by simpa using hd, .none rfl fun _ => Iff.rfl⟩

theorem Caches.wp_flush_page {E : IoErr → BufferPool → Prop} (h : Caches s n c U) (p : PageId) :
    wp (flush_page p) E (fun _ s' => Caches s' n c U ∧ Flushed s s' ∧ ¬ DirtyAt s' p ∧ WrittenBack s c (· = p) s') s := by
  unfold flush_page
  rw [wp_bind, wp_get]
  cases hp : s.page_table.lookup p with
  | none =>
    refine ⟨h, Flushed.refl s, ?_, .none rfl fun _ => Iff.rfl⟩
    rintro ⟨i, hi, -⟩
    rw [hp] at hi
    cases hi
  | some i =>
    refine wp_post (h.wp_flushSlot hp) fun _ s' hs' => ⟨hs'.1, hs'.2.1, ?_, hs'.2.2.2⟩
    rintro ⟨j, hj, hd⟩
    rw [hs'.2.1.table, hp] at hj
    cases hj
    rw [hs'.2.2.1] at hd
    cases hd

/-- **`flush_all`** leaves no dirty page: what is not being written to is in the file, and on the disk. -/
theorem Caches.wp_flush_all {E : IoErr → BufferPool → Prop} (h : Caches s n c U) :
    wp flush_all E (fun _ s' => Caches s' n c U ∧ Flushed s s' ∧ (∀ p, p < n → ¬ U p → s'.disk.file.data p = c p) ∧
      s'.disk.synced = s'.disk.file ∧ s'.disk.unsynced = [] ∧ s'.disk.file.pages = s.disk.file.pages ∧
      ∀ q, ¬ DirtyAt s q → Untouched s s' q) s := by
  unfold flush_all
  rw [wp_bind, wp_get, wp_bind]
  -- every page passed in the table is clean
  refine wp_post (wp_forM (I := fun rest s' => Caches s' n c U ∧ Flushed s s' ∧ (∀ e ∈ rest, e ∈ s.page_table.entries) ∧
    (∀ e ∈ s.page_table.entries, e ∉ rest → (s'.frame_meta e.2).is_dirty = false) ∧ s'.disk.file.pages = s.disk.file.pages ∧
    ∀ q, ¬ DirtyAt s q → Untouched s s' q) ?_ s.page_table.entries s
    ⟨h, Flushed.refl s, fun _ he => he, fun _ he hn => absurd he hn, rfl, fun _ hq => ⟨rfl, hq⟩⟩) ?_
  · rintro ⟨p, i⟩ rest s₁ ⟨h₁, hfl, hrest, hclean, hpages, hothers⟩
    have hp : s₁.page_table.lookup p = some i := by
      rw [hfl.table]
      exact AList.mem_lookup_iff.2 (hrest _ (by simp))
    refine wp_post (h₁.wp_flushSlot hp) ?_
    rintro ⟨⟩ s₂ ⟨h₂, hfl₂, hi, hw⟩
    refine ⟨h₂, hfl.trans hfl₂, fun e he => hrest e (by simp [he]), fun e he hn => ?_, (hw.pages h₁).trans hpages,
      fun q hq => (hothers q hq).trans (hw.untouched (hothers q hq).clean)⟩
    by_cases hei : e = ⟨p, i⟩
    · rw [hei]; exact hi
    · exact hfl₂.dirty _ (hclean e he (by simp [hei, hn]))
  · rintro ⟨⟩ s₁ ⟨h₁, hfl, -, hclean, hpages, hothers⟩
    unfold sync
    rw [wp_modify]
    refine ⟨{ h₁ with }, ⟨hfl.table, hfl.pins, hfl.dirty⟩, fun p hlt hU => ?_, rfl, rfl, hpages, fun q hq => ⟨(hothers q hq).data, (hothers q hq).clean⟩⟩
    cases hp : s₁.page_table.lookup p with
    | none => exact h₁.away p hp hlt
    | some i =>
      refine h₁.clean p i hp ?_ hU
      rw [hfl.table] at hp
      exact hclean ⟨p, i⟩ (AList.mem_lookup_iff.1 hp) List.not_mem_nil

/-- What `unpin_page` does to a page with a pin. -/
theorem Sound.unpinned_dirty (h : Sound s) {d : Bool} (hpos : 0 < s.pinsOf p) (q : PageId) :
    DirtyAt (s.unpinned p d) q ↔ DirtyAt s q ∨ q = p ∧ d = true := by
  unfold BufferPool.unpinned
  cases hp : s.page_table.lookup p with
  | none =>
    rw [pinsOf_none hp] at hpos
    exact absurd hpos (Nat.lt_irrefl 0)
  | some i =>
    rw [pinsOf_some hp] at hpos
    dsimp only
    rw [if_neg hpos.ne']
    unfold DirtyAt
    by_cases hqp : q = p
    · subst hqp
      show (∃ j, s.page_table.lookup q = some j ∧ _) ↔ _
      simp [hp]
    · show (∃ j, s.page_table.lookup q = some j ∧ _) ↔ _
      simp only [hqp, false_and, or_false]
      refine exists_congr fun j => and_congr_right fun hj => ?_
      have hji : j ≠ i := fun hji => hqp (h.slot_unique hj (hji ▸ hp))
      rw [setMeta_meta, if_neg hji]

theorem unpinned_disk (s : BufferPool) (p : PageId) (d : Bool) : (s.unpinned p d).disk = s.disk := by
  unfold unpinned
  split
  · rfl
  · split <;> rfl

/-- The pool just constructed. -/
theorem caches_init (f : DbFile) : Caches (BufferPool.init (DiskManager.open f)) (f.pages % 2 ^ 32) f.data fun _ => False where
  table p i := by
    constructor
    · intro h; cases h
    · rintro ⟨rfl, hne⟩
      exact absurd rfl hne
  free i _ := rfl
  slots := by
    show (((List.finRange BUFFER_POOL_SIZE).map fun i => (⟨i.val, i⟩ : LruNode)).map LruNode.slot).Perm _
    rw [List.map_map]
    exact List.Perm.of_eq (List.map_id _)
  nodes := by
    show (((List.finRange BUFFER_POOL_SIZE).map fun i => (⟨i.val, i⟩ : LruNode)).map LruNode.node).Nodup
    rw [List.map_map]
    exact (List.nodup_finRange _).map Fin.val_injective
  lru_map i := ⟨i.val, rfl, List.mem_map.2 ⟨i, List.mem_finRange i, rfl⟩⟩
  fresh m hm := by
    obtain ⟨i, -, rfl⟩ := List.mem_map.1 hm
    exact i.isLt
  total := rfl
  in_file p i h := by cases h
  frame p i h := by cases h
  clean p i h := by cases h
  away p _ _ := rfl
  pinned p h := h.elim

end BufferPool

end GSDBEngine
