import GSDBEngine.Proof.Pool

/-!
# Any sequence of calls on the pool

The pins the callers hold are the pin counts of the pool, in the slots they point to
(`Session.OK`). Each call keeps that, returned or thrown, as long as no count wraps.

* `wp_body`: one call.
* `pool_keeps`: **every sequence of calls keeps what the pool promises.**
* `pool_wraps`: with 2^32 pages the file has no page any more.
-/

namespace GSDBEngine

open BufferPool Eff

namespace Session

variable {σ σ' : Session} {c : PoolCall}

structure OK (σ : Session) : Prop where
  caches : Caches σ.pool σ.pages σ.content σ.unreported
  bound : σ.pages < 2 ^ 32
  held : ∀ p i, (p, i) ∈ σ.held → σ.pool.page_table.lookup p = some i
  pins : ∀ p, σ.pool.pinsOf p = σ.pins p

theorem pins_pos {p : PageId} {i : Slot} (h : (p, i) ∈ σ.held) : 0 < σ.pins p :=
  List.count_pos_iff.2 (List.mem_map.2 ⟨_, h, rfl⟩)

theorem OK.pinned (h : σ.OK) {p : PageId} {i : Slot} (hp : (p, i) ∈ σ.held) : 0 < (σ.pool.frame_meta i).pin_count := by
  have hpos := pins_pos hp
  rwa [← h.pins, pinsOf_some (h.held p i hp)] at hpos

/-- The pins after one more. -/
theorem OK.took (h : σ.OK) {pool : BufferPool} {p : PageId} {i : Slot} {n : ℕ} {content : PageId → RawPage}
    (hc : Caches pool n content σ.unreported) (hn : n < 2 ^ 32) (hp : Pinned σ.pool p i pool) :
    OK { σ with pool := pool, pages := n, content := content, held := (p, i) :: σ.held } where
  caches := hc
  bound := hn
  held q j hq := by
    rcases List.mem_cons.1 hq with heq | hq
    · cases heq
      exact hp.lookup
    · exact hp.stays q j (h.held q j hq) (h.pinned hq)
  pins q := by
    show pool.pinsOf q = (((p, i) :: σ.held).map Prod.fst).count q
    rw [hp.pins, List.map_cons, List.count_cons, ← show σ.pins q = (σ.held.map Prod.fst).count q from rfl, h.pins]
    by_cases hqp : q = p
    · simp [hqp]
    · simp [hqp, Ne.symm hqp, h.pins]

/-- The pins where they were. -/
theorem OK.kept (h : σ.OK) {pool : BufferPool} {n : ℕ} {content : PageId → RawPage} (hc : Caches pool n content σ.unreported)
    (hn : n < 2 ^ 32) (hu : Unmoved σ.pool pool) : OK { σ with pool := pool, pages := n, content := content } where
  caches := hc
  bound := hn
  held q j hq := hu.stays q j (h.held q j hq) (h.pinned hq)
  pins q := (hu.pins q).trans (h.pins q)

theorem count_eraseP (l : List (PageId × Slot)) (p q : PageId) :
    ((l.eraseP fun h => h.1 = p).map Prod.fst).count q = if q = p then (l.map Prod.fst).count p - 1 else (l.map Prod.fst).count q := by
  induction l with
  | nil => simp
  | cons x xs ih =>
    rw [List.eraseP_cons]
    by_cases hx : x.1 = p
    · by_cases hq : q = p
      · simp [hx, hq]
      · have hne : ¬ p = q := fun h => hq h.symm
        simp [hx, hq, hne]
    · by_cases hq : q = p
      · subst hq
        simp [hx, ih]
      · simp [hx, hq, List.count_cons, ih]

/-- **One call**, returned or thrown. -/
theorem wp_body (h : σ.OK) (hd : c.disciplined σ) (hb : c.bounded σ) :
    wp c.body (fun _ pool => (σ.threw pool c).OK) (fun r pool => (σ.returned pool c r).OK) σ.pool := by
  cases c with
  | new_page =>
    unfold PoolCall.body
    rw [wp_bind]
    refine wp_mono (h.caches.wp_new_page hb) ?_ fun e pool hp => h.kept hp.1 hb hp.2.1
    rintro ⟨p, i⟩ pool ⟨hp, hc, hpin, -⟩
    obtain rfl : p = σ.pages := hp
    exact h.took hc hb hpin
  | fetch_page p =>
    unfold PoolCall.body
    rw [wp_bind]
    refine wp_mono (h.caches.wp_fetch_page h.bound p) ?_ fun e pool hp => h.kept hp.1 h.bound hp.2.1
    rintro i pool ⟨-, hpin, -⟩
    obtain ⟨hc, hp⟩ := hpin (by rw [h.pins]; exact hb)
    exact h.took hc h.bound hp
  | write slot page =>
    obtain ⟨p₀, hp₀⟩ := hd
    unfold PoolCall.body writeFrame
    rw [wp_bind, wp_modify, wp_pure]
    unfold returned
    dsimp only
    cases hf : σ.held.find? (fun x => decide (x.2 = slot)) with
    | none => exact absurd (List.find?_eq_none.1 hf _ hp₀) (by simp)
    | some x =>
      obtain ⟨p, j⟩ := x
      have hj : j = slot := by simpa using List.find?_some hf
      subst hj
      have hp := List.mem_of_find?_eq_some hf
      exact ⟨h.caches.written (h.held p j hp) (h.pinned hp) page, h.bound, h.held, h.pins⟩
  | unpin_page p d =>
    unfold PoolCall.body
    rw [wp_bind]
    refine wp_unpin_page ?_
    obtain ⟨hc, hpins⟩ := h.caches.unpinned (p := p) (d := d) fun hf h1 => by
      subst hf
      exact hd (by rw [← h.pins]; exact h1)
    refine ⟨hc, h.bound, fun q j hq => ?_, fun q => ?_⟩
    · rw [show (σ.returned (σ.pool.unpinned p d) (.unpin_page p d) none).pool = σ.pool.unpinned p d from rfl, unpinned_table]
      exact h.held q j (List.eraseP_sublist.subset hq)
    · rw [show (σ.returned (σ.pool.unpinned p d) (.unpin_page p d) none).pool = σ.pool.unpinned p d from rfl, hpins]
      show _ = ((σ.held.eraseP fun x => decide (x.1 = p)).map Prod.fst).count q
      rw [count_eraseP, h.pins, h.pins]
      rfl
  | flush_page p =>
    unfold PoolCall.body
    rw [wp_bind]
    exact wp_post (h.caches.wp_flush_page p) fun _ pool hp => h.kept hp.1 h.bound hp.2.1.unmoved
  | flush_all =>
    unfold PoolCall.body
    rw [wp_bind]
    exact wp_post h.caches.wp_flush_all fun _ pool hp => h.kept hp.1 h.bound hp.2.1.unmoved

theorem OK.step (h : σ.OK) (hd : c.disciplined σ) (hb : c.bounded σ) (hs : Step c σ σ') : σ'.OK := by
  cases hs with
  | returned hok => exact wp_ok (wp_body h hd hb) hok
  | threw herr => exact wp_error (wp_body h hd hb) herr

theorem ok_init {f : DbFile} (hf : f.pages < 2 ^ 32) : (init f).OK where
  caches := by
    have h := caches_init f
    rwa [Nat.mod_eq_of_lt hf] at h
  bound := hf
  held _ _ h := by cases h
  pins _ := rfl

theorem OK.promise (h : σ.OK) : σ.Kept where
  sound := h.caches.toSound
  pinned p i hp := ⟨h.held p i hp, h.pinned hp⟩
  fetched p _ _ hok := (wp_ok (h.caches.wp_fetch_page h.bound p) hok).1
  refused p _ _ herr := (wp_error (h.caches.wp_fetch_page h.bound p) herr).2.2.2

end Session

/-- **The pool keeps its promise.** In every sequence of calls, returned or thrown, in which written pages are given back as
dirty and no 32-bit count wraps, the tables agree, pinned pages stay, and a page fetched is as it was left. -/
theorem pool_keeps {f : DbFile} (hf : f.pages < 2 ^ 32) {σ : Session}
    (hrun : RunWhere Session.Step (fun c σ => c.disciplined σ ∧ c.bounded σ) (Session.init f) σ) : σ.Kept :=
  (hrun.invariant (Session.ok_init hf) fun _ _ _ h hok hs => h.step hok.1 hok.2 hs).promise

/-! ### A call after another -/

namespace Session

/-- The session after a call, whichever way it ends. -/
def call (σ : Session) (c : PoolCall) : Session :=
  match c.body σ.pool with
  | .ok r pool => σ.returned pool c r
  | .error _ pool => σ.threw pool c

theorem step_call (σ : Session) (c : PoolCall) : Step c σ (σ.call c) := by
  unfold call
  cases h : c.body σ.pool with
  | ok r pool => exact .returned h
  | error e pool => exact .threw h

/-- A file of `n` pages of zeros. -/
def zeros (n : ℕ) : DbFile := ⟨n, fun _ => RawPage.zero, fun _ _ => rfl⟩

end Session

open Session in
theorem pool_keeps_new : ((init (zeros 1)).call .new_page).Kept :=
  pool_keeps (f := zeros 1) (by decide) (.step .refl
    (show PoolCall.disciplined .new_page _ ∧ PoolCall.bounded .new_page _ from ⟨trivial, show 1 + 1 < 2 ^ 32 by decide⟩)
    (step_call _ .new_page))

open Session in
/-- **The page count wraps.** A file with one page less than 2^32, and one more page: page 0 is out of range. -/
theorem pool_wraps : ∃ σ, RunWhere Session.Step PoolCall.disciplined (init (zeros (2 ^ 32 - 1))) σ ∧ ¬ σ.Kept := by
  refine ⟨(init (zeros (2 ^ 32 - 1))).call .new_page, .step .refl
    (show PoolCall.disciplined .new_page _ from trivial) (step_call _ .new_page), fun hkept => ?_⟩
  have hthrow : (match BufferPool.fetch_page 0 ((init (zeros (2 ^ 32 - 1))).call .new_page).pool with
      | .ok _ _ => none
      | .error e _ => some e) = some (IoErr.out_of_range 0) := by decide +kernel
  have hpages : ((init (zeros (2 ^ 32 - 1))).call .new_page).pages = 2 ^ 32 := by decide +kernel
  cases hf : BufferPool.fetch_page 0 ((init (zeros (2 ^ 32 - 1))).call .new_page).pool with
  | ok i pool => rw [hf] at hthrow; cases hthrow
  | error e pool =>
    rw [hf] at hthrow
    cases hthrow
    rcases hkept.refused 0 _ pool hf with ⟨-, hle⟩ | ⟨he, -⟩
    · rw [hpages] at hle
      exact absurd hle (by decide)
    · cases he

end GSDBEngine
