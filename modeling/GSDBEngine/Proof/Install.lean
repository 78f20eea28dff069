import GSDBEngine.Proof.Pool
import GSDBEngine.Proof.Frames

/-!
# Replaying the log through the pool

Each committed image is copied into the frame of its page, which may push other pages out to
the file. However the 64 slots are reused, the pages end up as the log has them.

* `wp_install`, `wp_installs`: images into the pool.
* `installed_images`: the images in order are the replay of the records.
* `wp_recover`: **`recover` replays the whole frames of the log.**
-/

namespace GSDBEngine

namespace WALManager

open BufferPool Eff RedoLog

variable {s : WALManager} {n : ℕ} {c : PageId → RawPage} {U : PageId → Prop} {p q : PageId} {page : RawPage}
  {recs : List (Record RawPage)}

theorem wp_onPool {α : Type} {m : PoolM α} {E : IoErr → WALManager → Prop} {Q : α → WALManager → Prop} :
    wp (onPool m) E Q s ↔ wp m (fun e pool => E e { s with pool := pool }) (fun a pool => Q a { s with pool := pool }) s.pool := by
  unfold wp onPool
  cases m s.pool <;> rfl

/-! ### One image -/

/-- What an image copied into its frame does to the file and to the dirty pages. -/
def Dirtied (s : BufferPool) (c : PageId → RawPage) (p : PageId) (s' : BufferPool) : Prop :=
  ∃ s₁, Loads s c p s₁ ∧ s'.disk = s₁.disk ∧ ∀ q, DirtyAt s' q ↔ DirtyAt s₁ q ∨ q = p

/-- **An image into the frame of its page.** -/
theorem wp_install (h : Caches s.pool n c U) (hn : n < 2 ^ 32) (hpins : s.pool.pinsOf p + 1 < 2 ^ 32) :
    wp (install p page)
      (fun e s' => s' = { s with pool := s'.pool } ∧ (e = .out_of_range p ∧ n ≤ p ∨
        e = .all_pinned ∧ s.pool.page_table.lookup p = none ∧ ∀ i, 0 < (s.pool.frame_meta i).pin_count))
      (fun _ s' => s' = { s with pool := s'.pool } ∧ p < n ∧ Caches s'.pool n (Function.update c p page) (fun q => U q ∧ q ≠ p) ∧
        Unmoved s.pool s'.pool ∧ Dirtied s.pool c p s'.pool) s := by
  unfold install
  rw [wp_onPool, wp_bind]
  refine wp_mono (h.wp_fetch_page hn p) ?_ fun e pool he => ⟨rfl, he.2.2.2⟩
  rintro i s₁ ⟨-, hpin, hsp⟩
  obtain ⟨h₁, hp⟩ := hpin hpins
  have hpos : 0 < (s₁.frame_meta i).pin_count := by
    have := hp.pins p
    rw [pinsOf_some hp.lookup, if_pos rfl] at this
    omega
  have h₂ := h₁.written hp.lookup hpos page
  have hpins₂ : ∀ q, (s₁.setFrame i page).pinsOf q = s₁.pinsOf q := fun q => rfl
  obtain ⟨h₃, hpins₃⟩ := h₂.unpinned (p := p) (d := true) (fun hd => by cases hd)
  unfold writeFrame
  rw [wp_bind, wp_modify]
  refine wp_unpin_page ⟨rfl, h₁.in_file p i hp.lookup, h₃.congr (fun _ _ => rfl) fun q => ?_, ⟨fun q j hq hposq => ?_, fun q => ?_⟩,
    s₁, hsp, unpinned_disk .., fun q => ?_⟩
  · simp only [and_true]
    constructor
    · rintro ⟨hU, hq⟩
      exact ⟨Or.inr hU, hq⟩
    · rintro ⟨hU, hq⟩
      exact ⟨hU.resolve_left hq, hq⟩
  · rw [unpinned_table]
    exact hp.stays q j hq hposq
  · rw [hpins₃]
    simp only [hpins₂, hp.pins]
    split
    · rename_i hqp
      rw [hqp, if_pos trivial, Nat.add_sub_cancel]
    · rfl
  · rw [h₂.toSound.unpinned_dirty (by rw [hpins₂, hp.pins, if_pos rfl]; exact Nat.succ_pos _)]
    simp only [and_true]
    exact Iff.rfl

/-! ### All images -/

/-- No page has a pin. -/
def Quiet (s : BufferPool) : Prop := ∀ p, s.pinsOf p = 0

theorem Quiet.pin (h : Quiet s.pool) (hs : Sound s.pool) (i : Slot) : (s.pool.frame_meta i).pin_count = 0 := by
  by_cases hi : (s.pool.frame_meta i).page_id = INVALID_PAGE
  · rw [hs.free i hi]
  · rw [← pinsOf_some ((hs.table _ i).2 ⟨rfl, hi⟩)]
    exact h _

/-- The contents with images in place. -/
def installed (l : List (PageId × RawPage)) (c : PageId → RawPage) : PageId → RawPage :=
  l.foldl (fun c e => Function.update c e.1 e.2) c

theorem Dirtied.untouched {s s' : BufferPool} (h : Dirtied s c p s') (hqp : q ≠ p) (hq : ¬ DirtyAt s q) : Untouched s s' q := by
  obtain ⟨s₁, hsp, hd, hdirty⟩ := h
  obtain ⟨hdata, hclean⟩ := hsp.untouched hq
  exact ⟨by rw [hd]; exact hdata, fun hq' => ((hdirty q).1 hq').elim hclean hqp⟩

theorem Dirtied.pages {s s' : BufferPool} (h : Dirtied s c p s') (hc : Caches s n c U) : s'.disk.file.pages = s.disk.file.pages := by
  obtain ⟨s₁, hsp, hd, -⟩ := h
  rw [hd]
  exact hsp.pages hc

/-- What installing images changes. -/
structure Replayed (s : WALManager) (n : ℕ) (c : PageId → RawPage) (l : List (PageId × RawPage)) (s' : WALManager) : Prop where
  frame : s' = { s with pool := s'.pool }
  pages : ∀ x ∈ l, x.1 < n
  caches : Caches s'.pool n (installed l c) fun _ => False
  quiet : Quiet s'.pool
  size : s'.pool.disk.file.pages = s.pool.disk.file.pages
  others : ∀ q, (∀ x ∈ l, x.1 ≠ q) → ¬ DirtyAt s.pool q → Untouched s.pool s'.pool q

/-- **Images into the pool**, in any number. -/
theorem wp_installs (hn : n < 2 ^ 32) : ∀ {l : List (PageId × RawPage)} {s : WALManager} {c : PageId → RawPage},
    Caches s.pool n c (fun _ => False) → Quiet s.pool →
    wp (l.forM fun e => install e.1 e.2) (fun _ _ => ∃ x ∈ l, n ≤ x.1) (fun _ s' => Replayed s n c l s') s := by
  intro l
  induction l with
  | nil => intro s c h hq; exact ⟨rfl, by simp, h, hq, rfl, fun q _ hd => ⟨rfl, hd⟩⟩
  | cons x l ih =>
    intro s c h hq
    show wp (install x.1 x.2 >>= fun _ => l.forM fun e => install e.1 e.2) _ _ s
    rw [wp_bind]
    refine wp_mono (wp_install h hn (by rw [hq]; decide)) ?_ ?_
    · rintro ⟨⟩ s₁ ⟨hs₁, hx, h₁, hun, hdirt⟩
      have h₁' : Caches s₁.pool n (Function.update c x.1 x.2) fun _ => False := h₁.congr (fun _ _ => rfl) fun q => by simp
      refine wp_mono (ih h₁' fun q => by rw [hun.pins, hq]) ?_ fun e s₂ ⟨y, hy, hle⟩ => ⟨y, by simp [hy], hle⟩
      rintro ⟨⟩ s₂ hr
      refine ⟨?_, fun y hy => ?_, hr.caches, hr.quiet, hr.size.trans (hdirt.pages h), fun q hne hclean => ?_⟩
      · rw [hr.frame, hs₁]
      · rcases List.mem_cons.1 hy with rfl | hy
        · exact hx
        · exact hr.pages y hy
      · have hu := hdirt.untouched (q := q) (hne x (by simp)).symm hclean
        exact hu.trans (hr.others q (fun y hy => hne y (by simp [hy])) hu.clean)
    · rintro e s₁ ⟨-, ⟨-, hle⟩ | ⟨-, -, hall⟩⟩
      · exact ⟨x, by simp, hle⟩
      · have h0 := hall ⟨0, by decide⟩
        rw [Quiet.pin hq h.toSound] at h0
        exact absurd h0 (Nat.lt_irrefl 0)

/-! ### The images in order -/

theorem installed_append (l l' : List (PageId × RawPage)) : installed (l ++ l') c = installed l' (installed l c) :=
  List.foldl_append

/-- The images of one transaction: one for each page. -/
theorem installed_entries (m : PageMap) (c : PageId → RawPage) (p : PageId) :
    installed (m.entries.map fun e => (e.1, e.2)) c p = (m.lookup p).getD (c p) := by
  obtain ⟨entries, hnd⟩ := m
  show installed _ c p = (entries.dlookup p).getD (c p)
  induction entries generalizing c with
  | nil => rfl
  | cons e es ih =>
    obtain ⟨q, page⟩ := e
    obtain ⟨hq, hnd'⟩ := List.nodupKeys_cons.1 hnd
    show installed (es.map _) (Function.update c q page) p = _
    rw [ih (Function.update c q page) hnd']
    by_cases hqp : p = q
    · subst hqp
      rw [List.dlookup_cons_eq, List.dlookup_eq_none.2 hq]
      exact Function.update_self ..
    · rw [List.dlookup_cons_ne _ _ hqp, Function.update_of_ne hqp]

/-- Page `p` has an image of a committed transaction. -/
def Logged (recs : List (Record RawPage)) (p : PageId) : Prop := ∃ t ∈ commits recs, imageOf t p recs ≠ none

variable {found : Scan}

/-- **The images found, one after the other, are the replay.** -/
theorem installed_images (h : Found found recs) (c : PageId → RawPage) (p : PageId) :
    installed found.images c p = replay recs c p := by
  unfold Scan.images replay applyAll
  rw [h.commits]
  generalize commits recs = ts
  induction ts generalizing c with
  | nil => rfl
  | cons t ts ih =>
    rw [List.flatMap_cons, installed_append, ih, installed_entries, h.images, List.foldl_cons]

theorem mem_images (h : Found found recs) (p : PageId) : (∃ x ∈ found.images, x.1 = p) ↔ Logged recs p := by
  unfold Scan.images Logged
  rw [h.commits]
  constructor
  · rintro ⟨x, hx, rfl⟩
    obtain ⟨t, ht, hx⟩ := List.mem_flatMap.1 hx
    obtain ⟨e, he, rfl⟩ := List.mem_map.1 hx
    refine ⟨t, ht, ?_⟩
    rw [← h.images, AList.mem_lookup_iff.2 he]
    exact Option.some_ne_none _
  · rintro ⟨t, ht, hne⟩
    obtain ⟨page, hpage⟩ := Option.ne_none_iff_exists'.1 hne
    rw [← h.images] at hpage
    exact ⟨(p, page), List.mem_flatMap.2 ⟨t, ht, List.mem_map.2 ⟨⟨p, page⟩, AList.mem_lookup_iff.1 hpage, rfl⟩⟩, rfl⟩

/-- A page that has a committed image ends as the log has it, whatever it was. -/
theorem replay_logged (h : Logged recs p) (base base' : PageId → RawPage) : replay recs base p = replay recs base' p := by
  obtain ⟨t, ht, hne⟩ := h
  unfold replay applyAll
  generalize base p = a
  generalize base' p = b
  revert a b
  generalize commits recs = ts at ht
  induction ts with
  | nil => cases ht
  | cons u us ih =>
    intro a b
    simp only [List.foldl_cons]
    by_cases hu : t ∈ us
    · exact ih hu _ _
    · obtain rfl : t = u := (List.mem_cons.1 ht).resolve_right hu
      obtain ⟨page, hpage⟩ := Option.ne_none_iff_exists'.1 hne
      rw [hpage]
      rfl

theorem replay_not_logged (h : ¬ Logged recs p) (base : PageId → RawPage) : replay recs base p = base p := by
  unfold replay applyAll
  generalize base p = a
  have hnone : ∀ t ∈ commits recs, imageOf t p recs = none := fun t ht => by
    by_contra hne
    exact h ⟨t, ht, hne⟩
  revert hnone
  generalize commits recs = ts
  intro hnone
  induction ts with
  | nil => rfl
  | cons u us ih =>
    rw [List.foldl_cons, hnone u (by simp)]
    exact ih fun t ht => hnone t (by simp [ht])

/-! ### The next transaction id -/

/-- `next_transaction_id_` after the commit records `ts`. -/
def nextId (next : ℕ) (ts : List ℕ) : ℕ := ts.foldl (fun next t => if next ≤ t then (t + 1) % 2 ^ 32 else next) next

theorem foldl_next (recs : List (Record RawPage)) (s : Scan) :
    (recs.foldl Scan.add s).next_transaction_id = nextId s.next_transaction_id (commits recs) := by
  induction recs generalizing s with
  | nil => rfl
  | cons r recs ih =>
    rw [List.foldl_cons, ih]
    cases r <;> rfl

theorem le_nextId {ts : List ℕ} : ∀ next : ℕ, (∀ t ∈ ts, t + 1 < 2 ^ 32) → next ≤ nextId next ts ∧ ∀ t ∈ ts, t < nextId next ts := by
  induction ts with
  | nil => intro next _; exact ⟨le_refl _, by simp⟩
  | cons u us ih =>
    intro next h
    have hu := h u (by simp)
    show next ≤ nextId (if next ≤ u then (u + 1) % 2 ^ 32 else next) us ∧ ∀ t ∈ u :: us, t < nextId (if next ≤ u then (u + 1) % 2 ^ 32 else next) us
    obtain ⟨hle, hlt⟩ := ih (if next ≤ u then (u + 1) % 2 ^ 32 else next) fun t ht => h t (by simp [ht])
    rw [Nat.mod_eq_of_lt hu] at hle hlt ⊢
    have hnext : next ≤ (if next ≤ u then u + 1 else next) ∧ u < (if next ≤ u then u + 1 else next) := by
      split <;> omega
    refine ⟨hnext.1.trans hle, fun t ht => ?_⟩
    rcases List.mem_cons.1 ht with rfl | ht
    · exact hnext.2.trans_le hle
    · exact hlt t ht

theorem nextId_lt {ts : List ℕ} : ∀ {next : ℕ}, next < 2 ^ 32 → nextId next ts < 2 ^ 32 := by
  induction ts with
  | nil => intro next h; exact h
  | cons u us ih =>
    intro next h
    have hnext : (if next ≤ u then (u + 1) % 2 ^ 32 else next) < 2 ^ 32 := by
      split
      · exact Nat.mod_lt _ (by decide)
      · exact h
    exact ih hnext

/-! ### `recover` -/

/-- A pool without pins on `n` pages, and a log of whole frames with a torn one behind them. -/
structure Crashed (s : WALManager) (n : ℕ) (c : PageId → RawPage) (recs : List (Record RawPage)) : Prop where
  caches : Caches s.pool n c fun _ => False
  quiet : Quiet s.pool
  typed : ∀ r ∈ recs, Typed r
  log : ∃ tail, Torn tail ∧ s.wal = recs.flatMap frameBytes ++ tail

/-- What `recover` leaves. -/
structure Recovered (s : WALManager) (n : ℕ) (c : PageId → RawPage) (recs : List (Record RawPage)) (s' : WALManager) : Prop where
  pages : ∀ p, Logged recs p → p < n
  caches : Caches s'.pool n (replay recs c) fun _ => False
  quiet : Quiet s'.pool
  file : ∀ p, p < n → s'.pool.disk.file.data p = replay recs c p
  past : ∀ p, n ≤ p → s'.pool.disk.file.data p = s.pool.disk.file.data p
  size : s'.pool.disk.file.pages = s.pool.disk.file.pages
  wal : s'.wal = []
  next : s'.next_transaction_id = nextId s.next_transaction_id (commits recs)

theorem Crashed.scan (h : Crashed s n c recs) : ∃ found, Found found recs ∧
    WALManager.scan s = .ok found { s with next_transaction_id := nextId s.next_transaction_id (commits recs) } := by
  obtain ⟨tail, htail, hlog⟩ := h.log
  have hloop : scanLoop s.wal.length (recs.flatMap frameBytes ++ tail) ⟨∅, [], s.next_transaction_id⟩ = _ :=
    scanLoop_frames _ h.typed htail (by rw [hlog, List.length_append]; exact Nat.le_add_right ..)
  rw [← hlog] at hloop
  refine ⟨recs.foldl Scan.add ⟨∅, [], s.next_transaction_id⟩, (found_nil _).foldl, ?_⟩
  show EStateM.Result.ok (scanLoop s.wal.length s.wal ⟨∅, [], s.next_transaction_id⟩) { s with
    next_transaction_id := (scanLoop s.wal.length s.wal ⟨∅, [], s.next_transaction_id⟩).next_transaction_id } = _
  rw [hloop, foldl_next]

/-- **`recover`** replays the whole frames of the log on the pages, if the file has the pages they are for. -/
theorem Crashed.wp_recover (h : Crashed s n c recs) (hn : n < 2 ^ 32) :
    wp recover (fun _ _ => ∃ p, Logged recs p ∧ n ≤ p) (fun _ s' => Recovered s n c recs s') s := by
  obtain ⟨found, hf, hscan⟩ := h.scan
  unfold recover
  rw [wp_bind]
  unfold wp
  rw [hscan]
  show wp (found.images.forM (fun e => install e.1 e.2) >>= fun _ => checkpoint) _ _ _
  rw [wp_bind]
  refine wp_mono (wp_installs hn (l := found.images) (s := { s with next_transaction_id := _ }) h.caches h.quiet) ?_ ?_
  · rintro ⟨⟩ s₁ hr
    have hc : Caches s₁.pool n (replay recs c) fun _ => False :=
      hr.caches.congr (fun q _ => (installed_images hf c q).symm) fun _ => Iff.rfl
    unfold checkpoint
    rw [wp_bind, wp_onPool]
    refine wp_post hc.wp_flush_all ?_
    rintro ⟨⟩ pool ⟨hc', hfl, hdata, -, -, hsize, hothers⟩
    unfold truncate
    rw [wp_modify]
    have hpages : ∀ p, Logged recs p → p < n := fun p hp => by
      obtain ⟨x, hx, rfl⟩ := (mem_images hf p).2 hp
      exact hr.pages x hx
    refine ⟨hpages, hc', fun p => ?_, fun p hp => hdata p hp id, fun p hp => ?_, hsize.trans hr.size, rfl, ?_⟩
    · show pool.pinsOf p = 0
      rw [hfl.unmoved.pins, hr.quiet]
    · -- a page the pool does not know is neither dirty nor logged
      have hclean : ¬ DirtyAt s.pool p := fun ⟨i, hi, _⟩ => absurd (h.caches.in_file p i hi) (Nat.not_lt.2 hp)
      have hun := hr.others p (fun x hx hxp => absurd (hr.pages x hx) (by rw [hxp]; exact Nat.not_lt.2 hp)) hclean
      exact ((hothers p hun.clean).data.trans hun.data :)
    · show s₁.next_transaction_id = _
      rw [hr.frame]
  · rintro e s₁ ⟨x, hx, hle⟩
    exact ⟨x.1, (mem_images hf x.1).1 ⟨x, hx, rfl⟩, hle⟩

end WALManager

end GSDBEngine
