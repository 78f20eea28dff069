import GSDBEngine.Proof.Stored
import GSDBEngine.Proof.Recover
import GSDBEngine.Spec.Engine

/-!
# A crash at any point

The invariant of the steps: the log has whole frames and at most one cut short behind them,
its replay on the file gives the committed pages, and whatever of these is not in the file is
dirty in the pool or about to be copied there (`Engine.Inv`).

* `wp_client`, `Inv.step`: each step keeps it, under the conditions.
* `Inv.yields`: recovery gives the committed pages.
-/

namespace GSDBEngine

open Eff RedoLog BufferPool WALManager

/-! ### Appends -/

namespace WALManager

variable {s : WALManager} {l l' : Option ℕ} {t : ℕ} {p : PageId} {page : RawPage}

/-- The beginning of a frame, but not the whole. -/
def Stub (part : Bytes) : Prop := ∃ r, part <+: frameBytes r ∧ part ≠ frameBytes r

theorem Stub.torn {part : Bytes} (h : Stub part) : Torn part := by
  obtain ⟨r, hpre, hne⟩ := h
  exact torn_of_prefix hpre hne

theorem stub_nil : Stub [] := ⟨.commit 0, List.nil_prefix, by decide⟩

theorem wp_write_bytes (data : Bytes) : wp (write_bytes l data)
    (fun _ s' => ∃ part, part <+: data ∧ part ≠ data ∧ s' = { s with wal := s.wal ++ part })
    (fun _ s' => s' = { s with wal := s.wal ++ data }) s := by
  unfold write_bytes
  rw [wp_bind, wp_modify, wp_ite]
  constructor
  · intro hne
    refine ⟨_, List.take_prefix .., fun heq => hne ?_, rfl⟩
    have hlen := congrArg List.length heq
    rw [List.length_take] at hlen
    omega
  · intro heq
    rw [not_not.1 heq, List.take_length]
    rfl

theorem wp_write : wp (write l l' t p page)
    (fun _ s' => ∃ part, Stub part ∧ s' = { s with wal := s.wal ++ part })
    (fun _ s' => s' = { s with wal := s.wal ++ frameBytes (.pageWrite t p page), active_pages := s.active_pages.insert p page }) s := by
  have hframe : frameBytes (.pageWrite t p page) = headerBytes .PAGE_WRITE t p ++ page.data := rfl
  unfold write
  rw [wp_bind]
  refine wp_mono (wp_write_bytes _) ?_ ?_
  · rintro ⟨⟩ s₁ rfl
    rw [wp_bind]
    refine wp_mono (wp_write_bytes _) ?_ ?_
    · rintro ⟨⟩ s₂ rfl
      rw [wp_modify, hframe, ← List.append_assoc]
    · rintro e s₂ ⟨part, hpre, hne, rfl⟩
      refine ⟨headerBytes .PAGE_WRITE t p ++ part, ⟨.pageWrite t p page, ?_, fun heq => hne ?_⟩, ?_⟩
      · rw [hframe]
        exact (List.prefix_append_right_inj _).2 hpre
      · rw [hframe] at heq
        exact List.append_cancel_left heq
      · rw [← List.append_assoc]
  · rintro e s₁ ⟨part, hpre, hne, rfl⟩
    refine ⟨part, ⟨.pageWrite t p page, hpre.trans (List.prefix_append ..), fun heq => ?_⟩, rfl⟩
    have hle := hpre.length_le
    rw [heq, hframe, List.length_append, page.size] at hle
    exact absurd hle (by unfold PAGE_SIZE; omega)

end WALManager

/-! ### Calls on the pool -/

namespace Session

variable {σ : Session} {c : PoolCall} {recs : List (Record RawPage)} {com : PageId → RawPage} {due : PageId → Prop}

theorem dirty_unpinned (h : σ.OK) {p q : PageId} {d : Bool} (hq : DirtyAt σ.pool q) : DirtyAt (σ.pool.unpinned p d) q := by
  by_cases hpos : 0 < σ.pool.pinsOf p
  · exact (h.caches.toSound.unpinned_dirty hpos q).2 (Or.inl hq)
  · obtain ⟨i, hi, hd⟩ := hq
    refine ⟨i, by rw [unpinned_table]; exact hi, ?_⟩
    unfold BufferPool.unpinned
    cases hp : σ.pool.page_table.lookup p with
    | none => exact hd
    | some j =>
      rw [pinsOf_some hp] at hpos
      dsimp only
      rw [if_pos (Nat.eq_zero_of_not_pos hpos)]
      exact hd

/-- The pages a call may write to the file. -/
def writesBack (σ : Session) : PoolCall → PageId → Prop
  | .new_page, q => Victim σ.pool q
  | .fetch_page p, q => σ.pool.page_table.lookup p = none ∧ Victim σ.pool q
  | .flush_page p, q => q = p
  | _, _ => False

/-- **One call** and the file, returned or thrown. -/
theorem wp_stored (h : σ.OK) (hst : Stored σ.pool σ.pages recs com due) (hpages : ∀ p, WALManager.Logged recs p → p < σ.pages)
    (hb : c.bounded σ) (hall : c ≠ .flush_all)
    (hset : ∀ q, σ.writesBack c q → DirtyAt σ.pool q → σ.content q = com q ∨ due q ∧ WALManager.Logged recs q) :
    wp c.body (fun _ pool => Stored pool (σ.threw pool c).pages recs com due)
      (fun r pool => Stored pool (σ.returned pool c r).pages recs com due) σ.pool := by
  cases c with
  | new_page =>
    have hst₁ := hst.allocated h.caches hpages
    have hset₁ : ∀ q, Victim { σ.pool with disk := σ.pool.disk.allocate_page.2 } q →
        DirtyAt { σ.pool with disk := σ.pool.disk.allocate_page.2 } q →
        Function.update σ.content σ.pages RawPage.zero q = com q ∨ due q ∧ WALManager.Logged recs q := fun q hv hq => by
      have hne : q ≠ σ.pages := by
        obtain ⟨i, hi, -⟩ := hq
        exact (h.caches.in_file q i hi).ne
      rw [Function.update_of_ne hne]
      exact hset q hv hq
    unfold PoolCall.body
    rw [wp_bind]
    refine wp_mono (h.caches.wp_new_page hb) ?_ ?_
    · rintro ⟨p, i⟩ pool ⟨-, -, -, hsp⟩
      exact hst₁.writtenBack (h.caches.allocated hb) hsp hset₁
    · rintro e pool ⟨-, -, hsp⟩
      exact hst₁.writtenBack (h.caches.allocated hb) hsp hset₁
  | fetch_page p =>
    unfold PoolCall.body
    rw [wp_bind]
    refine wp_mono (h.caches.wp_fetch_page h.bound p) ?_ ?_
    · rintro i pool ⟨-, -, hld⟩
      exact hst.writtenBack h.caches hld hset
    · rintro e pool ⟨-, -, hld, -⟩
      exact hst.writtenBack h.caches hld hset
  | write slot page =>
    unfold PoolCall.body writeFrame
    rw [wp_bind, wp_modify, wp_pure]
    unfold returned
    dsimp only
    split
    · exact hst.congr rfl fun q _ hq => hq
    · exact hst.congr rfl fun q _ hq => hq
  | unpin_page p d =>
    unfold PoolCall.body
    rw [wp_bind]
    refine wp_unpin_page ?_
    exact hst.congr (unpinned_disk ..) fun q _ hq => hq.imp (dirty_unpinned h) id
  | flush_page p =>
    unfold PoolCall.body
    rw [wp_bind]
    exact wp_post (h.caches.wp_flush_page p) fun _ pool hp => hst.writtenBack h.caches hp.2.2.2 hset
  | flush_all => exact absurd rfl hall

theorem returned_pool (σ : Session) (pool : BufferPool) (c : PoolCall) (r : Option (PageId × Slot)) :
    (σ.returned pool c r).pool = pool := by
  cases c with
  | write slot page =>
    unfold returned
    dsimp only
    split <;> rfl
  | _ => rfl

theorem threw_pool (σ : Session) (pool : BufferPool) (c : PoolCall) : (σ.threw pool c).pool = pool := by
  cases c <;> rfl

theorem Step.stored {τ : Session} (hs : Step c σ τ) (h : σ.OK) (hst : Stored σ.pool σ.pages recs com due)
    (hpages : ∀ p, WALManager.Logged recs p → p < σ.pages) (hb : c.bounded σ) (hall : c ≠ .flush_all)
    (hset : ∀ q, σ.writesBack c q → DirtyAt σ.pool q → σ.content q = com q ∨ due q ∧ WALManager.Logged recs q) :
    Stored τ.pool τ.pages recs com due := by
  have hwp := wp_stored h hst hpages hb hall hset
  cases hs with
  | returned hok =>
    rw [returned_pool]
    exact (wp_ok hwp hok :)
  | threw herr =>
    rw [threw_pool]
    exact (wp_error hwp herr :)

theorem Step.pages_le {τ : Session} (hs : Step c σ τ) : σ.pages ≤ τ.pages := by
  cases hs with
  | returned hok =>
    cases c with
    | new_page => exact Nat.le_succ _
    | write slot page =>
      unfold Session.returned
      dsimp only
      split <;> exact le_refl _
    | _ => exact le_refl _
  | threw herr =>
    cases c with
    | new_page => exact Nat.le_succ _
    | _ => exact le_refl _

end Session

/-! ### The invariant -/

namespace Engine

variable {σ σ' : Engine} {t : ℕ} {p : PageId}

/-- The pages that the running commit has not copied into the pool yet. -/
def dueIn (σ : Engine) : Phase → PageId → Prop
  | .syncing, p => σ.pending p ≠ none
  | .installing rest, p => ∃ x ∈ rest, x.1 = p
  | _, _ => False

/-- The images of the running transaction. -/
structure Running (σ : Engine) (t : ℕ) : Prop where
  lt : t < 2 ^ 32
  uncommitted : t ∉ commits σ.log
  pending : ∀ p, σ.pending p = imageOf t p σ.log
  active : ∀ p, σ.active_pages.lookup p = σ.pending p

/-- The COMMIT frame is the last one, and nothing has been copied yet. -/
structure Appended (σ : Engine) (t : ℕ) (recs : List (Record RawPage)) : Prop where
  log : σ.log = recs ++ [.commit t]
  framed : σ.wal = σ.log.flatMap frameBytes
  pending : ∀ p, σ.pending p = imageOf t p recs
  active : ∀ p, σ.active_pages.lookup p = σ.pending p
  redo : Redo recs σ.returned σ.pool.disk
  committed : ∀ p, σ.committed p = (σ.pending p).getD (σ.returned p)

structure Flushing (σ : Engine) (rest : List PageId) : Prop where
  returned : σ.returned = σ.committed
  running : σ.running = none
  dirty : ∀ p, DirtyAt σ.pool p → p ∈ rest

def PhaseOK (σ : Engine) : Phase → Prop
  | .idle => σ.returned = σ.committed ∧ ∀ t, σ.running = some t → σ.Running t
  | .syncing => ∃ t recs, σ.Appended t recs
  | .installing rest => ∀ x ∈ rest, σ.committed x.1 = x.2 ∧ WALManager.Logged σ.log x.1
  | .flushing rest => σ.Flushing rest
  | .truncating => σ.Flushing [] ∧ σ.pool.disk.synced = σ.pool.disk.file ∧ σ.pool.disk.unsynced = []

/-- **The invariant of the steps.** -/
structure Inv (σ : Engine) : Prop where
  ok : σ.session.OK
  stored : Stored σ.pool σ.pages σ.log σ.committed (σ.dueIn σ.phase)
  typed : ∀ r ∈ σ.log, Typed r
  next : σ.next_transaction_id < 2 ^ 32
  wal : ∃ part, Stub part ∧ σ.wal = σ.log.flatMap frameBytes ++ part
  images : ∀ t p, imageOf t p σ.log ≠ none → p < σ.pages
  phase : σ.PhaseOK σ.phase

theorem Inv.logged (h : σ.Inv) (hp : WALManager.Logged σ.log p) : p < σ.pages := by
  obtain ⟨t, -, hne⟩ := hp
  exact h.images t p hne

/-- **Recovery gives the committed pages.** -/
theorem Inv.yields (h : σ.Inv) : Yields σ.wal σ.pool.disk.file σ.committed := by
  obtain ⟨part, hpart, hwal⟩ := h.wal
  have hread : Readable σ.wal σ.pool.disk.file σ.log := by
    refine ⟨h.typed, ⟨part, hpart.torn, hwal⟩, fun p hp => ?_⟩
    rw [h.stored.size, Nat.mod_eq_of_lt (show σ.pages < 2 ^ 32 from h.ok.bound)]
    exact h.logged hp
  obtain ⟨s, hs, hr⟩ := hread.recover
  refine ⟨s, hs, fun p => ?_⟩
  rw [hr.data p]
  exact h.stored.redo.replay h.stored.survives p

theorem inv_init {f : DbFile} (hf : f.pages < 2 ^ 32) : (init f).Inv where
  ok := Session.ok_init hf
  stored := ⟨rfl, rfl, ⟨fun p hp => absurd hp not_logged_nil, fun _ _ => rfl, fun _ _ w hw => by cases hw⟩, fun _ => Or.inl rfl⟩
  typed r hr := by cases hr
  next := show 1 < 2 ^ 32 by decide
  wal := ⟨[], stub_nil, rfl⟩
  images t p hne := absurd rfl hne
  phase := ⟨rfl, fun t ht => by cases ht⟩

/-! ### The steps -/

theorem Inv.client {c : PoolCall} {τ : Session} (h : σ.Inv) (hph : σ.phase = .idle) (hd : Event.disciplined (.client c) σ)
    (hb : c.bounded σ.session) (hset : Event.settled (.client c) σ) (hs : Session.Step c σ.session τ) : (σ.withSession τ).Inv := by
  have hphase := h.phase
  have hst := h.stored
  rw [hph] at hphase hst
  have hsettled : ∀ q, σ.Settled q → σ.content q = σ.committed q ∨ σ.dueIn .idle q ∧ WALManager.Logged σ.log q := fun q hq => by
    unfold Settled at hq
    rw [hph] at hq
    exact hq.imp id False.elim
  have hst' := hs.stored h.ok hst (fun p hp => h.logged hp) hb hd.2 fun q hw hq => by
    refine hsettled q ?_
    obtain ⟨i, hi, hdirty⟩ := hq
    cases c with
    | new_page =>
      obtain ⟨j, hj, hq⟩ := hw
      rw [hi] at hq
      cases hq
      exact hset q ⟨i, hj, hi, hdirty⟩
    | fetch_page p =>
      obtain ⟨hnone, j, hj, hq⟩ := hw
      rw [hi] at hq
      cases hq
      exact hset hnone q ⟨i, hj, hi, hdirty⟩
    | flush_page p =>
      obtain rfl : q = p := hw
      exact hset ⟨i, hi, hdirty⟩
    | write slot page => exact hw.elim
    | unpin_page p d => exact hw.elim
    | flush_all => exact hw.elim
  refine ⟨h.ok.step hd.1 hb hs, ?_, h.typed, h.next, h.wal, fun t p hne => (h.images t p hne).trans_le hs.pages_le, ?_⟩
  · show Stored τ.pool τ.pages σ.log σ.committed (σ.dueIn σ.phase)
    rw [hph]
    exact hst'
  · show PhaseOK _ σ.phase
    rw [hph]
    exact ⟨hphase.1, fun t ht => { hphase.2 t ht with }⟩

theorem Inv.begin {s : WALManager} (h : σ.Inv) (hph : σ.phase = .idle) (hfresh : Event.bounded .begin σ)
    (hs : WALManager.begin σ.toWALManager = .ok t s) :
    Inv { σ with toWALManager := s, running := some t, pending := fun _ => none } := by
  have hphase := h.phase
  have hst := h.stored
  rw [hph] at hphase hst
  cases hs
  refine ⟨h.ok, ?_, h.typed, Nat.mod_lt _ (by decide), h.wal, h.images, ?_⟩
  · show Stored σ.pool σ.pages σ.log σ.committed (dueIn _ σ.phase)
    rw [hph]
    exact hst
  · show PhaseOK _ σ.phase
    rw [hph]
    refine ⟨hphase.1, fun t ht => ?_⟩
    obtain rfl := Option.some.inj ht
    refine ⟨h.next, fun hmem => hfresh _ (mem_commits.1 hmem) rfl, fun p => (imageOf_eq_none hfresh).symm, fun p => rfl⟩

theorem Inv.write {l l' : Option ℕ} {page : RawPage} {s : WALManager} (h : σ.Inv) (hph : σ.phase = .idle)
    (hrun : σ.running = some t) (hp : p < σ.pages) (hfr : σ.wal = σ.log.flatMap frameBytes)
    (hs : WALManager.write l l' t p page σ.toWALManager = .ok () s) :
    Inv { σ with toWALManager := s, log := σ.log ++ [.pageWrite t p page], pending := Function.update σ.pending p (some page) } := by
  have hphase := h.phase
  have hst := h.stored
  rw [hph] at hphase hst
  have hr := hphase.2 t hrun
  obtain rfl := wp_ok wp_write hs
  have hbound : p < 2 ^ 32 := hp.trans h.ok.bound
  refine ⟨h.ok, ?_, fun r hr' => ?_, h.next, ⟨[], stub_nil, ?_⟩, fun u q hne => ?_, ?_⟩
  · show Stored σ.pool σ.pages _ σ.committed (dueIn _ σ.phase)
    rw [hph]
    exact { hst with redo := hst.redo.pageWrite hr.uncommitted }
  · rcases List.mem_append.1 hr' with hr' | hr'
    · exact h.typed r hr'
    · obtain rfl := List.mem_singleton.1 hr'
      exact ⟨hr.lt, hbound⟩
  · show σ.wal ++ frameBytes _ = (σ.log ++ _).flatMap frameBytes ++ []
    rw [hfr, List.flatMap_append, List.append_nil, List.flatMap_singleton]
  · rw [imageOf_pageWrite] at hne
    by_cases hq : t = u ∧ p = q
    · rw [← hq.2]
      exact hp
    · rw [if_neg hq] at hne
      exact h.images u q hne
  · show PhaseOK _ σ.phase
    rw [hph]
    refine ⟨hphase.1, fun u hu => ?_⟩
    obtain rfl : t = u := Option.some.inj (hrun.symm.trans hu)
    refine ⟨hr.lt, ?_, fun q => ?_, fun q => ?_⟩
    · show t ∉ commits (σ.log ++ _)
      rw [commits_append]
      simpa [commits] using hr.uncommitted
    · show Function.update σ.pending p (some page) q = imageOf t q (σ.log ++ _)
      rw [imageOf_pageWrite, Function.update_apply]
      by_cases hq : q = p
      · rw [if_pos hq, if_pos ⟨rfl, hq.symm⟩]
      · rw [if_neg hq, if_neg fun hc => hq hc.2.symm]
        exact hr.pending q
    · show (σ.active_pages.insert p page).lookup q = Function.update σ.pending p (some page) q
      by_cases hq : q = p
      · rw [hq, AList.lookup_insert, Function.update_self]
      · rw [AList.lookup_insert_ne hq, Function.update_of_ne hq]
        exact hr.active q

/-- An append that stops short. -/
theorem Inv.short {part : Bytes} (h : σ.Inv) (hph : σ.phase = .idle) (hfr : σ.wal = σ.log.flatMap frameBytes) (hpart : Stub part) :
    Inv { σ with wal := σ.wal ++ part } := by
  have hphase := h.phase
  rw [hph] at hphase
  refine ⟨h.ok, h.stored, h.typed, h.next, ⟨part, hpart, ?_⟩, h.images, ?_⟩
  · rw [hfr]
  · show PhaseOK _ σ.phase
    rw [hph]
    exact ⟨hphase.1, fun t ht => { hphase.2 t ht with }⟩

theorem Inv.commit {l : Option ℕ} {s : WALManager} (h : σ.Inv) (hph : σ.phase = .idle) (hrun : σ.running = some t)
    (hfr : σ.wal = σ.log.flatMap frameBytes)
    (hs : write_bytes l (headerBytes .COMMIT t INVALID_PAGE) σ.toWALManager = .ok () s) :
    Inv { σ with toWALManager := s, phase := .syncing, log := σ.log ++ [.commit t], committed := σ.overlay } := by
  have hphase := h.phase
  have hst := h.stored
  rw [hph] at hphase hst
  have hr := hphase.2 t hrun
  obtain rfl := wp_ok (wp_write_bytes _) hs
  have hover : σ.overlay = fun p => (imageOf t p σ.log).getD (σ.committed p) := funext fun p => by
    unfold overlay
    rw [hr.pending p]
  refine ⟨h.ok, ⟨hst.size, hst.written, ?_, fun q => ?_⟩, fun r hr' => ?_, h.next, ⟨[], stub_nil, ?_⟩, fun u q hne => ?_, t, σ.log,
    rfl, ?_, hr.pending, hr.active, ?_, fun q => ?_⟩
  · show Redo (σ.log ++ _) σ.overlay σ.pool.disk
    rw [hover]
    exact hst.redo.commit
  · show _ = σ.overlay q ∨ _ ∨ σ.pending q ≠ none
    unfold overlay
    by_cases hq : σ.pending q = none
    · rw [hq]
      exact (hst.file q).imp id fun hd => Or.inl (hd.resolve_right id)
    · exact Or.inr (Or.inr hq)
  · rcases List.mem_append.1 hr' with hr' | hr'
    · exact h.typed r hr'
    · obtain rfl := List.mem_singleton.1 hr'
      exact hr.lt
  · show σ.wal ++ frameBytes (.commit t) = (σ.log ++ [Record.commit t]).flatMap frameBytes ++ []
    rw [hfr, List.flatMap_append, List.append_nil, List.flatMap_singleton]
  · rw [imageOf_commit] at hne
    exact h.images u q hne
  · show σ.wal ++ frameBytes (.commit t) = (σ.log ++ [Record.commit t]).flatMap frameBytes
    rw [hfr, List.flatMap_append, List.flatMap_singleton]
  · rw [show σ.returned = σ.committed from hphase.1]
    exact hst.redo
  · show σ.overlay q = (σ.pending q).getD (σ.returned q)
    rw [hphase.1]
    rfl

theorem Inv.fsync {rest : List (PageId × RawPage)} {s : WALManager} (h : σ.Inv) (hph : σ.phase = .syncing)
    (hrest : rest.Perm (σ.active_pages.entries.map fun e => (e.1, e.2))) (hs : WALManager.fsync σ.toWALManager = .ok () s) :
    Inv { σ with toWALManager := s, phase := .installing rest } := by
  have hphase := h.phase
  have hst := h.stored
  rw [hph] at hphase hst
  obtain ⟨t, recs, ha⟩ := hphase
  cases hs
  have hmem : ∀ p page, (p, page) ∈ rest ↔ σ.pending p = some page := fun p page => by
    rw [hrest.mem_iff, ← ha.active p]
    constructor
    · intro hx
      obtain ⟨e, he, heq⟩ := List.mem_map.1 hx
      cases heq
      exact AList.mem_lookup_iff.2 he
    · intro hx
      exact List.mem_map.2 ⟨⟨p, page⟩, AList.mem_lookup_iff.1 hx, rfl⟩
  refine ⟨h.ok, hst.congr rfl fun q _ hq => hq.imp id fun hq => ?_, h.typed, h.next, h.wal, h.images, fun x hx => ?_⟩
  · obtain ⟨page, hpage⟩ := Option.ne_none_iff_exists'.1 hq
    exact ⟨(q, page), (hmem q page).2 hpage, rfl⟩
  · have hpend := (hmem x.1 x.2).1 hx
    refine ⟨?_, ?_⟩
    · show σ.committed x.1 = x.2
      rw [ha.committed, hpend]
      rfl
    · show WALManager.Logged σ.log x.1
      rw [ha.log, logged_commit, ← ha.pending, hpend]
      exact Or.inr (Option.some_ne_none _)

/-- What a step does with the pool, as `wp_install` has it. -/
theorem Inv.wp_install {page : RawPage} {rest : List (PageId × RawPage)} (h : σ.Inv) (hph : σ.phase = .installing ((p, page) :: rest))
    (hb : Event.bounded .install σ) (hroom : Event.roomy .install σ) :
    wp (WALManager.install p page) (fun _ _ => False)
      (fun _ s' => s' = { σ.toWALManager with pool := s'.pool } ∧
        Caches s'.pool σ.pages (Function.update σ.content p page) (fun q => σ.unreported q ∧ q ≠ p) ∧
        Unmoved σ.pool s'.pool ∧ Dirtied σ.pool σ.content p s'.pool) σ.toWALManager := by
  have hphase := h.phase
  rw [hph] at hphase
  have hp : p < σ.pages := h.logged (hphase (p, page) (by simp)).2
  refine wp_mono (WALManager.wp_install (s := σ.toWALManager) h.ok.caches h.ok.bound ?_) ?_ ?_
  · rw [show σ.toWALManager.pool.pinsOf p = σ.session.pins p from h.ok.pins p]
    exact hb p page rest hph
  · rintro ⟨⟩ s ⟨hs, -, hc, hu, hd⟩
    exact ⟨hs, hc, hu, hd⟩
  · rintro e s ⟨-, ⟨-, hle⟩ | ⟨-, hnone, hall⟩⟩
    · exact absurd hp (Nat.not_lt.2 hle)
    · rcases hroom p page rest hph with ⟨i, hi⟩ | ⟨i, hi⟩
      · rw [show σ.pool.page_table.lookup p = none from hnone] at hi
        cases hi
      · exact absurd (hall i) (by rw [show (σ.toWALManager.pool.frame_meta i).pin_count = 0 from hi]; exact Nat.lt_irrefl 0)

theorem Inv.install {page : RawPage} {rest : List (PageId × RawPage)} {s : WALManager} (h : σ.Inv)
    (hph : σ.phase = .installing ((p, page) :: rest)) (hb : Event.bounded .install σ) (hroom : Event.roomy .install σ)
    (hset : Event.settled .install σ) (hs : WALManager.install p page σ.toWALManager = .ok () s) :
    Inv { σ with toWALManager := s, phase := .installing rest, content := Function.update σ.content p page,
                 unreported := fun q => σ.unreported q ∧ q ≠ p } := by
  have hphase := h.phase
  have hst := h.stored
  rw [hph] at hphase hst
  obtain ⟨hframe, hc, hu, hd⟩ := wp_ok (h.wp_install hph hb hroom) hs
  generalize s.pool = pool at hframe hc hu hd
  subst hframe
  have hst' := hst.installed h.ok.caches hd fun hnone q hv hq => by
    obtain ⟨i, hi, hdirty⟩ := hq
    obtain ⟨j, hj, hlook⟩ := hv
    rw [hi] at hlook
    cases hlook
    have hsettled := hset p page rest hph hnone q ⟨i, hj, hi, hdirty⟩
    unfold Settled at hsettled
    rw [hph] at hsettled
    refine hsettled.imp id fun hdue => ⟨hdue, ?_⟩
    obtain ⟨x, hx, rfl⟩ := hdue
    exact (hphase x hx).2
  refine ⟨⟨hc, h.ok.bound, fun q j hq => ?_, fun q => ?_⟩, hst'.congr rfl fun q _ hq => hq.imp id fun hq => ?_, h.typed, h.next, h.wal,
    h.images, fun x hx => hphase x (List.mem_cons_of_mem _ hx)⟩
  · exact hu.stays q j (h.ok.held q j hq) (h.ok.pinned hq)
  · exact (hu.pins q).trans (h.ok.pins q)
  · obtain ⟨⟨x, hx, rfl⟩, hne⟩ := hq
    rcases List.mem_cons.1 hx with rfl | hx
    · exact absurd rfl hne
    · exact ⟨x, hx, rfl⟩

theorem Inv.commit_returned {s : WALManager} (h : σ.Inv) (hph : σ.phase = .installing []) (hs : clearActive σ.toWALManager = .ok () s) :
    Inv { σ with toWALManager := s, phase := .idle, running := none, pending := fun _ => none, returned := σ.committed } := by
  have hst := h.stored
  rw [hph] at hst
  cases hs
  refine ⟨h.ok, hst.congr rfl fun q _ hq => hq.imp id fun hq => ?_, h.typed, h.next, h.wal, h.images, rfl, fun t ht => by cases ht⟩
  obtain ⟨x, hx, -⟩ := hq
  cases hx

theorem Inv.abort {s : WALManager} (h : σ.Inv) (hph : σ.phase = .idle) (hs : WALManager.abort t σ.toWALManager = .ok () s) :
    Inv { σ with toWALManager := s, running := none, pending := fun _ => none } := by
  have hphase := h.phase
  have hst := h.stored
  rw [hph] at hphase hst
  cases hs
  refine ⟨h.ok, ?_, h.typed, h.next, h.wal, h.images, ?_⟩
  · show Stored σ.pool σ.pages σ.log σ.committed (dueIn _ σ.phase)
    rw [hph]
    exact hst
  · show PhaseOK _ σ.phase
    rw [hph]
    exact ⟨hphase.1, fun t ht => by cases ht⟩

theorem Inv.checkpoint {rest : List PageId} (h : σ.Inv) (hph : σ.phase = .idle) (hrun : σ.running = none)
    (hrest : rest.Perm σ.pool.page_table.keys) : Inv { σ with phase := .flushing rest } := by
  have hphase := h.phase
  have hst := h.stored
  rw [hph] at hphase hst
  refine ⟨h.ok, hst, h.typed, h.next, h.wal, h.images, hphase.1, hrun, fun p hp => ?_⟩
  obtain ⟨i, hi, -⟩ := hp
  rw [hrest.mem_iff, ← AList.mem_keys]
  exact AList.lookup_isSome.1 (by rw [hi]; rfl)

theorem Inv.flush {rest : List PageId} {s : WALManager} (h : σ.Inv) (hph : σ.phase = .flushing (p :: rest)) (hset : Event.settled .flush σ)
    (hs : onPool (BufferPool.flush_page p) σ.toWALManager = .ok () s) :
    Inv { σ with toWALManager := s, phase := .flushing rest } := by
  have hphase := h.phase
  have hst := h.stored
  rw [hph] at hphase hst
  have hwp : wp (onPool (BufferPool.flush_page p)) (fun _ _ => False) (fun _ s' => s' = { σ.toWALManager with pool := s'.pool } ∧
      Caches s'.pool σ.pages σ.content σ.unreported ∧ Flushed σ.pool s'.pool ∧ ¬ DirtyAt s'.pool p ∧
      WrittenBack σ.pool σ.content (· = p) s'.pool) σ.toWALManager := by
    rw [wp_onPool]
    exact wp_post (h.ok.caches.wp_flush_page p) fun _ pool hp => ⟨rfl, hp⟩
  obtain ⟨hframe, hc, hfl, hclean, hw⟩ := wp_ok hwp hs
  generalize s.pool = pool at hframe hc hfl hclean hw
  subst hframe
  have hst' := hst.writtenBack h.ok.caches hw fun q hqp hq => by
    obtain rfl : q = p := hqp
    have hsettled := hset q rest hph hq
    unfold Settled at hsettled
    rw [hph] at hsettled
    exact hsettled.imp id False.elim
  have hkept := h.ok.kept hc h.ok.bound hfl.unmoved
  refine ⟨hkept, hst', h.typed, h.next, h.wal, h.images, hphase.returned, hphase.running, fun q hq => ?_⟩
  have hqp : q ≠ p := fun hqp => hclean (hqp ▸ hq)
  have hold : DirtyAt σ.pool q := by
    cases hw with
    | none _ hdirty => exact (hdirty q).1 hq
    | page _ _ _ _ hdirty => exact ((hdirty q).1 hq).1
  exact (List.mem_cons.1 (hphase.dirty q hold)).resolve_left hqp

theorem Inv.sync {s : WALManager} (h : σ.Inv) (hph : σ.phase = .flushing []) (hs : onPool BufferPool.sync σ.toWALManager = .ok () s) :
    Inv { σ with toWALManager := s, phase := .truncating } := by
  have hphase := h.phase
  have hst := h.stored
  rw [hph] at hphase hst
  cases hs
  refine ⟨⟨{ h.ok.caches with }, h.ok.bound, h.ok.held, h.ok.pins⟩, ⟨hst.size, rfl, ⟨hst.redo.logged, fun p hp => ?_, fun _ _ w hw => by cases hw⟩,
    hst.file⟩, h.typed, h.next, h.wal, h.images, ⟨hphase.returned, hphase.running, hphase.dirty⟩, rfl, rfl⟩
  exact hst.redo.data hst.survives hp

theorem Inv.truncate {s : WALManager} (h : σ.Inv) (hph : σ.phase = .truncating) (hs : WALManager.truncate σ.toWALManager = .ok () s) :
    Inv { σ with toWALManager := s, phase := .idle, log := [] } := by
  have hphase := h.phase
  have hst := h.stored
  rw [hph] at hphase hst
  obtain ⟨hfl, hsynced, hunsynced⟩ := hphase
  cases hs
  -- everything committed is in the file, and on the disk
  have hfile : ∀ p, σ.pool.disk.file.data p = σ.committed p := fun p =>
    (hst.file p).resolve_right fun hp => hp.elim (fun hd => absurd (hfl.dirty p hd) List.not_mem_nil) id
  refine ⟨h.ok, ⟨hst.size, hst.written, ⟨fun p hp => absurd hp not_logged_nil, fun p _ => ?_, fun p _ w hw => ?_⟩, fun p => Or.inl (hfile p)⟩,
    fun r hr => (by cases hr), h.next, ⟨[], stub_nil, rfl⟩, fun t p hne => absurd rfl hne, hfl.returned, fun t ht => ?_⟩
  · show σ.pool.disk.synced.data p = σ.committed p
    rw [hsynced]
    exact hfile p
  · rw [show _ = ([] : List (PageId × RawPage)) from hunsynced] at hw
    cases hw
  · rw [show σ.running = none from hfl.running] at ht
    cases ht

/-- **One step.** -/
theorem Inv.step {e : Event} (h : σ.Inv) (hd : e.disciplined σ) (hb : e.bounded σ) (hf : e.framed σ) (hr : e.roomy σ) (hset : e.settled σ)
    (hs : Step e σ σ') : σ'.Inv := by
  cases hs with
  | client hph hs => exact h.client hph hd hb hset hs
  | begin hph hs => exact h.begin hph hb hs
  | write hph hrun hs => exact h.write hph hrun hd hf hs
  | writeThrew hph hrun hs =>
    obtain ⟨part, hpart, rfl⟩ := wp_error wp_write hs
    exact h.short hph hf hpart
  | commit hph hrun hs => exact h.commit hph hrun hf hs
  | @commitThrew _ _ t _ _ hph hrun hs =>
    obtain ⟨part, hpre, hne, rfl⟩ := wp_error (wp_write_bytes _) hs
    exact h.short hph hf ⟨.commit t, hpre, hne⟩
  | fsync hph hrest hs => exact h.fsync hph hrest hs
  | install hph hs => exact h.install hph hb hr hset hs
  | installThrew hph hs => exact (wp_error (h.wp_install hph hb hr) hs).elim
  | commit_returned hph hs => exact h.commit_returned hph hs
  | abort hph hrun hs => exact h.abort hph hs
  | checkpoint hph hrun hrest => exact h.checkpoint hph hrun hrest
  | flush hph hs => exact h.flush hph hset hs
  | @flushThrew _ p _ _ _ hph hs =>
    have hwp : wp (onPool (BufferPool.flush_page p)) (fun _ _ => False) (fun _ _ => True) σ.toWALManager := by
      rw [wp_onPool]
      exact wp_post (h.ok.caches.wp_flush_page p) fun _ _ _ => trivial
    exact (wp_error hwp hs).elim
  | sync hph hs => exact h.sync hph hs
  | truncate hph hs => exact h.truncate hph hs

end Engine

namespace Engine

/-- A call on the pool, whichever way it ends. -/
def client (σ : Engine) (c : PoolCall) : Engine := σ.withSession (σ.session.call c)

variable {ok : Event → Engine → Prop}

theorem run_client {σ₀ σ : Engine} {c : PoolCall} (h : RunWhere Step ok σ₀ σ) (hph : σ.phase = .idle) (hok : ok (.client c) σ) :
    RunWhere Step ok σ₀ (σ.client c) := h.step hok (.client hph (Session.step_call ..))

/-- Pages fetched one after the other. -/
def fetches (σ : Engine) (ps : List PageId) : Engine := ps.foldl (fun σ p => σ.client (.fetch_page p)) σ

theorem run_fetches {σ₀ : Engine} {ps : List PageId} : ∀ {σ : Engine}, RunWhere Step Event.disciplined σ₀ σ → σ.phase = .idle →
    RunWhere Step Event.disciplined σ₀ (σ.fetches ps) := by
  induction ps with
  | nil => intro σ h _; exact h
  | cons p ps ih =>
    intro σ h hph
    exact ih (run_client h hph ⟨trivial, by simp⟩) hph

/-- A transaction begins. -/
def began (σ : Engine) : Engine :=
  { σ with active_pages := ∅, next_transaction_id := (σ.next_transaction_id + 1) % 2 ^ 32,
           running := some σ.next_transaction_id, pending := fun _ => none }

theorem run_began (ok : Event → Engine → Prop) {σ₀ σ : Engine} (h : RunWhere Step ok σ₀ σ) (hph : σ.phase = .idle) (hok : ok .begin σ) : RunWhere Step ok σ₀ σ.began :=
  h.step hok (.begin hph rfl)

/-- A page that begins with 1. -/
def onePage : RawPage := ⟨1 :: List.replicate 4095 0, by rw [List.length_cons, List.length_replicate]; rfl⟩

/-- A transaction has changed page 0, and given it back. -/
def changed : Engine := (((init (Session.zeros 65)).began.client (.fetch_page 0)).client (.write ⟨63, by decide⟩ onePage)).client (.unpin_page 0 true)

theorem run_changed : RunWhere Step Event.disciplined (init (Session.zeros 65)) changed := by
  refine run_client (run_client (run_client (run_began _ .refl rfl trivial) rfl ⟨trivial, by simp⟩) rfl ⟨⟨0, ?_⟩, by simp⟩) rfl
    ⟨trivial, by simp⟩
  show ((0 : PageId), (⟨63, by decide⟩ : Slot)) ∈ ((init (Session.zeros 65)).began.client (.fetch_page 0)).held
  decide +kernel

end Engine

/-- The first byte of page 0, as it is recovered. -/
def recovered_byte (σ : Engine) : Option UInt8 :=
  match WALManager.recover (.open σ.wal σ.pool.disk.file) with
  | .ok _ s => (s.pool.disk.file.data 0).data.head?
  | .error _ _ => none

end GSDBEngine
