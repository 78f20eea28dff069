import GSDBEngine.Proof.Crash

/-!
# Whole calls as steps

A `commit` that returns is a run of steps, and so is a `checkpoint`: the steps leave out
nothing the calls do.

* `commit_steps`, `checkpoint_steps`: the two calls.
* `ok_commit_one`: a transaction with one page commits.
-/

namespace GSDBEngine

open Eff RedoLog BufferPool WALManager

namespace Engine

variable {σ : Engine} {s : WALManager} {t : ℕ}

/-- The steps of a call on the log. -/
def LogRun (σ σ' : Engine) : Prop := RunWhere Step (fun e σ => e.ofLog ∧ e.disciplined σ) σ σ'

theorem LogRun.trans {σ' σ'' : Engine} (h : LogRun σ σ') (h' : LogRun σ' σ'') : LogRun σ σ'' := RunWhere.trans h h'

theorem Step.logRun {σ' : Engine} {e : Event} (h : Step e σ σ') (he : e.ofLog) (hd : e.disciplined σ) : LogRun σ σ' :=
  RunWhere.step .refl ⟨he, hd⟩ h

/-- What a commit leaves alone. -/
structure Copied (σ σ' : Engine) : Prop where
  log : σ'.log = σ.log
  committed : σ'.committed = σ.committed
  returned : σ'.returned = σ.returned

theorem install_steps : ∀ {rest : List (PageId × RawPage)} {σ : Engine}, σ.phase = .installing rest →
    (rest.forM fun e => install e.1 e.2) σ.toWALManager = .ok () s →
    ∃ σ', LogRun σ σ' ∧ σ'.toWALManager = s ∧ σ'.phase = .installing [] ∧ Copied σ σ' := by
  intro rest
  induction rest with
  | nil =>
    intro σ hph hs
    cases hs
    exact ⟨σ, .refl, rfl, hph, rfl, rfl, rfl⟩
  | cons x rest ih =>
    intro σ hph hs
    obtain ⟨p, page⟩ := x
    obtain ⟨⟨⟩, s₁, hx, hrest⟩ := bind_ok hs
    have hstep := Step.install hph hx
    obtain ⟨σ', hrun, hσ', hph', hcop⟩ := ih (σ := { σ with
      toWALManager := s₁, phase := .installing rest, content := Function.update σ.content p page,
      unreported := fun q => σ.unreported q ∧ q ≠ p }) rfl hrest
    exact ⟨σ', (hstep.logRun trivial trivial).trans hrun, hσ', hph', hcop.log, hcop.committed, hcop.returned⟩

/-- **A commit that returns is a run of steps.** -/
theorem commit_steps {l : Option ℕ} (hph : σ.phase = .idle) (hrun : σ.running = some t)
    (hs : WALManager.commit l t σ.toWALManager = .ok () s) :
    ∃ σ', LogRun σ σ' ∧ σ'.toWALManager = s ∧ σ'.phase = .idle ∧ σ'.log = σ.log ++ [.commit t] ∧ σ'.committed = σ.overlay ∧
      σ'.returned = σ.overlay := by
  unfold WALManager.commit at hs
  obtain ⟨⟨⟩, s₁, hrecord, hs⟩ := bind_ok hs
  unfold commitRecord at hrecord
  obtain ⟨⟨⟩, s₂, happ, hsync⟩ := bind_ok hrecord
  obtain ⟨s₃, _, hget, hs⟩ := bind_ok hs
  cases hget
  obtain ⟨⟨⟩, s₄, hloop, hclear⟩ := bind_ok hs
  have hact : s₂.active_pages = s₁.active_pages := by
    cases hsync
    rfl
  -- the frame, the `fsync`, the images, and the end
  have hcommit := Step.commit hph hrun happ
  have hfsync := Step.fsync (σ := { σ with toWALManager := s₂, phase := .syncing, log := σ.log ++ [.commit t], committed := σ.overlay })
    rfl (List.Perm.refl (s₂.active_pages.entries.map fun e => (e.1, e.2))) hsync
  have hloop' : ((s₂.active_pages.entries.map fun e => (e.1, e.2)).forM fun e => install e.1 e.2) s₁ = .ok () s₄ := by
    rw [hact, List.forM_eq_forM, List.forM_map]
    exact hloop
  obtain ⟨σ', hsteps, hσ', hph', hcop⟩ := install_steps (σ := { σ with
    toWALManager := s₁, phase := .installing (s₂.active_pages.entries.map fun e => (e.1, e.2)), log := σ.log ++ [.commit t],
    committed := σ.overlay }) rfl hloop'
  have hreturned := Step.commit_returned (σ := σ') hph' (by rw [hσ']; exact hclear)
  refine ⟨_, (((hcommit.logRun trivial trivial).trans (hfsync.logRun trivial trivial)).trans hsteps).trans (hreturned.logRun trivial trivial),
    rfl, rfl, hcop.log, hcop.committed, hcop.committed⟩

theorem flushSlot_table (p : PageId) (i : Slot) (s : BufferPool) :
    wp (flushSlot p i) (fun _ _ => True) (fun _ s' => s'.page_table = s.page_table) s := by
  unfold flushSlot writePage
  rw [wp_bind, wp_get, wp_ite]
  refine ⟨fun _ => ?_, fun _ => rfl⟩
  rw [wp_bind, wp_bind, wp_get]
  cases s.disk.write_page p (s.frames i) with
  | ok disk => rfl
  | error e => exact trivial

theorem flush_steps : ∀ {rest : List ((_ : PageId) × Slot)} {σ : Engine} {pool : BufferPool}, σ.phase = .flushing (rest.map Sigma.fst) →
    (∀ e ∈ rest, σ.pool.page_table.lookup e.1 = some e.2) → (rest.forM fun e => flushSlot e.1 e.2) σ.pool = .ok () pool →
    ∃ σ', LogRun σ σ' ∧ σ'.toWALManager = { σ.toWALManager with pool := pool } ∧ σ'.phase = .flushing [] ∧ Copied σ σ' := by
  intro rest
  induction rest with
  | nil =>
    intro σ pool hph _ hs
    cases hs
    exact ⟨σ, .refl, rfl, hph, rfl, rfl, rfl⟩
  | cons x rest ih =>
    intro σ pool hph hlook hs
    obtain ⟨⟨⟩, pool₁, hx, hrest⟩ := bind_ok hs
    have htable := wp_ok (flushSlot_table x.1 x.2 σ.pool) hx
    have hflush : onPool (BufferPool.flush_page x.1) σ.toWALManager = .ok () { σ.toWALManager with pool := pool₁ } := by
      refine eq_ok_of_wp ?_
      rw [wp_onPool]
      unfold BufferPool.flush_page
      rw [wp_bind, wp_get, hlook x (by simp)]
      dsimp only
      unfold wp
      rw [show flushSlot x.1 x.2 σ.pool = .ok PUnit.unit pool₁ from hx]
    have hstep := Step.flush hph hflush
    obtain ⟨σ', hrun, hσ', hph', hcop⟩ := ih (σ := { σ with pool := pool₁, phase := .flushing (rest.map Sigma.fst) }) rfl
      (fun e he => by
        rw [show AList.lookup e.1 pool₁.page_table = _ from congrArg _ htable]
        exact hlook e (by simp [he])) hrest
    exact ⟨σ', (hstep.logRun trivial trivial).trans hrun, hσ', hph',
      hcop.log, hcop.committed, hcop.returned⟩

/-- **A checkpoint that returns is a run of steps.** -/
theorem checkpoint_steps (hph : σ.phase = .idle) (hrun : σ.running = none) (hs : WALManager.checkpoint σ.toWALManager = .ok () s) :
    ∃ σ', LogRun σ σ' ∧ σ'.toWALManager = s ∧ σ'.phase = .idle ∧ σ'.log = [] ∧ σ'.committed = σ.committed ∧ σ'.returned = σ.returned := by
  unfold WALManager.checkpoint at hs
  obtain ⟨⟨⟩, s₁, hflush, htrunc⟩ := bind_ok hs
  -- the pages, one after the other, and the `sync`
  have hpool : ∃ pool, BufferPool.flush_all σ.pool = .ok () pool ∧ s₁ = { σ.toWALManager with pool := pool } := by
    unfold onPool at hflush
    cases hf : BufferPool.flush_all σ.pool with
    | ok u pool =>
      rw [show σ.toWALManager.pool = σ.pool from rfl, hf] at hflush
      cases hflush
      exact ⟨pool, rfl, rfl⟩
    | error e pool =>
      rw [show σ.toWALManager.pool = σ.pool from rfl, hf] at hflush
      cases hflush
  obtain ⟨pool, hall, rfl⟩ := hpool
  unfold BufferPool.flush_all at hall
  obtain ⟨_, _, hget, hall⟩ := bind_ok hall
  cases hget
  obtain ⟨⟨⟩, pool₁, hloop, hsync⟩ := bind_ok hall
  have hstart := Step.checkpoint hph hrun (List.Perm.refl σ.pool.page_table.keys)
  obtain ⟨σ', hsteps, hσ', hph', hcop⟩ := flush_steps (σ := { σ with phase := .flushing σ.pool.page_table.keys }) rfl
    (fun e he => AList.mem_lookup_iff.2 he) hloop
  have hsynced := Step.sync (s := { σ.toWALManager with pool := pool }) hph' (by
    refine eq_ok_of_wp ?_
    rw [wp_onPool, hσ']
    unfold wp
    rw [hsync])
  have htruncated := Step.truncate (σ := { σ' with toWALManager := { σ.toWALManager with pool := pool }, phase := .truncating }) rfl htrunc
  have hend := (hsynced.logRun trivial trivial).trans (htruncated.logRun trivial trivial)
  exact ⟨_, ((hstart.logRun trivial trivial).trans hsteps).trans hend, rfl, rfl, rfl, hcop.committed, hcop.returned⟩

/-! ### A transaction with one page -/

theorem Dirtied.disk {s s' : BufferPool} {c : PageId → RawPage} {p : PageId} (h : Dirtied s c p s') (hclean : ∀ q, ¬ DirtyAt s q) :
    s'.disk = s.disk := by
  obtain ⟨s₁, hld, hd, -⟩ := h
  rw [hd]
  cases hld with
  | none hd _ => exact hd
  | page q _ hq _ _ => exact absurd hq (hclean q)

/-- The engine after a page is logged. -/
def wrote (σ : Engine) (t : ℕ) (p : PageId) (page : RawPage) : Engine :=
  { σ with wal := σ.wal ++ frameBytes (.pageWrite t p page), active_pages := σ.active_pages.insert p page,
           log := σ.log ++ [.pageWrite t p page], pending := Function.update σ.pending p (some page) }

theorem run_wrote {p : PageId} {page : RawPage} (hph : σ.phase = .idle) (hrun : σ.running = some t) (hp : p < σ.pages) :
    LogRun σ (σ.wrote t p page) := by
  have hwrite : WALManager.write none none t p page σ.toWALManager = .ok () (σ.wrote t p page).toWALManager := by
    refine eq_ok_of_wp ?_
    unfold WALManager.write
    rw [wp_bind, wp_write_bytes_none, wp_bind, wp_write_bytes_none, wp_modify]
    show WALManager.mk ((σ.wal ++ headerBytes .PAGE_WRITE t p) ++ page.data) _ _ _ _ = _
    rw [List.append_assoc]
    rfl
  exact (Step.write hph hrun hwrite).logRun trivial hp

/-- A page that is logged, and committed. -/
structure CommittedOne (σ : Engine) (t : ℕ) (p : PageId) (page : RawPage) (σ' : Engine) : Prop where
  wal : σ'.wal = σ.wal ++ frameBytes (.pageWrite t p page) ++ frameBytes (.commit t)
  disk : σ'.pool.disk = σ.pool.disk
  phase : σ'.phase = .idle
  committed : σ'.committed = Function.update σ.committed p page
  returned : σ'.returned = σ'.committed

/-- **A transaction with one page commits**, if the pool is at rest. -/
theorem run_commit_one {n : ℕ} {c : PageId → RawPage} {p : PageId} (page : RawPage) (hph : σ.phase = .idle) (hrun : σ.running = some t)
    (hact : σ.active_pages = ∅) (hpend : σ.pending = fun _ => none) (hc : Caches σ.pool n c fun _ => False) (hn : n < 2 ^ 32)
    (hq : Quiet σ.pool) (hclean : ∀ q, ¬ DirtyAt σ.pool q) (hp : p < σ.pages) (hpn : p < n) :
    ∃ σ', LogRun σ σ' ∧ CommittedOne σ t p page σ' := by
  have hwp : wp (WALManager.commit none t) (fun _ _ => False)
      (fun _ s' => s'.wal = (σ.wrote t p page).wal ++ frameBytes (.commit t) ∧ s'.pool.disk = σ.pool.disk) (σ.wrote t p page).toWALManager := by
    unfold WALManager.commit commitRecord WALManager.fsync
    rw [wp_bind, wp_bind, wp_write_bytes_none, wp_modify, wp_bind, wp_get]
    dsimp only [wrote]
    rw [hact]
    show wp ((install p page >>= fun _ => pure ()) >>= fun _ => clearActive) _ _ _
    rw [wp_bind, wp_bind]
    refine wp_mono (wp_install (n := n) (c := c) (U := fun _ => False) hc hn (by rw [hq]; decide)) ?_ ?_
    · rintro ⟨⟩ s₁ ⟨hs₁, -, -, -, hd⟩
      rw [wp_pure]
      unfold clearActive
      rw [wp_modify]
      refine ⟨?_, Dirtied.disk hd hclean⟩
      show s₁.wal = _
      rw [hs₁]
      rfl
    · rintro e s₁ ⟨-, ⟨-, hle⟩ | ⟨-, -, hall⟩⟩
      · exact absurd hpn (Nat.not_lt.2 hle)
      · exact absurd (hall ⟨0, by decide⟩) (by rw [Quiet.pin hq hc.toSound]; exact Nat.lt_irrefl 0)
  obtain ⟨s, hs, hwal, hdisk⟩ := ok_of_wp hwp
  obtain ⟨σ', hsteps, rfl, hph', -, hcom, hret⟩ := commit_steps (σ := σ.wrote t p page) hph hrun hs
  refine ⟨σ', (run_wrote hph hrun hp).trans hsteps, hwal, hdisk, hph', ?_, hret.trans hcom.symm⟩
  rw [hcom]
  refine funext fun q => ?_
  unfold overlay wrote
  dsimp only
  rw [hpend]
  by_cases hqp : q = p
  · rw [hqp, Function.update_self, Function.update_self]
    rfl
  · rw [Function.update_of_ne hqp, Function.update_of_ne hqp]
    rfl

end Engine

end GSDBEngine
