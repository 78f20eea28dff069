import GSDBEngine.Proof.Steps

/-!
# Appends that stop short

Without other clients of the pool every dirty page has what was last committed for it and every
slot is free, so recovery is right after any sequence of transactions as long as no frame is
appended behind one that was cut short.

* `recovers_framed`: **the committed transactions are replayed, and nothing else.**
* `shifted_frames`: behind a page write without its page, a transaction whose commit returned is lost.
-/

namespace GSDBEngine

open Eff RedoLog BufferPool WALManager

namespace Engine

variable {σ σ' : Engine} {e : Event} {p : PageId}

/-- Nobody else uses the pool. -/
structure Alone (σ : Engine) : Prop where
  held : σ.held = []
  content : ∀ p, σ.content p = σ.committed p ∨ σ.dueIn σ.phase p

theorem Alone.quiet (h : σ.Alone) (hi : σ.Inv) : Quiet σ.pool := fun p => by
  rw [show σ.pool.pinsOf p = σ.session.pins p from hi.ok.pins p]
  unfold Session.pins
  rw [show σ.session.held = [] from h.held]
  rfl

/-- The conditions on the pool are met. -/
theorem Alone.conditions (h : σ.Alone) (hi : σ.Inv) (he : e.ofLog) : e.roomy σ ∧ e.settled σ ∧ (e = .install → e.bounded σ) := by
  have hsettled : ∀ rest p, σ.phase = .installing rest → σ.Settled p := fun rest p hph => by
    have hp := h.content p
    unfold Settled
    rw [hph] at hp ⊢
    exact hp
  cases e with
  | client c => exact he.elim
  | install =>
    refine ⟨fun p page rest _ => Or.inr ⟨⟨0, by decide⟩, (h.quiet hi).pin hi.ok.caches.toSound _⟩,
      fun p page rest hph _ q _ => hsettled _ q hph, fun _ p page rest _ => ?_⟩
    rw [show σ.session.pins p = 0 from (hi.ok.pins p).symm.trans (h.quiet hi p)]
    decide
  | flush =>
    refine ⟨trivial, fun p rest hph _ => Or.inl ?_, fun hc => by cases hc⟩
    have hp := h.content p
    rw [hph] at hp
    exact hp.resolve_right id
  | _ => exact ⟨trivial, trivial, fun hc => by cases hc⟩

theorem Alone.step (h : σ.Alone) (hi : σ.Inv) (he : e.ofLog) (hs : Step e σ σ') : σ'.Alone := by
  have hc := h.content
  have hphase := hi.phase
  cases hs with
  | client hph hs => exact he.elim
  | begin hph hs =>
    rw [hph] at hc
    refine ⟨h.held, ?_⟩
    show ∀ p, σ.content p = σ.committed p ∨ dueIn _ σ.phase p
    rw [hph]
    exact hc
  | write hph hrun hs =>
    rw [hph] at hc
    refine ⟨h.held, ?_⟩
    show ∀ p, σ.content p = σ.committed p ∨ dueIn _ σ.phase p
    rw [hph]
    exact hc
  | writeThrew hph hrun hs => exact ⟨h.held, hc⟩
  | commit hph hrun hs =>
    rw [hph] at hc
    refine ⟨h.held, fun p => ?_⟩
    show σ.content p = σ.overlay p ∨ σ.pending p ≠ none
    unfold overlay
    by_cases hp : σ.pending p = none
    · rw [hp]
      exact Or.inl ((hc p).resolve_right id)
    · exact Or.inr hp
  | commitThrew hph hrun hs => exact ⟨h.held, hc⟩
  | @fsync _ rest _ hph hrest hs =>
    rw [hph] at hc hphase
    obtain ⟨t, recs, ha⟩ := hphase
    refine ⟨h.held, fun p => (hc p).imp id fun hp => ?_⟩
    obtain ⟨page, hpage⟩ := Option.ne_none_iff_exists'.1 hp
    rw [← ha.active p] at hpage
    exact ⟨(p, page), hrest.mem_iff.2 (List.mem_map.2 ⟨⟨p, page⟩, AList.mem_lookup_iff.1 hpage, rfl⟩), rfl⟩
  | @install _ p page rest _ hph hs =>
    rw [hph] at hc hphase
    refine ⟨h.held, fun q => ?_⟩
    show Function.update σ.content p page q = σ.committed q ∨ ∃ x ∈ rest, x.1 = q
    by_cases hq : q = p
    · rw [hq, Function.update_self]
      exact Or.inl (hphase (p, page) (by simp)).1.symm
    · rw [Function.update_of_ne hq]
      refine (hc q).imp id fun hx => ?_
      obtain ⟨x, hx, rfl⟩ := hx
      rcases List.mem_cons.1 hx with rfl | hx
      · exact absurd rfl hq
      · exact ⟨x, hx, rfl⟩
  | installThrew hph hs =>
    have hcond := h.conditions hi (e := .install) trivial
    exact (wp_error (hi.wp_install hph (hcond.2.2 rfl) hcond.1) hs).elim
  | commit_returned hph hs =>
    rw [hph] at hc
    refine ⟨h.held, fun p => Or.inl ((hc p).resolve_right fun hx => ?_)⟩
    obtain ⟨x, hx, -⟩ := hx
    cases hx
  | abort hph hrun hs =>
    rw [hph] at hc
    refine ⟨h.held, ?_⟩
    show ∀ p, σ.content p = σ.committed p ∨ dueIn _ σ.phase p
    rw [hph]
    exact hc
  | checkpoint hph hrun hrest =>
    rw [hph] at hc
    exact ⟨h.held, hc⟩
  | flush hph hs =>
    rw [hph] at hc
    exact ⟨h.held, hc⟩
  | flushThrew hph hs =>
    rw [hph] at hc
    exact ⟨h.held, hc⟩
  | sync hph hs =>
    rw [hph] at hc
    exact ⟨h.held, hc⟩
  | truncate hph hs =>
    rw [hph] at hc
    exact ⟨h.held, hc⟩

theorem alone_init (f : DbFile) : (init f).Alone := ⟨rfl, fun _ => Or.inl rfl⟩

end Engine

/-- **Recovery after appends that stopped short.** In every run of transactions and checkpoints in which no append follows one
that stopped short, and no transaction gets an id the log still carries, recovery leaves exactly the committed ones. -/
theorem recovers_framed {f : DbFile} (hf : f.pages < 2 ^ 32) {σ : Engine}
    (hrun : RunWhere Engine.Step (fun e σ => e.ofLog ∧ e.disciplined σ ∧ e.bounded σ ∧ e.framed σ) (Engine.init f) σ) :
    Yields σ.wal σ.pool.disk.file σ.committed := by
  have hinv : σ.Inv ∧ σ.Alone := by
    refine hrun.invariant (I := fun σ => σ.Inv ∧ σ.Alone) ⟨Engine.inv_init hf, Engine.alone_init f⟩ ?_
    rintro e σ σ' ⟨hi, ha⟩ ⟨he, hd, hb, hfr⟩ hs
    have hcond := ha.conditions hi he
    exact ⟨hi.step hd hb hfr hcond.1 hcond.2.1 hs, ha.step hi he hs⟩
  exact hinv.1.yields

/-- A header is appended without its page. -/
theorem write_short (σ : Engine) (t : ℕ) (p : PageId) (page : RawPage) : ∃ e,
    WALManager.write none (some 0) t p page σ.toWALManager = .error e { σ.toWALManager with wal := σ.wal ++ headerBytes .PAGE_WRITE t p } := by
  refine error_of_wp ?_
  unfold WALManager.write
  rw [wp_bind, wp_write_bytes_none]
  unfold write_bytes
  rw [wp_bind, wp_bind, wp_modify, wp_ite]
  have hmin : min ((some 0).getD page.data.length) page.data.length = 0 := Nat.zero_min _
  rw [hmin, page.size]
  refine ⟨fun _ => ?_, fun hne => absurd (show 0 ≠ PAGE_SIZE by decide) hne⟩
  rw [List.take_zero, wp_throw, List.append_nil]

theorem recovers_framed_short : Yields (headerBytes .PAGE_WRITE 1 0) (Session.zeros 1) (Session.zeros 1).data := by
  obtain ⟨e, hthrew⟩ := write_short (Engine.init (Session.zeros 1)).began 1 0 Engine.onePage
  have hbegan := Engine.run_began (fun e σ => e.ofLog ∧ e.disciplined σ ∧ e.bounded σ ∧ e.framed σ) (σ := Engine.init (Session.zeros 1))
    .refl rfl ⟨trivial, trivial, fun r hr => (by cases hr), trivial⟩
  have hok : ∀ σ, σ = (Engine.init (Session.zeros 1)).began → Event.ofLog (.write none (some 0) 0 Engine.onePage) ∧
      Event.disciplined (.write none (some 0) 0 Engine.onePage) σ ∧ Event.bounded (.write none (some 0) 0 Engine.onePage) σ ∧
      Event.framed (.write none (some 0) 0 Engine.onePage) σ := by
    rintro σ rfl
    exact ⟨trivial, show 0 < 1 by decide, trivial, rfl⟩
  exact recovers_framed (f := Session.zeros 1) (by decide) (hbegan.step (hok _ rfl) (Engine.Step.writeThrew rfl rfl hthrew))

/-! ### A page write without its page -/

namespace Engine

/-- The frame of a page write, of which the page is missing, and behind it a transaction. -/
def shiftedLog : Bytes := headerBytes .PAGE_WRITE 1 0 ++ (headerBytes .PAGE_WRITE 2 0 ++ (onePage.data ++ headerBytes .COMMIT 2 INVALID_PAGE))

/-- The header that follows is read as the beginning of the page, and so on. -/
theorem scan_shifted (fuel : ℕ) (s : Scan) : ∃ page, scanLoop (fuel + 4) shiftedLog s = (s.pageWrite 1 0 page).commit 2 := by
  have hlen : PAGE_SIZE ≤ (headerBytes .PAGE_WRITE 2 0 ++ (onePage.data ++ headerBytes .COMMIT 2 INVALID_PAGE)).length := by
    rw [List.length_append, List.length_append, onePage.size, headerBytes_length]
    omega
  have hread : ∃ page, readRaw (headerBytes .PAGE_WRITE 2 0 ++ (onePage.data ++ headerBytes .COMMIT 2 INVALID_PAGE)) = some page :=
    ⟨_, dif_pos hlen⟩
  have hdrop : (headerBytes .PAGE_WRITE 2 0 ++ (onePage.data ++ headerBytes .COMMIT 2 INVALID_PAGE)).drop PAGE_SIZE =
      List.replicate 9 0 ++ headerBytes .COMMIT 2 INVALID_PAGE := by
    have hpage : onePage.data.drop 4087 = List.replicate 9 0 := by
      rw [show onePage.data = 1 :: List.replicate 4095 0 from rfl, show 4087 = 4086 + 1 from rfl, List.drop_succ_cons, List.drop_replicate]
    rw [show PAGE_SIZE = WAL_HEADER_SIZE + 4087 from rfl, ← List.drop_drop, header_rest, List.drop_append_of_le_length, hpage]
    rw [onePage.size]
    decide
  obtain ⟨page, hpage⟩ := hread
  refine ⟨page, ?_⟩
  unfold shiftedLog
  rw [scanLoop_header, hpage]
  dsimp only
  rw [hdrop]
  rfl

/-- A log without committed images leaves the file as it is. -/
theorem recover_no_images {log : Bytes} {f : DbFile} {found : Scan} {s : WALManager} (hscan : scanLoop log.length log ⟨∅, [], 1⟩ = found)
    (hnone : found.images = []) (h : WALManager.recover (.open log f) = .ok () s) : s.pool.disk.file = f := by
  unfold WALManager.recover at h
  obtain ⟨found', s₁, hfound, h⟩ := bind_ok h
  cases hfound
  rw [show (WALManager.open log f).wal = log from rfl, show (WALManager.open log f).next_transaction_id = 1 from rfl, hscan] at h
  obtain ⟨⟨⟩, s₂, hforM, h⟩ := bind_ok h
  rw [hnone] at hforM
  cases hforM
  unfold WALManager.checkpoint onPool at h
  obtain ⟨⟨⟩, s₃, hflush, htrunc⟩ := bind_ok h
  cases hflush
  cases htrunc
  rfl

theorem recover_shifted {f : DbFile} {s : WALManager} (h : WALManager.recover (.open shiftedLog f) = .ok () s) : s.pool.disk.file = f := by
  have hlen : ∃ fuel, shiftedLog.length = fuel + 4 := by
    refine ⟨_, (Nat.sub_add_cancel ?_).symm⟩
    unfold shiftedLog
    rw [List.length_append, headerBytes_length]
    unfold WAL_HEADER_SIZE
    omega
  obtain ⟨fuel, hfuel⟩ := hlen
  obtain ⟨page, hscan⟩ := scan_shifted fuel ⟨∅, [], 1⟩
  rw [← hfuel] at hscan
  exact recover_no_images hscan rfl h

end Engine

open Engine in
/-- **A committed transaction is lost.** The page of a page write could not be written, its transaction is aborted, and the next
one commits. -/
theorem shifted_frames : ∃ σ, LogRun (init (Session.zeros 1)) σ ∧ σ.phase = .idle ∧ σ.returned = Function.update (Session.zeros 1).data 0 onePage ∧
    ¬ Yields σ.wal σ.pool.disk.file σ.committed := by
  obtain ⟨e, hthrew⟩ := write_short (init (Session.zeros 1)).began 1 0 onePage
  have hbegan : LogRun (init (Session.zeros 1)) (init (Session.zeros 1)).began := run_began _ .refl rfl ⟨trivial, trivial⟩
  have hwrite := (Step.writeThrew rfl rfl hthrew).logRun trivial (show 0 < 1 by decide)
  have habort := (Step.abort (t := 1) (σ := { (init (Session.zeros 1)).began with wal := headerBytes .PAGE_WRITE 1 0 }) rfl rfl rfl).logRun
    trivial trivial
  have hagain := run_began _ (habort : LogRun _ _) rfl ⟨trivial, trivial⟩
  obtain ⟨σ, hcommit, hone⟩ := run_commit_one onePage (t := 2) (n := 1) (c := (Session.zeros 1).data) (p := 0) (σ := began
    { (init (Session.zeros 1)).began with wal := headerBytes .PAGE_WRITE 1 0, active_pages := ∅, running := none, pending := fun _ => none })
    rfl rfl rfl rfl (caches_init (Session.zeros 1)) (by decide) (fun _ => rfl) (fun q ⟨i, hi, _⟩ => by cases hi) (show 0 < 1 by decide) (by decide)
  refine ⟨σ, ((hbegan.trans hwrite).trans hagain).trans hcommit, hone.phase, hone.returned.trans hone.committed, ?_⟩
  rintro ⟨s, hs, hdata⟩
  have hwal : σ.wal = shiftedLog := by
    rw [hone.wal]
    exact List.append_assoc ..
  rw [hwal] at hs
  have hzero := hdata 0
  rw [recover_shifted hs, hone.disk, hone.committed, Function.update_self] at hzero
  have hhead := congrArg (fun page => page.data.head?) hzero
  exact absurd hhead (by decide)

end GSDBEngine
