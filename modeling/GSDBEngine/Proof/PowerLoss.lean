import GSDBEngine.Proof.Steps

/-!
# A power loss

The bytes of the log up to the last `fsync` hold every COMMIT frame but one that is not synced
yet, and what was appended since belongs to transactions that did not commit
(`Engine.Durable`). So any part of the rest may be lost.

* `recoverable_iff`: **recovery after a power loss is right exactly if the file had the logged
  pages at its last `sync`.**
* `growth_lost`: a page that was allocated and committed since, but is not there any more.
-/

namespace GSDBEngine

open Eff RedoLog BufferPool WALManager

namespace WALManager

variable {recs : List (Record RawPage)} {p : PageId}

theorem Stub.take {part : Bytes} (h : Stub part) (n : ℕ) : Stub (part.take n) := by
  obtain ⟨r, hpre, hne⟩ := h
  refine ⟨r, (List.take_prefix ..).trans hpre, fun heq => hne (hpre.eq_of_length (le_antisymm hpre.length_le ?_))⟩
  rw [← heq]
  exact (List.take_prefix ..).length_le

/-- A log cut somewhere. -/
theorem frames_take {part : Bytes} (hpart : Stub part) : ∀ (recs : List (Record RawPage)) (n : ℕ), ∃ recs' tail, recs' <+: recs ∧ Torn tail ∧
    (recs.flatMap frameBytes ++ part).take n = recs'.flatMap frameBytes ++ tail ∧
      ((recs.flatMap frameBytes ++ part).length ≤ n → recs' = recs) := by
  intro recs
  induction recs with
  | nil => intro n; exact ⟨[], part.take n, List.nil_prefix, (hpart.take n).torn, rfl, fun _ => rfl⟩
  | cons r recs ih =>
    intro n
    rw [List.flatMap_cons, List.append_assoc]
    by_cases hr : (frameBytes r).length ≤ n
    · obtain ⟨recs', tail, hpre, htail, htake, hall⟩ := ih (n - (frameBytes r).length)
      refine ⟨r :: recs', tail, List.cons_prefix_cons.2 ⟨rfl, hpre⟩, htail, ?_, fun hlen => ?_⟩
      · rw [List.take_append, List.take_of_length_le hr, htake, List.flatMap_cons, List.append_assoc]
      · rw [List.length_append] at hlen
        rw [hall (by omega)]
    · refine ⟨[], (frameBytes r).take n, List.nil_prefix, torn_of_prefix (List.take_prefix ..) fun heq => hr ?_, ?_, fun hlen => ?_⟩
      · rw [← heq, List.length_take]
        exact min_le_left ..
      · rw [List.take_append_of_le_length (Nat.le_of_not_le hr)]
        rfl
      · rw [List.length_append] at hlen
        omega

theorem logged_iff : WALManager.Logged recs p ↔ ∃ t page, Record.commit t ∈ recs ∧ Record.pageWrite t p page ∈ recs := by
  constructor
  · rintro ⟨t, ht, hne⟩
    obtain ⟨page, hpage⟩ := Option.ne_none_iff_exists'.1 hne
    exact ⟨t, page, mem_commits.1 ht, mem_of_imageOf hpage⟩
  · rintro ⟨t, page, ht, hpage⟩
    exact ⟨t, mem_commits.2 ht, imageOf_ne_none hpage⟩

theorem Logged.of_isPrefix {recs' : List (Record RawPage)} (hp : recs' <+: recs) (h : WALManager.Logged recs' p) : WALManager.Logged recs p := by
  obtain ⟨t, page, ht, hpage⟩ := logged_iff.1 h
  exact logged_iff.2 ⟨t, page, hp.subset ht, hp.subset hpage⟩

end WALManager

/-! ### Records of transactions that did not commit -/

section uncommitted

variable {recs rest : List (Record RawPage)} {c : PageId → RawPage} {d : DiskManager} {t : ℕ} {p q : PageId} {page : RawPage}

theorem redo_pageWrite (ht : t ∉ commits recs) : Redo (recs ++ [.pageWrite t q page]) c d ↔ Redo recs c d := by
  refine ⟨fun h => ⟨fun p hp base => ?_, fun p hp => ?_, fun p hp => ?_⟩, fun h => h.pageWrite ht⟩
  · rw [← replay_pageWrite ht]
    exact h.logged p ((logged_pageWrite ht).2 hp) base
  · exact h.synced p fun hl => hp ((logged_pageWrite ht).1 hl)
  · exact h.unsynced p fun hl => hp ((logged_pageWrite ht).1 hl)

/-- They may be there or not. -/
theorem redo_uncommitted (hnone : commits rest = []) (htxn : ∀ r ∈ rest, r.txn ∉ commits recs) :
    Redo (recs ++ rest) c d ↔ Redo recs c d := by
  induction rest using List.reverseRecOn with
  | nil => rw [List.append_nil]
  | append_singleton rest r ih =>
    rw [commits_append, List.append_eq_nil_iff] at hnone
    have hrest := ih hnone.1 fun r' hr' => htxn r' (by simp [hr'])
    cases r with
    | commit t => exact absurd hnone.2 (List.cons_ne_nil _ _)
    | pageWrite t q page =>
      rw [← List.append_assoc, redo_pageWrite, hrest]
      rw [commits_append, hnone.1, List.append_nil]
      exact htxn (.pageWrite t q page) (by simp)

end uncommitted

namespace Engine

variable {σ σ' : Engine} {e : Event} {f : DbFile} {p : PageId}

/-- The log but for a COMMIT frame that is not synced. -/
def stable (σ : Engine) : List (Record RawPage) :=
  match σ.phase with
  | .syncing => σ.log.dropLast
  | _ => σ.log

/-- The synced part of the log, and behind it records of transactions that did not commit. -/
structure Split (σ : Engine) (recs rest : List (Record RawPage)) : Prop where
  log : σ.stable = recs ++ rest
  synced : σ.wal_synced = (recs.flatMap frameBytes).length
  commits : commits rest = []
  txns : ∀ r ∈ rest, r.txn ∉ RedoLog.commits σ.stable

def Durable (σ : Engine) : Prop := ∃ recs rest, σ.Split recs rest

theorem Durable.congr (h : σ.Durable) (hlog : σ'.stable = σ.stable) (hsync : σ'.wal_synced = σ.wal_synced) : σ'.Durable := by
  obtain ⟨recs, rest, hs⟩ := h
  exact ⟨recs, rest, by rw [hlog]; exact hs.log, by rw [hsync]; exact hs.synced, hs.commits, by rw [hlog]; exact hs.txns⟩

theorem stable_of_ne (h : σ.phase ≠ .syncing) : σ.stable = σ.log := by
  unfold stable
  split
  · rename_i hph
    exact absurd hph h
  · rfl

/-- A step that appends nothing, and syncs nothing. -/
theorem Durable.kept (h : σ.Durable) (hph : σ.phase ≠ .syncing) (hph' : σ'.phase ≠ .syncing) (hlog : σ'.log = σ.log)
    (hsync : σ'.wal_synced = σ.wal_synced) : σ'.Durable :=
  h.congr (by rw [stable_of_ne hph', stable_of_ne hph, hlog]) hsync

theorem Durable.wrote {t : ℕ} {page : RawPage} (h : σ.Durable) (hph : σ.phase = .idle) (ht : t ∉ RedoLog.commits σ.log) :
    (σ.wrote t p page).Durable := by
  have hne : σ.phase ≠ .syncing := by rw [hph]; simp
  have hcommits : RedoLog.commits (σ.log ++ [.pageWrite t p page]) = RedoLog.commits σ.log := by simp [commits_append, RedoLog.commits]
  have hnew : (σ.wrote t p page).stable = σ.log ++ [.pageWrite t p page] := stable_of_ne hne
  obtain ⟨recs, rest, hlog, hsynced, hnone, htxns⟩ := h
  rw [stable_of_ne hne] at hlog htxns
  refine ⟨recs, rest ++ [.pageWrite t p page], ?_, hsynced, ?_, fun r hr => ?_⟩
  · rw [hnew, hlog, List.append_assoc]
  · rw [commits_append, hnone]
    rfl
  · rw [hnew, hcommits]
    rcases List.mem_append.1 hr with hr | hr
    · exact htxns r hr
    · obtain rfl := List.mem_singleton.1 hr
      exact ht

theorem Durable.step (h : σ.Durable) (hi : σ.Inv) (hd : e.disciplined σ) (hb : e.bounded σ) (hr : e.roomy σ) (hs : Step e σ σ') :
    σ'.Durable := by
  cases hs with
  | client hph hs => exact h.kept (by rw [hph]; simp) (by show σ.phase ≠ _; rw [hph]; simp) rfl rfl
  | begin hph hs =>
    cases hs
    exact h.kept (by rw [hph]; simp) (by show σ.phase ≠ _; rw [hph]; simp) rfl rfl
  | write hph hrun hs =>
    have hphase := hi.phase
    rw [hph] at hphase
    obtain rfl := wp_ok wp_write hs
    exact h.wrote hph (hphase.2 _ hrun).uncommitted
  | writeThrew hph hrun hs =>
    obtain ⟨part, -, rfl⟩ := wp_error wp_write hs
    exact h.kept (by rw [hph]; simp) (by show σ.phase ≠ _; rw [hph]; simp) rfl rfl
  | commit hph hrun hs =>
    obtain rfl := wp_ok (wp_write_bytes _) hs
    refine h.congr ?_ rfl
    rw [stable_of_ne (σ := σ) (by rw [hph]; simp)]
    exact List.dropLast_concat
  | commitThrew hph hrun hs =>
    obtain ⟨part, -, -, rfl⟩ := wp_error (wp_write_bytes _) hs
    exact h.kept (by rw [hph]; simp) (by show σ.phase ≠ _; rw [hph]; simp) rfl rfl
  | fsync hph hrest hs =>
    have hphase := hi.phase
    rw [hph] at hphase
    obtain ⟨t, recs, ha⟩ := hphase
    cases hs
    exact ⟨σ.log, [], (List.append_nil _).symm, congrArg List.length ha.framed, rfl, fun r hr => by cases hr⟩
  | install hph hs =>
    obtain ⟨hframe, -⟩ := wp_ok (hi.wp_install hph hb hr) hs
    exact h.kept (by rw [hph]; simp) (by simp) rfl (by rw [hframe])
  | installThrew hph hs => exact (wp_error (hi.wp_install hph hb hr) hs).elim
  | commit_returned hph hs =>
    cases hs
    exact h.kept (by rw [hph]; simp) (by simp) rfl rfl
  | abort hph hrun hs =>
    cases hs
    exact h.kept (by rw [hph]; simp) (by show σ.phase ≠ _; rw [hph]; simp) rfl rfl
  | checkpoint hph hrun hrest => exact h.kept (by rw [hph]; simp) (by simp) rfl rfl
  | @flush _ p _ s hph hs =>
    have hwp : wp (onPool (BufferPool.flush_page p)) (fun _ _ => True) (fun _ s' => s'.wal_synced = σ.wal_synced) σ.toWALManager := by
      rw [wp_onPool]
      exact wp_of_forall (fun _ _ => trivial) fun _ _ => rfl
    exact h.kept (by rw [hph]; simp) (by simp) rfl (wp_ok hwp hs :)
  | @flushThrew _ p _ _ s hph hs =>
    have hwp : wp (onPool (BufferPool.flush_page p)) (fun _ s' => s'.wal_synced = σ.wal_synced) (fun _ _ => True) σ.toWALManager := by
      rw [wp_onPool]
      exact wp_of_forall (fun _ _ => rfl) fun _ _ => trivial
    exact h.kept (by rw [hph]; simp) (by unfold threw; simp) rfl (wp_error hwp hs :)
  | sync hph hs =>
    cases hs
    exact h.kept (by rw [hph]; simp) (by simp) rfl rfl
  | truncate hph hs =>
    cases hs
    exact ⟨[], [], rfl, rfl, rfl, fun r hr => by cases hr⟩

theorem durable_init (f : DbFile) : (init f).Durable := ⟨[], [], rfl, rfl, rfl, fun r hr => by cases hr⟩

/-! ### What survives -/

/-- **The log that is left** is that of the pages before the last commit, or after it. -/
theorem Durable.left {n : ℕ} (h : σ.Durable) (hi : σ.Inv) (hn : σ.wal_synced ≤ n) : ∃ recs tail c, recs <+: σ.log ∧ Torn tail ∧
    σ.wal.take n = recs.flatMap frameBytes ++ tail ∧ Redo recs c σ.pool.disk ∧ (c = σ.returned ∨ c = σ.committed) := by
  obtain ⟨recs, rest, hlog, hsynced, hnone, htxns⟩ := h
  obtain ⟨part, hpart, hwal⟩ := hi.wal
  -- records of the running transaction, some of which may be lost
  have hredo : ∀ {c rest'}, Redo σ.stable c σ.pool.disk → rest' <+: rest → Redo (recs ++ rest') c σ.pool.disk := fun {c rest'} hr hpre => by
    obtain ⟨rest'', rfl⟩ := hpre
    rw [commits_append, List.append_eq_nil_iff] at hnone
    rw [hlog, ← List.append_assoc] at htxns hr
    have hsub : ∀ r ∈ rest', r.txn ∉ RedoLog.commits recs := fun r hr' hmem => by
      refine htxns r (by simp [hr']) ?_
      rw [commits_append, commits_append]
      simp [hmem]
    have hsub' : ∀ r ∈ rest'', r.txn ∉ RedoLog.commits (recs ++ rest') := fun r hr' hmem => by
      refine htxns r (by simp [hr']) ?_
      rw [commits_append]
      simp [hmem]
    exact (redo_uncommitted hnone.2 hsub').1 hr
  by_cases hph : σ.phase = .syncing
  · have hphase := hi.phase
    rw [hph] at hphase
    obtain ⟨t, stable, ha⟩ := hphase
    have hstable : σ.stable = stable := by
      unfold Engine.stable
      rw [hph, ha.log]
      exact List.dropLast_concat
    have hall : σ.log = recs ++ (rest ++ [.commit t]) := by rw [ha.log, ← hstable, hlog, List.append_assoc]
    obtain ⟨rest', tail, hpre, htail, htake, -⟩ := frames_take hpart (rest ++ [.commit t]) (n - (recs.flatMap frameBytes).length)
    have hcut : σ.wal.take n = (recs ++ rest').flatMap frameBytes ++ tail := by
      rw [hwal, hall, List.flatMap_append, List.append_assoc, List.take_append, List.take_of_length_le (hsynced ▸ hn), htake,
        List.flatMap_append, List.append_assoc]
    refine ⟨recs ++ rest', tail, ?_⟩
    rcases List.prefix_concat_iff.1 hpre with rfl | hpre
    · exact ⟨σ.committed, ⟨[], by rw [List.append_nil, hall]⟩, htail, hcut, by rw [← hall]; exact hi.stored.redo, Or.inr rfl⟩
    · refine ⟨σ.returned, ?_, htail, hcut, hredo (by rw [hstable]; exact ha.redo) hpre, Or.inl rfl⟩
      rw [hall, List.prefix_append_right_inj]
      exact hpre.trans (List.prefix_append ..)
  · have hstable := stable_of_ne hph
    have hall : σ.log = recs ++ rest := by rw [← hstable, hlog]
    obtain ⟨rest', tail, hpre, htail, htake, -⟩ := frames_take hpart rest (n - (recs.flatMap frameBytes).length)
    refine ⟨recs ++ rest', tail, σ.committed, ?_, htail, ?_, hredo (by rw [hstable]; exact hi.stored.redo) hpre, Or.inr rfl⟩
    · rw [hall, List.prefix_append_right_inj]
      exact hpre
    · rw [hwal, hall, List.flatMap_append, List.append_assoc, List.take_append, List.take_of_length_le (hsynced ▸ hn), htake,
        List.flatMap_append, List.append_assoc]

end Engine

/-! ### The file that is left -/

theorem DbFile.pwrites_pages_le {ws ws' : List (PageId × RawPage)} (h : ws.Sublist ws') :
    ∀ {f g : DbFile}, f.pages ≤ g.pages → (f.pwrites ws).pages ≤ (g.pwrites ws').pages := by
  induction h with
  | slnil => intro f g hfg; exact hfg
  | @cons ws ws' w _ ih =>
    intro f g hfg
    exact ih (f := f) (g := g.pwrite w.1 w.2) (hfg.trans (le_max_left ..))
  | @cons_cons ws ws' w _ ih =>
    intro f g hfg
    refine ih (f := f.pwrite w.1 w.2) (g := g.pwrite w.1 w.2) ?_
    show max f.pages (w.1 + 1) ≤ max g.pages (w.1 + 1)
    omega

/-- Recovery that returns has found every logged page in the file. -/
theorem Yields.pages {log tail : Bytes} {f : DbFile} {c : PageId → RawPage} {recs : List (Record RawPage)} {p : PageId} (h : Yields log f c)
    (hty : ∀ r ∈ recs, Typed r) (htail : Torn tail) (hlog : log = recs.flatMap frameBytes ++ tail) (hp : WALManager.Logged recs p) :
    p < f.pages % 2 ^ 32 := by
  obtain ⟨s, hs, -⟩ := h
  have hcrashed : Crashed (WALManager.open log f) (f.pages % 2 ^ 32) f.data recs := ⟨caches_init f, fun _ => rfl, hty, tail, htail, hlog⟩
  exact (wp_ok (hcrashed.wp_recover (Nat.mod_lt _ (by decide))) hs).pages p hp

namespace Engine

variable {σ : Engine} {p : PageId}

theorem Inv.recoverable (h : σ.Inv) (hdur : σ.Durable) : σ.Recoverable ↔ σ.Grown := by
  constructor
  · intro hrec t p page ht hpage
    have hsurv : σ.pool.disk.Survives σ.pool.disk.synced := ⟨[], List.nil_sublist _, rfl⟩
    have hlogged : WALManager.Logged σ.log p := logged_iff.2 ⟨t, page, ht, hpage⟩
    obtain ⟨part, hpart, hwal⟩ := h.wal
    obtain ⟨recs, rest, hsp⟩ := hdur
    -- nothing of the log is lost, and everything of the file
    have hn : σ.wal_synced ≤ σ.wal.length := by
      rw [hsp.synced, hwal, List.length_append]
      refine le_trans ?_ (Nat.le_add_right ..)
      have hpre : recs <+: σ.log := by
        have hstable : σ.stable <+: σ.log := by
          unfold stable
          split
          · exact List.dropLast_prefix _
          · exact List.prefix_rfl
        exact (List.prefix_append recs rest).trans (hsp.log ▸ hstable)
      obtain ⟨rest', hrest'⟩ := hpre
      rw [← hrest', List.flatMap_append, List.length_append]
      exact Nat.le_add_right ..
    have hyields := hrec _ _ hsurv hn
    rw [List.take_length] at hyields
    have hlt : p < σ.pool.disk.synced.pages % 2 ^ 32 := hyields.elim (fun hy => hy.pages h.typed hpart.torn hwal hlogged)
      fun hy => hy.pages h.typed hpart.torn hwal hlogged
    exact hlt.trans_le (Nat.mod_le _ _)
  · intro hgrown f n hsurv hn
    obtain ⟨recs, tail, c, hpre, htail, htake, hredo, hc⟩ := hdur.left h hn
    obtain ⟨ws, hws, rfl⟩ := id hsurv
    have hle : (σ.pool.disk.synced.pwrites ws).pages ≤ σ.pages := by
      rw [← h.stored.size, h.stored.written]
      exact DbFile.pwrites_pages_le hws (le_refl _)
    have hbound : (σ.pool.disk.synced.pwrites ws).pages < 2 ^ 32 := hle.trans_lt h.ok.bound
    have hread : Readable (σ.wal.take n) (σ.pool.disk.synced.pwrites ws) recs := by
      refine ⟨fun r hr => h.typed r (hpre.subset hr), ⟨tail, htail, htake⟩, fun p hp => ?_⟩
      obtain ⟨t, page, ht, hpage⟩ := logged_iff.1 (hp.of_isPrefix hpre)
      rw [Nat.mod_eq_of_lt hbound]
      exact (hgrown t p page ht hpage).trans_le (DbFile.pwrites_pages ..)
    obtain ⟨s, hs, hr⟩ := hread.recover
    have hyields : Yields (σ.wal.take n) (σ.pool.disk.synced.pwrites ws) c :=
      ⟨s, hs, fun p => by rw [hr.data p]; exact hredo.replay hsurv p⟩
    rcases hc with rfl | rfl
    · exact Or.inl hyields
    · exact Or.inr hyields

end Engine

namespace Engine

/-- A page is allocated and given back. -/
def grown : Engine := ((init (Session.zeros 1)).client .new_page).client (.unpin_page 1 false)

theorem run_grown : RunWhere Step Event.disciplined (init (Session.zeros 1)) grown := by
  refine run_client (run_client .refl rfl ⟨trivial, by simp⟩) rfl ⟨fun _ hu => hu, by simp⟩

theorem grown_ok : grown.session.OK := by
  have hnew := (Session.ok_init (f := Session.zeros 1) (by decide)).step (c := .new_page) trivial (show 1 + 1 < 2 ^ 32 by decide)
    (Session.step_call _ _)
  exact hnew.step (c := .unpin_page 1 false) (fun _ hu => hu) trivial (Session.step_call _ _)

theorem grown_quiet : Quiet grown.pool := fun p => by
  rw [show grown.pool.pinsOf p = grown.session.pins p from grown_ok.pins p]
  have hheld : grown.session.held = [] := by decide +kernel
  unfold Session.pins
  rw [hheld]
  rfl

theorem grown_clean (p : PageId) : ¬ DirtyAt grown.pool p := by
  rintro ⟨i, -, hd⟩
  have hall : ∀ i, (grown.pool.frame_meta i).is_dirty = false := by decide +kernel
  rw [hall i] at hd
  cases hd

end Engine

end GSDBEngine
