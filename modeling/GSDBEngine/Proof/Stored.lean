import GSDBEngine.Proof.Install

/-!
# The file behind the log

`Redo recs c d`: the replay of `recs` gives the pages `c`, whichever writes since the last
`sync` of `d` are in the file. `Stored`: besides, a page whose bytes in the file are not those
of `c` is dirty in the pool, or due to be copied into it.

* `Redo.replay`: recovery from any file that may be left.
* `Stored.writtenBack`, `Stored.allocated`, `Stored.installed`: what the pool does to the file.
-/

namespace GSDBEngine

open RedoLog BufferPool

namespace WALManager

variable {recs : List (Record RawPage)} {t : ℕ} {p q : PageId} {page : RawPage}

theorem logged_pageWrite (h : t ∉ commits recs) : Logged (recs ++ [.pageWrite t p page]) q ↔ WALManager.Logged recs q := by
  have hc : commits (recs ++ [.pageWrite t p page]) = commits recs := by simp [commits_append, commits]
  unfold Logged
  rw [hc]
  refine exists_congr fun u => and_congr_right fun hu => ?_
  rw [imageOf_pageWrite, if_neg]
  rintro ⟨rfl, -⟩
  exact h hu

theorem logged_commit : Logged (recs ++ [.commit t]) q ↔ WALManager.Logged recs q ∨ imageOf t q recs ≠ none := by
  have hc : commits (recs ++ [.commit t]) = commits recs ++ [t] := by simp [commits_append, commits]
  unfold Logged
  rw [hc]
  constructor
  · rintro ⟨u, hu, hne⟩
    rw [imageOf_commit] at hne
    rcases List.mem_append.1 hu with hu | hu
    · exact Or.inl ⟨u, hu, hne⟩
    · obtain rfl := List.mem_singleton.1 hu
      exact Or.inr hne
  · rintro (⟨u, hu, hne⟩ | hne)
    · exact ⟨u, List.mem_append_left _ hu, by rwa [imageOf_commit]⟩
    · exact ⟨t, by simp, by rwa [imageOf_commit]⟩

theorem not_logged_nil : ¬ WALManager.Logged [] p := by
  rintro ⟨t, ht, -⟩
  cases ht

end WALManager

open WALManager

/-! ### The replay on what is left of the file -/

/-- Pages the log has an image for are replayed as in `c`; the others were written as in `c`. -/
structure Redo (recs : List (Record RawPage)) (c : PageId → RawPage) (d : DiskManager) : Prop where
  logged : ∀ p, WALManager.Logged recs p → ∀ base : PageId → RawPage, replay recs base p = c p
  synced : ∀ p, ¬ WALManager.Logged recs p → d.synced.data p = c p
  unsynced : ∀ p, ¬ WALManager.Logged recs p → ∀ w ∈ d.unsynced, w.1 = p → w.2 = c p

variable {recs : List (Record RawPage)} {c : PageId → RawPage} {d : DiskManager} {t : ℕ} {p q : PageId} {page : RawPage} {f : DbFile}

/-- The file after writes. -/
def DbFile.pwrites (f : DbFile) (ws : List (PageId × RawPage)) : DbFile := ws.foldl (fun f w => f.pwrite w.1 w.2) f

theorem DbFile.pwrites_snoc (f : DbFile) (ws : List (PageId × RawPage)) (p : PageId) (page : RawPage) :
    f.pwrites (ws ++ [(p, page)]) = (f.pwrites ws).pwrite p page := List.foldl_append

theorem DbFile.pwrites_data {ws : List (PageId × RawPage)} {a : RawPage} : ∀ {f : DbFile}, f.data p = a →
    (∀ w ∈ ws, w.1 = p → w.2 = a) → (f.pwrites ws).data p = a := by
  induction ws with
  | nil => intro f h _; exact h
  | cons w ws ih =>
    intro f h hw
    refine ih (f := f.pwrite w.1 w.2) ?_ fun w' hw' => hw w' (by simp [hw'])
    by_cases hp : w.1 = p
    · rw [← hp, DbFile.pwrite_data, Function.update_self]
      exact hw w (by simp) hp
    · rw [DbFile.pwrite_data, Function.update_of_ne (Ne.symm hp), h]

theorem DbFile.pwrites_pages (ws : List (PageId × RawPage)) : ∀ f : DbFile, f.pages ≤ (f.pwrites ws).pages := by
  induction ws with
  | nil => intro f; exact le_refl _
  | cons w ws ih =>
    intro f
    have := ih (f.pwrite w.1 w.2)
    rw [DbFile.pwrite_pages] at this
    exact (le_max_left ..).trans this

namespace Redo

theorem data (h : Redo recs c d) (hf : d.Survives f) (hp : ¬ WALManager.Logged recs p) : f.data p = c p := by
  obtain ⟨ws, hsub, rfl⟩ := hf
  exact DbFile.pwrites_data (h.synced p hp) fun w hw => h.unsynced p hp w (hsub.subset hw)

/-- **The replay on any file that may be left.** -/
theorem replay (h : Redo recs c d) (hf : d.Survives f) (p : PageId) : RedoLog.replay recs f.data p = c p := by
  by_cases hp : WALManager.Logged recs p
  · exact h.logged p hp f.data
  · rw [replay_not_logged hp]
    exact h.data hf hp

/-- One more image of a transaction that is not committed. -/
theorem pageWrite (h : Redo recs c d) (ht : t ∉ commits recs) : Redo (recs ++ [.pageWrite t q page]) c d where
  logged p hp base := by
    rw [replay_pageWrite ht]
    exact h.logged p ((logged_pageWrite ht).1 hp) base
  synced p hp := h.synced p fun hl => hp ((logged_pageWrite ht).2 hl)
  unsynced p hp := h.unsynced p fun hl => hp ((logged_pageWrite ht).2 hl)

/-- A transaction commits. -/
theorem commit (h : Redo recs c d) : Redo (recs ++ [.commit t]) (fun p => (imageOf t p recs).getD (c p)) d where
  logged p hp base := by
    rw [replay_commit]
    cases him : imageOf t p recs with
    | some image => rfl
    | none => exact h.logged p ((logged_commit.1 hp).resolve_right fun hne => hne him) base
  synced p hp := by
    have hnone : imageOf t p recs = none := by
      by_contra hne
      exact hp (logged_commit.2 (Or.inr hne))
    rw [hnone]
    exact h.synced p fun hl => hp (logged_commit.2 (Or.inl hl))
  unsynced p hp := by
    have hnone : imageOf t p recs = none := by
      by_contra hne
      exact hp (logged_commit.2 (Or.inr hne))
    rw [hnone]
    exact h.unsynced p fun hl => hp (logged_commit.2 (Or.inl hl))

theorem pwrite (h : Redo recs c d) (hp : ¬ WALManager.Logged recs p → page = c p) : Redo recs c (d.pwrite p page) where
  logged := h.logged
  synced := h.synced
  unsynced q hq w hw heq := by
    rcases List.mem_append.1 hw with hw | hw
    · exact h.unsynced q hq w hw heq
    · obtain rfl := List.mem_singleton.1 hw
      obtain rfl : p = q := heq
      exact hp hq

end Redo

/-! ### The pool before the file -/

/-- What of `c` is not in the file is dirty, or due to be copied into the pool. -/
structure Stored (s : BufferPool) (n : ℕ) (recs : List (Record RawPage)) (c : PageId → RawPage) (due : PageId → Prop) : Prop where
  size : s.disk.file.pages = n
  written : s.disk.file = s.disk.synced.pwrites s.disk.unsynced
  redo : Redo recs c s.disk
  file : ∀ p, s.disk.file.data p = c p ∨ DirtyAt s p ∨ due p

namespace Stored

variable {s s' : BufferPool} {n : ℕ} {cont : PageId → RawPage} {U due : PageId → Prop} {V : PageId → Prop}

theorem survives (h : Stored s n recs c due) : s.disk.Survives s.disk.file := ⟨_, List.Sublist.refl _, h.written⟩

/-- Nothing in the file changed. -/
theorem congr {due' : PageId → Prop} (h : Stored s n recs c due) (hd : s'.disk = s.disk)
    (hdirty : ∀ q, s.disk.file.data q ≠ c q → DirtyAt s q ∨ due q → DirtyAt s' q ∨ due' q) : Stored s' n recs c due' where
  size := by rw [hd]; exact h.size
  written := by rw [hd]; exact h.written
  redo := by rw [hd]; exact h.redo
  file p := by
    rw [hd]
    by_cases hp : s.disk.file.data p = c p
    · exact Or.inl hp
    · exact Or.inr (hdirty p hp ((h.file p).resolve_left hp))

/-- **A dirty page goes to the file**, as it was committed or about to be. -/
theorem writtenBack (h : Stored s n recs c due) (hc : Caches s n cont U) (hw : WrittenBack s cont V s')
    (hset : ∀ q, V q → DirtyAt s q → cont q = c q ∨ due q ∧ WALManager.Logged recs q) : Stored s' n recs c due := by
  have hpages := hw.pages hc
  cases hw with
  | none hd hdirty => exact h.congr hd fun q _ hq => hq.imp (hdirty q).2 id
  | page p hv hp hd hdirty =>
    have hsettled := hset p hv hp
    refine ⟨hpages.trans h.size, ?_, ?_, fun q => ?_⟩
    · rw [hd]
      show s.disk.file.pwrite p (cont p) = s.disk.synced.pwrites (s.disk.unsynced ++ [(p, cont p)])
      rw [DbFile.pwrites_snoc, ← h.written]
    · rw [hd]
      exact h.redo.pwrite fun hl => hsettled.resolve_right fun hdue => hl hdue.2
    · have hdata : s'.disk.file.data = Function.update s.disk.file.data p (cont p) := by rw [hd]; rfl
      by_cases hqp : q = p
      · rw [hqp, hdata, Function.update_self]
        exact hsettled.imp id fun hdue => Or.inr hdue.1
      · rw [hdata, Function.update_of_ne hqp]
        exact (h.file q).imp id fun hq => hq.imp (fun hq => (hdirty q).2 ⟨hq, hqp⟩) id

/-- The file one page longer. -/
theorem allocated (h : Stored s n recs c due) (hc : Caches s n cont U) (hpages : ∀ p, WALManager.Logged recs p → p < n) :
    Stored { s with disk := s.disk.allocate_page.2 } (n + 1) recs c due := by
  have hzero : c n = RawPage.zero := by
    rw [← h.redo.data h.survives fun hl => Nat.lt_irrefl n (hpages n hl)]
    exact s.disk.file.past n (by rw [h.size])
  refine ⟨?_, ?_, ⟨h.redo.logged, h.redo.synced, ?_⟩, fun q => ?_⟩
  · show max s.disk.file.pages (s.disk.total_pages + 1) = n + 1
    rw [hc.total, h.size]
    exact max_eq_right (Nat.le_succ n)
  · show s.disk.file.pwrite s.disk.total_pages RawPage.zero = s.disk.synced.pwrites (s.disk.unsynced ++ [(s.disk.total_pages, RawPage.zero)])
    rw [DbFile.pwrites_snoc, ← h.written]
  · have hpw : Redo recs c (s.disk.pwrite s.disk.total_pages RawPage.zero) := h.redo.pwrite fun _ => by rw [hc.total, hzero]
    exact hpw.unsynced
  · show Function.update s.disk.file.data s.disk.total_pages RawPage.zero q = c q ∨ _
    by_cases hq : q = n
    · rw [hq, hc.total, Function.update_self]
      exact Or.inl hzero.symm
    · rw [hc.total, Function.update_of_ne hq]
      exact h.file q

/-- **An image into the frame of its page.** -/
theorem installed (h : Stored s n recs c due) (hc : Caches s n cont U) (hi : Dirtied s cont p s')
    (hset : s.page_table.lookup p = none → ∀ q, Victim s q → DirtyAt s q → cont q = c q ∨ due q ∧ WALManager.Logged recs q) :
    Stored s' n recs c fun q => due q ∧ q ≠ p := by
  obtain ⟨s₁, hsp, hd, hdirty⟩ := hi
  refine (h.writtenBack hc hsp fun q hq => hset hq.1 q hq.2).congr hd fun q _ hq => ?_
  by_cases hqp : q = p
  · exact Or.inl ((hdirty q).2 (Or.inr hqp))
  · exact hq.imp (fun hq => (hdirty q).2 (Or.inl hq)) fun hq => ⟨hq, hqp⟩

end Stored

end GSDBEngine
