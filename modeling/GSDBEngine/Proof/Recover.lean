import GSDBEngine.Proof.Install
import GSDBEngine.Spec.LogCut
import GSDBEngine.Proof.PoolRun
import Mathlib.Data.List.Induction

/-!
# Recovery from a log cut short

The bytes of a log up to a cut are the frames of the calls before it and a torn one
(`cut_log`); the replay of those frames is what the calls mean (`ledger_replay`).

* `recovers_cut`: **recovery from a cut log gives the pages as the calls before the cut leave
  them, again after an interruption too, and a new transaction id above all committed ones,
  unless one of these is the last there is.**
* `last_id_wraps`: after a commit of the last id the next transaction has id 0.
-/

namespace GSDBEngine

open Eff RedoLog

/-! ### The log of the calls -/

namespace WALManager

variable {s : WALManager} {E : IoErr → WALManager → Prop}

theorem wp_write_bytes_none {data : Bytes} {Q : PUnit → WALManager → Prop} :
    wp (write_bytes none data) E Q s ↔ Q ⟨⟩ { s with wal := s.wal ++ data } := by
  have hlen : min ((none : Option ℕ).getD data.length) data.length = data.length := Nat.min_self _
  unfold write_bytes
  rw [wp_bind, wp_modify, wp_ite, hlen, List.take_length]
  simp

theorem wp_onPool_wal {α : Type} (m : PoolM α) : wp (onPool m) (fun _ s' => s'.wal = s.wal) (fun _ s' => s'.wal = s.wal) s := by
  rw [wp_onPool]
  exact wp_of_forall (fun _ _ => rfl) fun _ _ => rfl

/-- Each call appends its frame, whichever way it ends. -/
theorem wp_call_wal (c : WalCall) (s : WALManager) :
    wp c.body (fun _ s' => s'.wal = s.wal ++ c.bytes) (fun _ s' => s'.wal = s.wal ++ c.bytes) s := by
  cases c with
  | begin => exact (List.append_nil _).symm
  | abort t => exact (List.append_nil _).symm
  | write t p page =>
    unfold WalCall.body write
    rw [wp_bind, wp_write_bytes_none, wp_bind, wp_write_bytes_none, wp_modify]
    show (s.wal ++ headerBytes .PAGE_WRITE t p) ++ page.data = s.wal ++ ((headerBytes .PAGE_WRITE t p ++ page.data) ++ [])
    rw [List.append_nil, List.append_assoc]
  | commit t =>
    have hbytes : (WalCall.commit t).bytes = headerBytes .COMMIT t INVALID_PAGE := List.append_nil _
    unfold WalCall.body commit commitRecord fsync
    rw [hbytes, wp_bind, wp_bind, wp_write_bytes_none, wp_modify, wp_bind, wp_get, wp_bind]
    have hloop := wp_forM (E := fun _ s' => s'.wal = s.wal ++ headerBytes .COMMIT t INVALID_PAGE)
      (f := fun e : (_ : PageId) × RawPage => install e.1 e.2)
      (I := fun _ s' => s'.wal = s.wal ++ headerBytes .COMMIT t INVALID_PAGE)
      fun e _ s' hs' => wp_mono (wp_onPool_wal _) (fun _ _ h => h.trans hs') fun _ _ h => h.trans hs'
    refine wp_post (hloop s.active_pages.entries _ rfl) fun _ s' hs' => ?_
    unfold clearActive
    rw [wp_modify]
    exact hs'

theorem calls_wal (cs : List WalCall) : ∀ s : WALManager, (s.calls cs).wal = s.wal ++ cs.flatMap WalCall.bytes := by
  induction cs with
  | nil => intro s; exact (List.append_nil _).symm
  | cons c cs ih =>
    intro s
    rw [show s.calls (c :: cs) = WALManager.calls _ cs from rfl, ih, List.flatMap_cons, ← List.append_assoc]
    congr 1
    have h := wp_call_wal c s
    beta_reduce
    cases hc : c.body s with
    | ok a s' => exact (wp_ok h hc :)
    | error e s' => exact (wp_error h hc :)

end WALManager

open WALManager

/-! ### The cut -/

/-- The frames of calls. -/
def records (cs : List WalCall) : List (Record RawPage) := cs.filterMap WalCall.record

variable {cs : List WalCall} {c : WalCall} {n : ℕ} {t : Uint32} {p : PageId}

theorem records_cons (c : WalCall) (cs : List WalCall) : records (c :: cs) = c.record.toList ++ records cs := by
  unfold records
  rw [List.filterMap_cons]
  cases c.record <;> rfl

theorem records_append (cs cs' : List WalCall) : records (cs ++ cs') = records cs ++ records cs' := List.filterMap_append

/-- **The bytes before the cut** are whole frames, and one that is torn. -/
theorem cut_log : ∀ (n : ℕ) (cs : List WalCall), ∃ tail, Torn tail ∧
    (cs.flatMap WalCall.bytes).take n = (records (beforeCut n cs)).flatMap frameBytes ++ tail := by
  intro n cs
  induction cs generalizing n with
  | nil => exact ⟨[], torn_nil, by simp [beforeCut, records]⟩
  | cons c cs ih =>
    rw [List.flatMap_cons]
    unfold beforeCut
    by_cases hc : c.bytes.length ≤ n
    · obtain ⟨tail, htail, htake⟩ := ih (n - c.bytes.length)
      refine ⟨tail, htail, ?_⟩
      rw [if_pos hc, List.take_append, List.take_of_length_le hc, htake, records_cons, List.flatMap_append, List.append_assoc]
      rfl
    · -- the cut is inside the frame of `c`
      rw [if_neg hc, List.take_append_of_le_length (Nat.le_of_not_le hc)]
      refine ⟨c.bytes.take n, ?_, rfl⟩
      have hne : c.bytes.take n ≠ c.bytes := fun heq => by
        have := congrArg List.length heq
        rw [List.length_take] at this
        omega
      unfold WalCall.bytes at hne ⊢
      cases hr : c.record with
      | none => rw [hr] at hne; exact absurd List.take_nil hne
      | some r =>
        rw [hr] at hne
        have hbytes : (some r).toList.flatMap frameBytes = frameBytes r := List.append_nil _
        rw [hbytes] at hne ⊢
        exact torn_of_prefix (List.take_prefix ..) hne

theorem beforeCut_isPrefix : ∀ (n : ℕ) (cs : List WalCall), beforeCut n cs <+: cs := by
  intro n cs
  induction cs generalizing n with
  | nil => exact List.nil_prefix
  | cons c cs ih =>
    unfold beforeCut
    split
    · exact List.cons_prefix_cons.2 ⟨rfl, ih _⟩
    · exact List.nil_prefix

theorem records_typed (cs : List WalCall) : ∀ r ∈ records cs, Typed r := by
  intro r hr
  obtain ⟨c, -, hc⟩ := List.mem_filterMap.1 hr
  cases c with
  | begin => cases hc
  | abort t => cases hc
  | write t p page => cases hc; exact ⟨t.isLt, p.isLt⟩
  | commit t => cases hc; exact t.isLt

theorem mem_records_commit : Record.commit t.val ∈ records cs ↔ WalCall.commit t ∈ cs := by
  constructor
  · intro h
    obtain ⟨c, hc, hrec⟩ := List.mem_filterMap.1 h
    cases c with
    | begin => cases hrec
    | abort u => cases hrec
    | write u p page => cases hrec
    | commit u =>
      obtain rfl : u = t := Fin.val_injective (Record.commit.inj (Option.some.inj hrec))
      exact hc
  · intro h
    exact List.mem_filterMap.2 ⟨_, h, rfl⟩

theorem mem_committedIds : t ∈ committedIds cs ↔ WalCall.commit t ∈ cs := by
  unfold committedIds
  rw [List.mem_filterMap]
  constructor
  · rintro ⟨c, hc, hsome⟩
    cases c with
    | commit u => cases hsome; exact hc
    | begin => cases hsome
    | abort u => cases hsome
    | write u p page => cases hsome
  · intro h
    exact ⟨_, h, rfl⟩

theorem mem_records_write {q : ℕ} {u : ℕ} {page : RawPage} (h : Record.pageWrite u q page ∈ records cs) :
    ∃ t p, p.val = q ∧ WalCall.write t p page ∈ cs := by
  obtain ⟨c, hc, hrec⟩ := List.mem_filterMap.1 h
  cases c with
  | begin => cases hrec
  | abort u => cases hrec
  | commit u => cases hrec
  | write t p page => cases hrec; exact ⟨t, p, rfl, hc⟩

/-! ### What the calls mean -/

theorem DistinctIds.of_isPrefix {cs' : List WalCall} (h : DistinctIds cs) (hp : cs' <+: cs) : DistinctIds cs' := by
  obtain ⟨rest, rfl⟩ := hp
  intro pre c post t heq hc c' hc'
  exact h pre c (post ++ rest) t (by rw [heq, List.append_assoc, List.cons_append]) hc c' (by simp [hc'])

theorem DistinctIds.nil : DistinctIds [] := fun pre c post t heq => by simp at heq

theorem DistinctIds.cons (hc : ∀ t, c.ends t → ∀ c' ∈ cs, ¬ c'.uses t) (h : DistinctIds cs) : DistinctIds (c :: cs) := by
  intro pre d post t heq hd
  rcases pre with _ | ⟨e, pre⟩
  · obtain ⟨rfl, rfl⟩ := List.cons.inj heq
    exact hc t hd
  · exact h pre d post t (List.cons.inj heq).2 hd

/-- A frame comes before the end of its transaction. -/
theorem DistinctIds.not_ends (h : DistinctIds (cs ++ [c])) (hc : c.uses t) : ∀ c' ∈ cs, ¬ c'.ends t := by
  intro c' hc' hends
  obtain ⟨pre, post, rfl⟩ := List.append_of_mem hc'
  exact h pre c' (post ++ [c]) t (by simp) hends c (by simp) hc

theorem not_mem_commits (h : ∀ c ∈ cs, ¬ c.ends t) : t.val ∉ commits (records cs) := fun hmem =>
  h _ (mem_records_commit.1 (mem_commits.1 hmem)) rfl

/-- The ledger after the calls, in terms of their frames. -/
structure Replays (base : PageId → RawPage) (cs : List WalCall) (s : Ledger) : Prop where
  pages : ∀ p, s.pages p = replay (records cs) base p
  pending : ∀ t, (∀ c ∈ cs, ¬ c.ends t) → ∀ p, s.pending t p = imageOf t p (records cs)

variable {base : PageId → RawPage} {s : Ledger}

/-- One more call. -/
theorem Replays.call (h : Replays base cs s) (hd : DistinctIds (cs ++ [c])) : Replays base (cs ++ [c]) (s.call c) := by
  have hrec : records (cs ++ [c]) = records cs ++ c.record.toList := by rw [records_append, records_cons]; simp [records]
  have hpend : ∀ u, (∀ c' ∈ cs ++ [c], ¬ c'.ends u) → ∀ p, s.pending u p = imageOf u p (records cs) :=
    fun u hu p => h.pending u (fun c' hc' => hu c' (by simp [hc'])) p
  cases c with
  | begin =>
    rw [show (WalCall.begin).record.toList = [] from rfl, List.append_nil] at hrec
    refine ⟨fun p => ?_, fun u hu p => ?_⟩
    · rw [hrec]; exact h.pages p
    · rw [hrec]; exact hpend u hu p
  | abort t =>
    rw [show (WalCall.abort t).record.toList = [] from rfl, List.append_nil] at hrec
    refine ⟨fun p => ?_, fun u hu p => ?_⟩
    · rw [hrec]; exact h.pages p
    · have hut : u ≠ t := fun hut => hu (.abort t) (by simp) hut.symm
      rw [hrec, ← hpend u hu p]
      show Function.update s.pending t _ u p = _
      rw [Function.update_of_ne hut]
  | write t q page =>
    have hnot := hd.not_ends (c := .write t q page) rfl
    rw [show (WalCall.write t q page).record.toList = [.pageWrite t q page] from rfl] at hrec
    refine ⟨fun p => ?_, fun u hu p => ?_⟩
    · rw [hrec, replay_pageWrite (not_mem_commits hnot)]
      exact h.pages p
    · rw [hrec, imageOf_pageWrite, ← hpend u hu p]
      show Function.update s.pending t _ u p = _
      by_cases hut : u = t
      · subst hut
        rw [Function.update_self]
        by_cases hpq : p = q
        · rw [hpq, Function.update_self, if_pos ⟨rfl, rfl⟩]
        · rw [Function.update_of_ne hpq, if_neg fun hc => hpq hc.2.symm]
      · rw [Function.update_of_ne hut, if_neg fun hc => hut (Fin.val_injective hc.1.symm)]
  | commit t =>
    have hnot := hd.not_ends (c := .commit t) rfl
    rw [show (WalCall.commit t).record.toList = [.commit t.val] from rfl] at hrec
    refine ⟨fun p => ?_, fun u hu p => ?_⟩
    · rw [hrec, replay_commit, ← h.pending t hnot p, ← h.pages p]
      rfl
    · have hut : u ≠ t := fun hut => hu (.commit t) (by simp) hut.symm
      rw [hrec, imageOf_commit, ← hpend u hu p]
      show Function.update s.pending t _ u p = _
      rw [Function.update_of_ne hut]

/-- **The replay of the frames is what the calls mean.** -/
theorem ledger_replay (h : DistinctIds cs) (base : PageId → RawPage) : Ledger.after cs base = replay (records cs) base := by
  have hall : Replays base cs (cs.foldl Ledger.call ⟨base, fun _ _ => none⟩) := by
    induction cs using List.reverseRecOn with
    | nil => exact ⟨fun _ => rfl, fun _ _ _ => rfl⟩
    | append_singleton cs c ih =>
      rw [List.foldl_append]
      exact (ih (h.of_isPrefix (List.prefix_append ..))).call h
  exact funext hall.pages

/-! ### The recovery -/

/-- A log of whole frames and a torn one, on a file that has the pages they are for. -/
structure Readable (log : Bytes) (f : DbFile) (recs : List (Record RawPage)) : Prop where
  typed : ∀ r ∈ recs, Typed r
  log : ∃ tail, Torn tail ∧ log = recs.flatMap frameBytes ++ tail
  covers : ∀ p, WALManager.Logged recs p → p < f.pages % 2 ^ 32

variable {log : Bytes} {f f' : DbFile} {recs : List (Record RawPage)}

theorem Readable.crashed (h : Readable log f recs) : Crashed (WALManager.open log f) (f.pages % 2 ^ 32) f.data recs where
  caches := BufferPool.caches_init f
  quiet _ := rfl
  typed := h.typed
  log := h.log

theorem Readable.recover (h : Readable log f recs) : ∃ s, WALManager.recover (.open log f) = .ok () s ∧
    Recovered (.open log f) (f.pages % 2 ^ 32) f.data recs s := by
  have hwp := h.crashed.wp_recover (Nat.mod_lt _ (by decide))
  cases hr : WALManager.recover (.open log f) with
  | ok u s => exact ⟨s, rfl, (wp_ok hwp hr :)⟩
  | error e s =>
    obtain ⟨p, hp, hle⟩ := wp_error hwp hr
    exact absurd (h.covers p hp) (Nat.not_lt.2 hle)

/-- Every page of the file is as the log has it. -/
theorem WALManager.Recovered.data {s : WALManager} (h : Recovered (.open log f) n f.data recs s) (p : PageId) :
    s.pool.disk.file.data p = replay recs f.data p := by
  by_cases hp : p < n
  · exact h.file p hp
  · rw [h.past p (Nat.le_of_not_lt hp), replay_not_logged fun hl => hp (h.pages p hl)]
    rfl

/-- A file that differs only where the log has an image of its own. -/
structure Redone (recs : List (Record RawPage)) (f f' : DbFile) : Prop where
  pages : f'.pages = f.pages
  data : ∀ p, ¬ WALManager.Logged recs p → f'.data p = f.data p

theorem Redone.replay (h : Redone recs f f') (p : PageId) : RedoLog.replay recs f'.data p = RedoLog.replay recs f.data p := by
  by_cases hp : WALManager.Logged recs p
  · exact replay_logged hp _ _
  · rw [replay_not_logged hp, replay_not_logged hp, h.data p hp]

/-- **An interrupted recovery** changes only pages the log has an image for, and leaves the log. -/
theorem Readable.interrupted (h : Readable log f recs) (k : ℕ) (flushed : List PageId) :
    ∃ s, WALManager.interrupted k flushed (.open log f) = .ok () s ∧ s.wal = log ∧ Redone recs f s.pool.disk.file := by
  have hc := h.crashed
  obtain ⟨found, hf, hscan⟩ := hc.scan
  have himages : ∀ x ∈ found.images.take k, WALManager.Logged recs x.1 := fun x hx =>
    (mem_images hf x.1).1 ⟨x, List.mem_of_mem_take hx, rfl⟩
  have hwp : wp (WALManager.interrupted k flushed) (fun _ _ => False) (fun _ s => s.wal = log ∧ Redone recs f s.pool.disk.file)
      (.open log f) := by
    unfold WALManager.interrupted
    rw [wp_bind]
    unfold wp
    rw [hscan]
    show wp ((found.images.take k).forM (fun e => install e.1 e.2) >>= fun _ => flushed.forM fun p => onPool (BufferPool.flush_page p)) _ _ _
    rw [wp_bind]
    refine wp_mono (wp_installs (Nat.mod_lt _ (by decide)) (l := found.images.take k)
      (s := { WALManager.open log f with next_transaction_id := _ }) hc.caches hc.quiet) ?_ ?_
    · rintro ⟨⟩ s₁ hr
      have hothers : ∀ q, ¬ WALManager.Logged recs q → BufferPool.Untouched (WALManager.open log f).pool s₁.pool q := fun q hq => by
        refine hr.others q (fun x hx hxq => hq (hxq ▸ himages x hx)) ?_
        rintro ⟨i, hi, -⟩
        cases hi
      -- each page flushed is one the pool knows
      have hloop := wp_forM (E := fun _ _ => False) (f := fun p => onPool (BufferPool.flush_page p))
        (I := fun _ s => s.wal = log ∧ BufferPool.Caches s.pool (f.pages % 2 ^ 32) (installed (found.images.take k) f.data) (fun _ => False) ∧
          s.pool.disk.file.pages = f.pages ∧
          ∀ q, ¬ WALManager.Logged recs q → BufferPool.Untouched (WALManager.open log f).pool s.pool q)
        (fun p _ s hs => by
          obtain ⟨hlog, hcaches, hpages, hun⟩ := hs
          rw [wp_onPool]
          refine wp_post (hcaches.wp_flush_page p) fun _ pool hp => ⟨hlog, hp.1, (hp.2.2.2.pages hcaches).trans hpages, fun q hq => ?_⟩
          exact (hun q hq).trans (hp.2.2.2.untouched (hun q hq).clean))
        flushed s₁ ⟨by rw [hr.frame]; rfl, hr.caches, hr.size, hothers⟩
      exact wp_post hloop fun _ s hs => ⟨hs.1, hs.2.2.1, fun p hp => (hs.2.2.2 p hp).data⟩
    · rintro e s₁ ⟨x, hx, hle⟩
      exact absurd (h.covers x.1 (himages x hx)) (Nat.not_lt.2 hle)
  cases hr : WALManager.interrupted k flushed (.open log f) with
  | ok u s => exact ⟨s, rfl, (wp_ok hwp hr :)⟩
  | error e s => exact (wp_error hwp hr).elim

theorem Readable.redone (h : Readable log f recs) (hr : Redone recs f f') : Readable log f' recs where
  typed := h.typed
  log := h.log
  covers p hp := by rw [hr.pages]; exact h.covers p hp

/-- The log of the calls, cut at byte `n`. -/
theorem readable_cut (f₀ : DbFile) (hcov : Covers f (beforeCut n cs)) :
    Readable (((WALManager.open [] f₀).calls cs).wal.take n) f (records (beforeCut n cs)) where
  typed := records_typed _
  log := by
    rw [calls_wal]
    exact cut_log n cs
  covers p hp := by
    obtain ⟨t, -, hne⟩ := hp
    obtain ⟨page, hpage⟩ := Option.ne_none_iff_exists'.1 hne
    obtain ⟨u, q, rfl, hmem⟩ := mem_records_write (mem_of_imageOf hpage)
    exact hcov u q page hmem

theorem nextId_above (h : ∀ t ∈ committedIds cs, t.val ≠ 2 ^ 32 - 1) : ∀ t ∈ committedIds cs, t.val < nextId 1 (commits (records cs)) := by
  have hsmall : ∀ u ∈ commits (records cs), u + 1 < 2 ^ 32 := fun u hu => by
    obtain ⟨c, hc, hrec⟩ := List.mem_filterMap.1 (mem_commits.1 hu)
    cases c with
    | begin => cases hrec
    | abort t => cases hrec
    | write t p page => cases hrec
    | commit t =>
      obtain rfl : t.val = u := Record.commit.inj (Option.some.inj hrec)
      have hne := h t (mem_committedIds.2 hc)
      have hlt := t.isLt
      omega
  exact fun t ht => (le_nextId 1 hsmall).2 t (mem_commits.2 (mem_records_commit.2 (mem_committedIds.1 ht)))

/-- **Recovery from a cut log.** Whatever calls wrote the log and wherever it is cut, on a file that covers the pages
`recover` leaves what the calls before the cut mean, exactly if none of them commits the last of the ids. -/
theorem recovers_cut (f₀ f : DbFile) (cs : List WalCall) (n : ℕ) (hd : DistinctIds cs) (hcov : Covers f (beforeCut n cs)) :
    RecoversCut (((WALManager.open [] f₀).calls cs).wal.take n) f (beforeCut n cs) ↔
      ∀ t ∈ committedIds (beforeCut n cs), t.val ≠ 2 ^ 32 - 1 := by
  have hread := readable_cut f₀ hcov
  have hmeans := ledger_replay (hd.of_isPrefix (beforeCut_isPrefix n cs)) f.data
  constructor
  · rintro ⟨⟨s, hs, -, -, -, hnext⟩, -⟩ t ht hlast
    obtain ⟨s', hs', hr⟩ := hread.recover
    rw [hs] at hs'
    cases hs'
    have hlt := hnext _ _ rfl t ht
    rw [hr.next] at hlt
    have hbound : nextId 1 (commits (records (beforeCut n cs))) < 2 ^ 32 := nextId_lt (by decide)
    rw [hlast] at hlt
    exact absurd hlt (Nat.not_lt.2 (Nat.le_pred_of_lt hbound))
  · intro hids
    refine ⟨?_, fun k flushed => ?_⟩
    · obtain ⟨s, hs, hr⟩ := hread.recover
      refine ⟨s, hs, hr.size, fun p _ => by rw [hmeans]; exact hr.data p, hr.wal, fun next s' hb t ht => ?_⟩
      cases hb
      rw [hr.next]
      exact nextId_above hids t ht
    · obtain ⟨s₁, hs₁, hwal, hredone⟩ := hread.interrupted k flushed
      obtain ⟨s, hs, hr⟩ := (hread.redone hredone).recover
      refine ⟨s₁, s, hs₁, by rw [hwal]; exact hs, hr.size.trans hredone.pages, fun p _ => ?_⟩
      rw [hmeans, hr.data p, hredone.replay p]

/-- A transaction with one page, and after it the last id. -/
def lastIdCommitted : List WalCall := [.write 1 0 RawPage.zero, .commit 1, .commit ⟨2 ^ 32 - 1, by decide⟩]

theorem lastIdCommitted_distinct : DistinctIds lastIdCommitted := by
  refine .cons (fun t h => h.elim) (.cons (fun t h c hc => ?_) (.cons (fun t _ c hc => by cases hc) .nil))
  obtain rfl : 1 = t := h
  obtain rfl := List.mem_singleton.1 hc
  exact fun h => absurd (congrArg Fin.val h) (by decide)

theorem lastIdCommitted_covers (n : ℕ) : Covers (Session.zeros 1) (beforeCut n lastIdCommitted) := by
  intro t p page hmem
  have hmem := (beforeCut_isPrefix n lastIdCommitted).subset hmem
  simp only [lastIdCommitted, List.mem_cons, WalCall.write.injEq, reduceCtorEq, or_false, List.not_mem_nil] at hmem
  obtain ⟨-, rfl, -⟩ := hmem
  decide

theorem write_bytes_length (t p : Uint32) (page : RawPage) : (WalCall.write t p page).bytes.length = 4105 := by
  show ((headerBytes _ _ _ ++ page.data) ++ []).length = 4105
  rw [List.append_nil, List.length_append, headerBytes_length, page.size]
  rfl

theorem commit_bytes_length (t : Uint32) : (WalCall.commit t).bytes.length = 9 := rfl

theorem cut_last_id : beforeCut 4114 lastIdCommitted = [.write 1 0 RawPage.zero, .commit 1] ∧
    beforeCut 4123 lastIdCommitted = lastIdCommitted := by
  constructor
  · simp [beforeCut, lastIdCommitted, write_bytes_length, commit_bytes_length]
  · simp [beforeCut, lastIdCommitted, write_bytes_length, commit_bytes_length]

/-- The cut is before the last frame. -/
theorem recovers_cut_before :
    RecoversCut (((WALManager.open [] (Session.zeros 1)).calls lastIdCommitted).wal.take 4114) (Session.zeros 1)
      (beforeCut 4114 lastIdCommitted) :=
  (recovers_cut _ _ _ _ lastIdCommitted_distinct (lastIdCommitted_covers 4114)).2 fun t ht => by
    rw [cut_last_id.1] at ht
    obtain rfl := List.mem_singleton.1 ht
    decide

/-- **After the last id comes 0.** The whole log: what `begin` returns is not above the committed ids. -/
theorem last_id_wraps : DistinctIds lastIdCommitted ∧ Covers (Session.zeros 1) (beforeCut 4123 lastIdCommitted) ∧
    ¬ RecoversCut (((WALManager.open [] (Session.zeros 1)).calls lastIdCommitted).wal.take 4123) (Session.zeros 1)
      (beforeCut 4123 lastIdCommitted) := by
  refine ⟨lastIdCommitted_distinct, lastIdCommitted_covers 4123, ?_⟩
  rintro ⟨⟨s, hs, -, -, -, hnext⟩, -⟩
  have hlt := hnext _ _ rfl ⟨2 ^ 32 - 1, by decide⟩ (by rw [cut_last_id.2]; exact List.mem_cons_of_mem _ (List.mem_singleton.2 rfl))
  obtain ⟨s', hs', hr⟩ := (readable_cut (Session.zeros 1) (lastIdCommitted_covers 4123)).recover
  rw [hs] at hs'
  cases hs'
  rw [hr.next] at hlt
  exact absurd (hlt.trans_le (Nat.le_pred_of_lt (nextId_lt (by decide)))) (Nat.lt_irrefl _)

end GSDBEngine
