import GSDBEngine.Proof.Sync

/-!
# Replay reproduces the live pages

Runs of transactions over any number of trees that share a store.

* `freshRun_inv`: what every fresh run keeps, by one step lemma (`step_inv`).
* `commit_images_match`: **at every commit the images logged by the transaction are
  the frames, and page 0 is the in-memory header; between transactions the log
  replayed on the last checkpoint is exactly the live pages.**
* `stale_id_loses_insert`: with an id that wrapped around to one the log still
  carries, the replay loses a committed insert.
-/

namespace GSDBEngine

open Eff RedoLog

variable {K : Type} [KeyOps K] {base old : PageId → Page K} {txn : ℕ} {s : Store K} {σ σ' : System K}

/-- The images of the running transaction are in the log, which carries its id for nothing else and gives `old`
when replayed on `base`. -/
def redo (base old : PageId → Page K) (txn : ℕ) : LogInv K txn where
  holds w := (∀ p, w.active_pages p = imageOf txn p w.log) ∧ (∀ p, replay w.log base p = old p) ∧ txn ∉ commits w.log
  logged s p image h := by
    refine ⟨fun q => ?_, fun q => ?_, by simpa [commits_append, commits] using h.2.2⟩
    · simp only [Store.logged_active_pages, Store.logged_log, imageOf_pageWrite, true_and]
      by_cases hq : q = p
      · subst hq; simp
      · rw [Function.update_of_ne hq, if_neg (Ne.symm hq)]; exact h.1 q
    · simp only [Store.logged_log, replay_pageWrite h.2.2]; exact h.2.1 q

/-- No transaction is open, and the log replayed on `base` gives the frames. -/
structure Settled (base old : PageId → Page K) (s : Store K) : Prop where
  replayed : ∀ p, replay s.wal.log base p = s.page p
  old : old = s.page
  header : s.page HEADER_PAGE_ID = .header s.header
  pages : 1 ≤ s.total_pages

/-- The invariant of a run. -/
def Logged (σ : System K) : Prop :=
  match σ.running with
  | none => Settled σ.base σ.last_commit σ.store
  | some t => Sync (redo σ.base σ.last_commit t) σ.last_commit ∅ σ.store

theorem settled_begin (h : Settled base old s) {t : ℕ} {s' : Store K} (hb : walBegin s = .ok t s')
    (hfresh : ∀ r ∈ s.wal.log, r.txn ≠ s.wal.next_transaction_id) : Sync (redo base old t) old ∅ s' := by
  have hwp : wp walBegin (fun _ _ => True) (fun t s' => Sync (redo base old t) old ∅ s') s := by
    unfold walBegin
    simp only [wp_bind, wp_get, wp_modify, wp_pure]
    refine ⟨fun p _ _ => ?_, ⟨fun p => ?_, fun p => ?_, fun hmem => ?_⟩, ?_, ⟨_, h.header⟩, ?_, h.pages⟩
    · simp [h.old]
    · exact (imageOf_eq_none hfresh).symm
    · rw [h.old]; exact h.replayed p
    · exact hfresh _ (mem_commits.1 hmem) rfl
    · rw [h.old]
    · simpa using h.header
  exact (wp_ok hwp hb :)

theorem sync_commit (h : Sync (redo base old txn) old ∅ s) {s' : Store K} (hc : walCommit txn s = .ok () s') :
    Settled base s'.page s' ∧ (∀ p, p ≠ HEADER_PAGE_ID → s'.page p = s.page p) := by
  have hframe := commit_frames h hc
  refine ⟨?_, hframe⟩
  cases hc
  refine ⟨fun p => ?_, rfl, h.header, h.pages⟩
  rw [replay_commit, ← h.log.1 p, h.log.2.1 p]
  by_cases hp : p = HEADER_PAGE_ID
  · subst hp; rw [← h.page0]
  · exact (h.frames p hp (by simp)).symm.trans (hframe p hp).symm

theorem sync_root {I : LogInv K txn} (h : Sync I old ∅ s) (p : PageId) : Sync I old ∅ { s with root_page := p } :=
  { h with }

theorem callOK_body {I : LogInv K txn} (c : Call K) (hs : Sync I old ∅ s) : CallOK I old (c.body txn) s := by
  cases c with
  | construct i =>
    refine Keeps.toCall ?_ hs
    exact keeps_bind keeps_createRootPage fun p _ => keeps_root p
  | insert i key value => exact callOK_insertTx key value hs
  | remove i key => exact callOK_removeTx key hs

/-- One step keeps every frame in step with the log. -/
theorem step_logged {ev : System.Event K} (h : Logged σ) (hfresh : ev.begins = true → σ.FreshId)
    (hstep : System.Step ev σ σ') : Logged σ' := by
  unfold Logged at h
  cases hstep with
  | openTree i root => exact h
  | begin hrun hb =>
    rw [hrun] at h
    exact settled_begin h hb (hfresh rfl)
  | @returned _ c t s hrun hok =>
    rw [hrun] at h
    have hs := wp_ok (callOK_body c (sync_root h (σ.roots c.tree))) hok
    simpa only [Logged, System.leave, hrun] using hs
  | @refused _ c t e s hrun herr hr =>
    rw [hrun] at h
    have hs := wp_error (callOK_body c (sync_root h (σ.roots c.tree))) herr hr
    subst hs
    simpa only [Logged, System.leave, hrun] using sync_root h (σ.roots c.tree)
  | @own _ c t e s₁ s hrun hb herr hr =>
    rw [hrun] at h
    have hb' : Settled σ.base σ.last_commit (σ.enter c.tree) := { h with }
    have hs₁ := settled_begin hb' hb (hfresh rfl)
    have hs := wp_error (callOK_body c hs₁) herr hr
    subst hs
    have hpg : s.page = σ.store.page ∧ s.wal.log = σ.store.wal.log ∧ s.header = σ.store.header ∧
        s.total_pages = σ.store.total_pages := by
      cases hb; exact ⟨rfl, rfl, rfl, rfl⟩
    simp only [Logged, System.leave, hrun]
    exact ⟨by rw [hpg.1, hpg.2.1]; exact h.replayed, by rw [hpg.1]; exact h.old,
      by rw [hpg.1, hpg.2.2.1]; exact h.header, by rw [hpg.2.2.2]; exact h.pages⟩
  | commit hrun hc =>
    rw [hrun] at h
    exact (sync_commit h hc).1
  | checkpoint hrun =>
    rw [hrun] at h
    simp only [Logged, hrun]
    exact { h with replayed := fun p => rfl }

theorem opened_logged (h : σ.Opened) : Logged σ := by
  unfold Logged
  rw [h.running]
  exact ⟨by rw [h.log, h.base]; simp, h.last_commit, h.header, h.pages⟩

theorem freshRun_logged (h : System.FreshRun σ σ') (ho : σ.Opened) : Logged σ' := by
  induction h with
  | refl => exact opened_logged ho
  | step _ hfresh hstep ih => exact step_logged ih hfresh hstep

/-- The images `t` has logged against the frames, as `commit` finds them. -/
structure ImagesMatch (σ : System K) (t : ℕ) : Prop where
  /-- a frame that changed since the previous commit has been logged as it stands -/
  changed : ∀ p, p ≠ HEADER_PAGE_ID → σ.store.page p ≠ σ.last_commit p →
    imageOf t p σ.store.wal.log = some (σ.store.page p)
  /-- page 0 too: the header in memory, if it is not the one last committed -/
  header : .header σ.store.header ≠ σ.last_commit HEADER_PAGE_ID →
    imageOf t HEADER_PAGE_ID σ.store.wal.log = some (.header σ.store.header)
  /-- the copy `commit` makes changes no page but page 0, which becomes the header -/
  copy : ∀ s', walCommit t σ.store = .ok () s' →
    (∀ p, p ≠ HEADER_PAGE_ID → s'.page p = σ.store.page p) ∧
      s'.page HEADER_PAGE_ID = .header σ.store.header

theorem sync_imagesMatch {t : ℕ} (h : Sync (redo σ.base σ.last_commit t) σ.last_commit ∅ σ.store) : ImagesMatch σ t where
  changed p hp hne := by
    have hf := h.frames p hp (by simp)
    rw [← h.log.1 p]
    cases ha : σ.store.wal.active_pages p with
    | none => rw [ha] at hf; exact absurd hf hne
    | some im => rw [ha] at hf; rw [hf]; rfl
  header hne := by
    have hh := h.header
    rw [← h.log.1 HEADER_PAGE_ID]
    cases ha : σ.store.wal.active_pages HEADER_PAGE_ID with
    | none => rw [ha, h.page0] at hh; exact absurd hh.symm hne
    | some im => rw [ha] at hh; exact congrArg some hh
  copy s' hc := by
    refine ⟨(sync_commit h hc).2, ?_⟩
    have hwp : wp (walCommit t) (fun _ _ => True)
        (fun _ s' => s'.page HEADER_PAGE_ID = .header σ.store.header) σ.store := by
      unfold walCommit
      simp only [wp_modify]
      exact h.header
    exact (wp_ok hwp hc :)

/-- **The log is the frames.** In every run whose `begin`s hand out ids the log does not carry: whenever
a transaction is open (so at every commit) the images it logged are the frames it changed, and whenever
none is, replaying the log on the last checkpointed `.db` gives exactly the live pages. -/
theorem commit_images_match (ho : σ.Opened) (hrun : System.FreshRun σ σ') :
    (∀ t, σ'.running = some t → ImagesMatch σ' t) ∧
      (σ'.running = none → replay σ'.store.wal.log σ'.base = σ'.store.page) := by
  have h := freshRun_logged hrun ho
  unfold Logged at h
  refine ⟨fun t ht => ?_, fun hn => ?_⟩
  · rw [ht] at h; exact sync_imagesMatch h
  · rw [hn] at h; exact funext h.replayed

/-! ### A transaction id that comes round again

Two trees; tree 1 gets a row; then `2 ^ 32 - 2` inserts of the same key are refused,
each of which takes an id. The next transaction is number 2 again, the one that
created the root of tree 1, and its commit replays that empty root. -/

namespace StaleId

def newHeader : DBHeader where
  magic := []
  page_size := PAGE_SIZE
  total_pages := 1
  schema_root_page := INVALID_PAGE
  first_free_page := NO_FREE_PAGE
  version := 2
  reserved := 0

/-- A database just created: the header page alone. -/
def newSystem : System SqlKey where
  store := {
    page := fun p => if p = HEADER_PAGE_ID then .header newHeader else .zero
    total_pages := 1
    header := newHeader
    wal := { next_transaction_id := 1, active_pages := fun _ => none, log := [] }
    root_page := INVALID_PAGE }
  roots := fun _ => INVALID_PAGE
  running := none
  base := fun p => if p = HEADER_PAGE_ID then .header newHeader else .zero
  last_commit := fun p => if p = HEADER_PAGE_ID then .header newHeader else .zero

theorem newSystem_opened : newSystem.Opened := ⟨rfl, rfl, rfl, rfl, rfl, le_refl _, rfl⟩

def oneKey : SqlKey := ⟨[.int 1], rfl⟩

/-- The store a call leaves, whichever way it ends. -/
def after {α : Type} (m : M SqlKey α) (s : Store SqlKey) : Store SqlKey :=
  match m s with
  | .ok _ s' => s'
  | .error _ s' => s'

/-- One call in a transaction of its own. -/
def transact (σ : System SqlKey) (c : Call SqlKey) : System SqlKey :=
  let t := σ.store.wal.next_transaction_id
  let σ₁ := { σ with store := after walBegin σ.store, running := some t }
  let σ₂ := σ₁.leave c.tree (after (c.body t) (σ₁.enter c.tree))
  { σ₂ with store := after (walCommit t) σ₂.store, running := none,
            last_commit := (after (walCommit t) σ₂.store).page }

/-- A new database in the middle of creating its first tree. -/
def creating : System SqlKey :=
  let σ₁ := { newSystem with store := after walBegin newSystem.store, running := some 1 }
  σ₁.leave 0 (after (Call.body 1 (.construct 0)) (σ₁.enter 0))

theorem run_creating : System.FreshRun newSystem creating :=
  .step (.step .refl (fun _ _ hr => absurd hr List.not_mem_nil) (.begin rfl rfl)) nofun
    (.returned (c := .construct 0) rfl rfl)

theorem run_transact {σ₀ σ : System SqlKey} (c : Call SqlKey) (h : System.Run σ₀ σ) (hrun : σ.running = none)
    (hok : c.body σ.store.wal.next_transaction_id
      ({ σ with store := after walBegin σ.store, running := some σ.store.wal.next_transaction_id }.enter c.tree) =
        .ok () (after (c.body σ.store.wal.next_transaction_id)
          ({ σ with store := after walBegin σ.store,
                    running := some σ.store.wal.next_transaction_id }.enter c.tree))) :
    System.Run σ₀ (transact σ c) :=
  .step (.step (.step h (.begin hrun rfl)) (.returned rfl hok)) (.commit rfl rfl)

/-- Tree 0 and tree 1, and a row in tree 1. -/
def loaded : System SqlKey :=
  transact (transact (transact newSystem (.construct 0)) (.construct 1)) (.insert 1 oneKey [])

theorem run_loaded : System.Run newSystem loaded :=
  run_transact _ (run_transact _ (run_transact _ .refl rfl rfl) rfl rfl) rfl rfl

/-- `loaded`, with another id next. -/
def loadedAt (t : ℕ) : System SqlKey :=
  { loaded with store := { loaded.store with wal := { loaded.store.wal with next_transaction_id := t } } }

/-- The row inserted again is refused, and uses up an id. -/
theorem step_refused (t : ℕ) :
    System.Step (.own (.insert 1 oneKey [])) (loadedAt t) (loadedAt ((t + 1) % 2 ^ 32)) := by
  have h : System.Step (.own (.insert 1 oneKey [])) (loadedAt t)
      { loadedAt ((t + 1) % 2 ^ 32) with roots := Function.update loaded.roots 1 (loaded.roots 1) } :=
    .own (t := t) (e := .duplicate_key oneKey) rfl rfl rfl rfl
  rw [Function.update_eq_self] at h
  exact h

theorem run_refused (n : ℕ) : System.Run newSystem (loadedAt ((4 + n) % 2 ^ 32)) := by
  induction n with
  | zero => exact run_loaded
  | succ n ih =>
    have h := System.Run.step ih (step_refused ((4 + n) % 2 ^ 32))
    rwa [Nat.mod_add_mod] at h

/-- Id 2 once more, for a row in tree 0. -/
def wrapped : System SqlKey := transact (loadedAt 2) (.insert 0 oneKey [])

theorem run_wrapped : System.Run newSystem wrapped :=
  run_transact _ (run_refused (2 ^ 32 - 2)) rfl rfl

/-- How many cells a page shows. -/
def cellCount : Page SqlKey → ℕ
  | .node n => n.num_cells
  | _ => 0

end StaleId

open StaleId in
theorem commit_images_match_creating :
    (∀ t, creating.running = some t → ImagesMatch creating t) ∧
      (creating.running = none → replay creating.store.wal.log creating.base = creating.store.page) :=
  commit_images_match newSystem_opened run_creating

open StaleId in
/-- **A reused id loses a committed insert.** The replay gives tree 1 its empty root back. -/
theorem stale_id_loses_insert :
    newSystem.Opened ∧ System.Run newSystem wrapped ∧ wrapped.running = none ∧
      replay wrapped.store.wal.log wrapped.base ≠ wrapped.store.page := by
  refine ⟨newSystem_opened, run_wrapped, rfl, fun h => ?_⟩
  have h2 : cellCount (replay wrapped.store.wal.log wrapped.base 2) = cellCount (wrapped.store.page 2) := by
    rw [h]
  have hreplay : cellCount (replay wrapped.store.wal.log wrapped.base 2) = 0 := rfl
  have hlive : cellCount (wrapped.store.page 2) = 1 := rfl
  rw [hreplay, hlive] at h2
  cases h2

end GSDBEngine
