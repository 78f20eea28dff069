import GSDBEngine.Spec.WalManager
import GSDBEngine.Spec.PoolRun

/-!
# Transactions over the pool and the log

The calls on the log and on the pool between which a program may crash: `commit` is the append
of its frame, the `fsync`, and an image after the other into the pool; `checkpoint` is a page
after the other to the file, the `sync`, and the truncation.

* `Engine`: the log, the pool, and what the transactions mean without either.
* `Engine.Step`: the steps; `Event.disciplined`: what callers keep to.
* `Yields`: **what recovery makes of a log and a file**; `Engine.Recoverable`: after a power loss.
-/

namespace GSDBEngine

open RedoLog

/-- What of a `commit` or a `checkpoint` is still to come. -/
inductive Phase where
  | idle
  /-- the `fsync` -/
  | syncing
  /-- images into the pool -/
  | installing (rest : List (PageId × RawPage))
  /-- pages to the file -/
  | flushing (rest : List PageId)
  /-- the truncation -/
  | truncating

structure Engine extends WALManager where
  /-- the pages that exist -/
  pages : ℕ
  /-- what was last left in each page -/
  content : PageId → RawPage
  /-- the pins that were not given back, with the pointers -/
  held : List (PageId × Slot)
  /-- pages written to and not yet given back as dirty -/
  unreported : PageId → Prop
  phase : Phase
  /-- the id of the running transaction -/
  running : Option ℕ
  /-- the whole frames appended since the last truncation -/
  log : List (Record RawPage)
  /-- what the running transaction has written -/
  pending : PageId → Option RawPage
  /-- the pages after the transactions that have a COMMIT frame -/
  committed : PageId → RawPage
  /-- the pages after the transactions whose `commit` returned -/
  returned : PageId → RawPage

namespace Engine

/-- On a file just opened, with an empty log. -/
def init (f : DbFile) : Engine where
  toWALManager := WALManager.open [] f
  pages := f.pages
  content := f.data
  held := []
  unreported := fun _ => False
  phase := .idle
  running := none
  log := []
  pending := fun _ => none
  committed := f.data
  returned := f.data

variable (σ : Engine)

/-- The callers of the pool. -/
def session : Session := ⟨σ.pool, σ.pages, σ.content, σ.held, σ.unreported⟩

def withSession (τ : Session) : Engine :=
  { σ with pool := τ.pool, pages := τ.pages, content := τ.content, held := τ.held, unreported := τ.unreported }

/-- What a commit makes of the pages. -/
def overlay (p : PageId) : RawPage := (σ.pending p).getD (σ.committed p)

/-- A commit or a checkpoint ended by an exception. -/
def threw (s : WALManager) : Engine := { σ with toWALManager := s, phase := .idle }

end Engine

inductive Event where
  | client (c : PoolCall)
  | begin
  | write (limit limit' : Option ℕ) (page_id : PageId) (page : RawPage)
  | commit (limit : Option ℕ)
  | fsync
  | install
  | commit_returned
  | abort
  | checkpoint
  | flush
  | sync
  | truncate

open WALManager in
/-- The steps. Whatever the frames of a hash table are copied in, it is some order. -/
inductive Engine.Step : Event → Engine → Engine → Prop
  | client {σ : Engine} {c : PoolCall} {τ : Session} : σ.phase = .idle → Session.Step c σ.session τ →
      Step (.client c) σ (σ.withSession τ)
  | begin {σ : Engine} {t : ℕ} {s : WALManager} : σ.phase = .idle → WALManager.begin σ.toWALManager = .ok t s →
      Step .begin σ { σ with toWALManager := s, running := some t, pending := fun _ => none }
  | write {σ : Engine} {l l' : Option ℕ} {t : ℕ} {p : PageId} {page : RawPage} {s : WALManager} : σ.phase = .idle → σ.running = some t →
      WALManager.write l l' t p page σ.toWALManager = .ok () s →
      Step (.write l l' p page) σ { σ with toWALManager := s, log := σ.log ++ [.pageWrite t p page],
                                            pending := Function.update σ.pending p (some page) }
  | writeThrew {σ : Engine} {l l' : Option ℕ} {t : ℕ} {p : PageId} {page : RawPage} {e : IoErr} {s : WALManager} : σ.phase = .idle →
      σ.running = some t → WALManager.write l l' t p page σ.toWALManager = .error e s →
      Step (.write l l' p page) σ { σ with toWALManager := s }
  | commit {σ : Engine} {l : Option ℕ} {t : ℕ} {s : WALManager} : σ.phase = .idle → σ.running = some t →
      write_bytes l (headerBytes .COMMIT t INVALID_PAGE) σ.toWALManager = .ok () s →
      Step (.commit l) σ { σ with toWALManager := s, phase := .syncing, log := σ.log ++ [.commit t], committed := σ.overlay }
  | commitThrew {σ : Engine} {l : Option ℕ} {t : ℕ} {e : IoErr} {s : WALManager} : σ.phase = .idle → σ.running = some t →
      write_bytes l (headerBytes .COMMIT t INVALID_PAGE) σ.toWALManager = .error e s →
      Step (.commit l) σ { σ with toWALManager := s }
  | fsync {σ : Engine} {rest : List (PageId × RawPage)} {s : WALManager} : σ.phase = .syncing →
      rest.Perm (σ.active_pages.entries.map fun e => (e.1, e.2)) → WALManager.fsync σ.toWALManager = .ok () s →
      Step .fsync σ { σ with toWALManager := s, phase := .installing rest }
  | install {σ : Engine} {p : PageId} {page : RawPage} {rest : List (PageId × RawPage)} {s : WALManager} :
      σ.phase = .installing ((p, page) :: rest) → WALManager.install p page σ.toWALManager = .ok () s →
      Step .install σ { σ with toWALManager := s, phase := .installing rest, content := Function.update σ.content p page,
                                unreported := fun q => σ.unreported q ∧ q ≠ p }
  | installThrew {σ : Engine} {p : PageId} {page : RawPage} {rest : List (PageId × RawPage)} {e : IoErr} {s : WALManager} :
      σ.phase = .installing ((p, page) :: rest) → WALManager.install p page σ.toWALManager = .error e s → Step .install σ (σ.threw s)
  | commit_returned {σ : Engine} {s : WALManager} : σ.phase = .installing [] → clearActive σ.toWALManager = .ok () s →
      Step .commit_returned σ { σ with toWALManager := s, phase := .idle, running := none, pending := fun _ => none,
                                        returned := σ.committed }
  | abort {σ : Engine} {t : ℕ} {s : WALManager} : σ.phase = .idle → σ.running = some t →
      WALManager.abort t σ.toWALManager = .ok () s →
      Step .abort σ { σ with toWALManager := s, running := none, pending := fun _ => none }
  | checkpoint {σ : Engine} {rest : List PageId} : σ.phase = .idle → σ.running = none → rest.Perm σ.pool.page_table.keys →
      Step .checkpoint σ { σ with phase := .flushing rest }
  | flush {σ : Engine} {p : PageId} {rest : List PageId} {s : WALManager} : σ.phase = .flushing (p :: rest) →
      onPool (BufferPool.flush_page p) σ.toWALManager = .ok () s →
      Step .flush σ { σ with toWALManager := s, phase := .flushing rest }
  | flushThrew {σ : Engine} {p : PageId} {rest : List PageId} {e : IoErr} {s : WALManager} : σ.phase = .flushing (p :: rest) →
      onPool (BufferPool.flush_page p) σ.toWALManager = .error e s → Step .flush σ (σ.threw s)
  | sync {σ : Engine} {s : WALManager} : σ.phase = .flushing [] → onPool BufferPool.sync σ.toWALManager = .ok () s →
      Step .sync σ { σ with toWALManager := s, phase := .truncating }
  | truncate {σ : Engine} {s : WALManager} : σ.phase = .truncating → WALManager.truncate σ.toWALManager = .ok () s →
      Step .truncate σ { σ with toWALManager := s, phase := .idle, log := [] }

/-! ### Conditions -/

/-- Callers use the pool as it wants to be used, leave `flush_all` to checkpoints, and log pages that exist. -/
def Event.disciplined : Event → Engine → Prop
  | client c, σ => c.disciplined σ.session ∧ c ≠ .flush_all
  | write _ _ p _, σ => p < σ.pages
  | _, _ => True

/-- No 32-bit count wraps, and no transaction gets an id that the log still carries. -/
def Event.bounded : Event → Engine → Prop
  | client c, σ => c.bounded σ.session
  | begin, σ => ∀ r ∈ σ.log, r.txn ≠ σ.next_transaction_id
  | install, σ => ∀ p page rest, σ.phase = .installing ((p, page) :: rest) → σ.session.pins p + 1 < 2 ^ 32
  | _, _ => True

/-- An append starts where a frame ends. -/
def Event.framed : Event → Engine → Prop
  | write _ _ _ _, σ => σ.wal = σ.log.flatMap frameBytes
  | commit _, σ => σ.wal = σ.log.flatMap frameBytes
  | _, _ => True

/-- There is a slot for the image. -/
def Event.roomy : Event → Engine → Prop
  | install, σ => ∀ p page rest, σ.phase = .installing ((p, page) :: rest) →
      (∃ i, σ.pool.page_table.lookup p = some i) ∨ ∃ i, (σ.pool.frame_meta i).pin_count = 0
  | _, _ => True

/-- The event is no call of another client of the pool. -/
def Event.ofLog : Event → Prop
  | client _ => False
  | _ => True

namespace Engine

variable (σ : Engine)

/-- The page has what was last committed for it, or is about to get it. -/
def Settled (p : PageId) : Prop := σ.content p = σ.committed p ∨
  match σ.phase with
  | .installing rest => ∃ x ∈ rest, x.1 = p
  | _ => False

/-- The page that the next eviction writes to the file, if there is one. -/
def Spilled (p : PageId) : Prop :=
  ∃ i, σ.pool.victim = some i ∧ σ.pool.page_table.lookup p = some i ∧ (σ.pool.frame_meta i).is_dirty = true

/-- The page is cached and dirty. -/
def Dirty (p : PageId) : Prop := ∃ i, σ.pool.page_table.lookup p = some i ∧ (σ.pool.frame_meta i).is_dirty = true

end Engine

/-- A dirty page that goes to the file has what was last committed for it. -/
def Event.settled : Event → Engine → Prop
  | client .new_page, σ => ∀ q, σ.Spilled q → σ.Settled q
  | client (.fetch_page p), σ => σ.pool.page_table.lookup p = none → ∀ q, σ.Spilled q → σ.Settled q
  | client (.flush_page p), σ => σ.Dirty p → σ.Settled p
  | install, σ => ∀ p page rest, σ.phase = .installing ((p, page) :: rest) → σ.pool.page_table.lookup p = none →
      ∀ q, σ.Spilled q → σ.Settled q
  | flush, σ => ∀ p rest, σ.phase = .flushing (p :: rest) → σ.Dirty p → σ.Settled p
  | _, _ => True

/-- Recovery from the log and the file returns, and leaves these pages. -/
def Yields (log : Bytes) (f : DbFile) (c : PageId → RawPage) : Prop :=
  ∃ s, WALManager.recover (.open log f) = .ok () s ∧ ∀ p, s.pool.disk.file.data p = c p

/-- **After a power loss** the file has lost any of the writes since the last `sync`, and the log any of its bytes since the
last `fsync`: recovery leaves the transactions whose `commit` returned, and with them at most one whose COMMIT frame is there. -/
def Engine.Recoverable (σ : Engine) : Prop :=
  ∀ f n, σ.pool.disk.Survives f → σ.wal_synced ≤ n → Yields (σ.wal.take n) f σ.returned ∨ Yields (σ.wal.take n) f σ.committed

/-- The pages that the log has committed images for were in the file at its last `sync`. -/
def Engine.Grown (σ : Engine) : Prop :=
  ∀ t p page, Record.commit t ∈ σ.log → Record.pageWrite t p page ∈ σ.log → p < σ.pool.disk.synced.pages

end GSDBEngine
