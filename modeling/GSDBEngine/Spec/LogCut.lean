import GSDBEngine.Spec.WalManager

/-!
# A log cut short

The log that a sequence of calls writes, cut at some byte, and what recovery from it should
give: the calls whose frames lie before the cut, carried out one after the other on the pages,
each commit installing what its transaction wrote.

* `WalCall`, `WALManager.calls`: the calls on the log.
* `Ledger`: **what the calls mean**, without a log.
* `RecoversCut`: what `recover` should do with the log cut at a byte.
-/

namespace GSDBEngine

/-- The ids a `uint32_t` can hold. -/
abbrev Uint32 := Fin (2 ^ 32)

/-- A call on the log, by any transaction. -/
inductive WalCall where
  | begin
  | write (transaction_id page_id : Uint32) (page : RawPage)
  | commit (transaction_id : Uint32)
  | abort (transaction_id : Uint32)

namespace WalCall

/-- The call, where every append is complete. -/
def body : WalCall → WalM Unit
  | begin => do
    let _ ← WALManager.begin
    pure ()
  | write t p page => WALManager.write none none t p page
  | commit t => WALManager.commit none t
  | abort t => WALManager.abort t

/-- The frame the call appends. -/
def record : WalCall → Option (RedoLog.Record RawPage)
  | write t p page => some (.pageWrite t p page)
  | commit t => some (.commit t)
  | _ => none

def bytes (c : WalCall) : Bytes := c.record.toList.flatMap frameBytes

/-- The call ends the transaction. -/
def ends (t : Uint32) : WalCall → Prop
  | commit u => u = t
  | abort u => u = t
  | _ => False

/-- The call has a frame of the transaction. -/
def uses (t : Uint32) : WalCall → Prop
  | commit u => u = t
  | write u _ _ => u = t
  | _ => False

end WalCall

/-- The manager after calls, whichever way each ends. -/
def WALManager.calls (s : WALManager) (cs : List WalCall) : WALManager :=
  cs.foldl (fun s c => match c.body s with
    | .ok _ s' => s'
    | .error _ s' => s') s

/-- Transactions have ids of their own: what ended with an id is not followed by frames under it. -/
def DistinctIds (cs : List WalCall) : Prop :=
  ∀ pre c post t, cs = pre ++ c :: post → c.ends t → ∀ c' ∈ post, ¬ c'.uses t

/-- The calls whose frames lie before byte `n`. -/
def beforeCut : ℕ → List WalCall → List WalCall
  | _, [] => []
  | n, c :: cs => if c.bytes.length ≤ n then c :: beforeCut (n - c.bytes.length) cs else []

/-- The page count of the file covers the ids of the pages written. -/
def Covers (f : DbFile) (cs : List WalCall) : Prop :=
  ∀ t p page, WalCall.write t p page ∈ cs → p.val < (DiskManager.open f).total_pages

/-- The pages, and what each transaction wrote and did not end. -/
structure Ledger where
  pages : PageId → RawPage
  pending : Uint32 → PageId → Option RawPage

namespace Ledger

/-- A commit installs what its transaction wrote, an abort drops it. -/
def call (s : Ledger) : WalCall → Ledger
  | .begin => s
  | .write t p page => { s with pending := Function.update s.pending t (Function.update (s.pending t) p (some page)) }
  | .commit t => { pages := fun p => (s.pending t p).getD (s.pages p), pending := Function.update s.pending t fun _ => none }
  | .abort t => { s with pending := Function.update s.pending t fun _ => none }

/-- The pages after the calls. -/
def after (cs : List WalCall) (pages : PageId → RawPage) : PageId → RawPage :=
  (cs.foldl call ⟨pages, fun _ _ => none⟩).pages

end Ledger

/-- The calls that commit, among those before the cut. -/
def committedIds (cs : List WalCall) : List Uint32 := cs.filterMap fun c =>
  match c with
  | .commit t => some t
  | _ => none

/-- `recover` interrupted: `k` images are in the pool, and of the dirty pages those in `flushed` are in the file. -/
def WALManager.interrupted (k : ℕ) (flushed : List PageId) : WalM Unit := do
  let found ← scan
  (found.images.take k).forM fun e => install e.1 e.2
  flushed.forM fun p => onPool (BufferPool.flush_page p)

/-- **What `recover` should do** with a log of which `cs` are the whole frames, on the file `f`: each page as the calls leave
it, the log empty, an id for the next transaction above all committed ones; and the same pages when it is run
again after it was interrupted. -/
structure RecoversCut (log : Bytes) (f : DbFile) (cs : List WalCall) : Prop where
  returns : ∃ s, WALManager.recover (.open log f) = .ok () s ∧ s.pool.disk.file.pages = f.pages ∧
    (∀ p, p < f.pages → s.pool.disk.file.data p = Ledger.after cs f.data p) ∧ s.wal = [] ∧
    ∀ next s', WALManager.begin s = .ok next s' → ∀ t ∈ committedIds cs, t.val < next
  again : ∀ k flushed, ∃ s₁ s, WALManager.interrupted k flushed (.open log f) = .ok () s₁ ∧
    WALManager.recover (.open s₁.wal s₁.pool.disk.file) = .ok () s ∧ s.pool.disk.file.pages = f.pages ∧
    ∀ p, p < f.pages → s.pool.disk.file.data p = Ledger.after cs f.data p

end GSDBEngine
