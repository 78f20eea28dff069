import GSDBEngine.Spec.BufferPool
import GSDBEngine.Lib.RedoLog

/-!
# The log, byte by byte

`wal_manager.cpp` over the buffer pool: frames of a 9-byte header and, for a page, its bytes,
appended to the `.wal` file; `recover` reads them back from the first byte on. An append may
stop short, which the system call reports and `write_bytes` throws.

* `begin`, `write`, `commit`, `abort`, `recover`, `checkpoint`: the methods.
* `frameBytes`: a record as it stands in the file.
* `Scan`: what the reading loop of `recover` collects.
-/

namespace GSDBEngine

inductive WalRecordType where
  | PAGE_WRITE
  | COMMIT

def WalRecordType.toByte : WalRecordType → UInt8
  | PAGE_WRITE => 1
  | COMMIT => 2

/-- `sizeof(WalRecordHeader)`, packed: 1 + 4 + 4. -/
def WAL_HEADER_SIZE : ℕ := 9

/-- The bytes of a `WalRecordHeader`. -/
def headerBytes (type : WalRecordType) (transaction_id page_id : ℕ) : Bytes :=
  type.toByte :: (append_u32 transaction_id ++ append_u32 page_id)

/-- The bytes of a record in the log. -/
def frameBytes : RedoLog.Record RawPage → Bytes
  | .pageWrite t p page => headerBytes .PAGE_WRITE t p ++ page.data
  | .commit t => headerBytes .COMMIT t INVALID_PAGE

abbrev PageMap := AList fun _ : PageId => RawPage

/-- `WALManager`: the `.wal` file, how much of it is on the physical disk, and the images of the running transaction. -/
structure WALManager where
  wal : Bytes
  wal_synced : ℕ
  pool : BufferPool
  next_transaction_id : ℕ
  active_pages : PageMap

abbrev WalM := EStateM IoErr WALManager

namespace WALManager

/-- The constructor, on a `.wal` file and a `.db` file that are there. -/
def «open» (log : Bytes) (f : DbFile) : WALManager where
  wal := log
  wal_synced := log.length
  pool := BufferPool.init (DiskManager.open f)
  next_transaction_id := 1
  active_pages := ∅

/-- A call on the pool. -/
def onPool {α : Type} (m : PoolM α) : WalM α := fun s =>
  match m s.pool with
  | .ok a pool => .ok a { s with pool := pool }
  | .error e pool => .error e { s with pool := pool }

/-- `write_bytes`, where the system writes no more than `limit` bytes. -/
def write_bytes (limit : Option ℕ) (data : Bytes) : WalM Unit := do
  let written := min (limit.getD data.length) data.length
  modify fun s => { s with wal := s.wal ++ data.take written }
  if written ≠ data.length then throw .short_write

def begin : WalM ℕ := do
  let s ← get
  set { s with active_pages := ∅, next_transaction_id := (s.next_transaction_id + 1) % 2 ^ 32 }
  pure s.next_transaction_id

def write (limit limit' : Option ℕ) (transaction_id : ℕ) (page_id : PageId) (page : RawPage) : WalM Unit := do
  write_bytes limit (headerBytes .PAGE_WRITE transaction_id page_id)
  write_bytes limit' page.data
  modify fun s => { s with active_pages := s.active_pages.insert page_id page }

/-- The image into the frame of its page, which is then dirty. -/
def install (page_id : PageId) (page : RawPage) : WalM Unit := onPool do
  let slot ← BufferPool.fetch_page page_id
  BufferPool.writeFrame slot page
  BufferPool.unpin_page page_id true

/-- `fsync` of the log. -/
def fsync : WalM Unit := modify fun s => { s with wal_synced := s.wal.length }

/-- The COMMIT frame and the `fsync`. -/
def commitRecord (limit : Option ℕ) (transaction_id : ℕ) : WalM Unit := do
  write_bytes limit (headerBytes .COMMIT transaction_id INVALID_PAGE)
  fsync

def clearActive : WalM Unit := modify fun s => { s with active_pages := ∅ }

/-- The order of the pages is that of a hash table. -/
def commit (limit : Option ℕ) (transaction_id : ℕ) : WalM Unit := do
  commitRecord limit transaction_id
  let s ← get
  s.active_pages.entries.forM fun e => install e.1 e.2
  clearActive

def abort (_transaction_id : ℕ) : WalM Unit := clearActive

/-- `ftruncate` of the log. -/
def truncate : WalM Unit := modify fun s => { s with wal := [], wal_synced := 0 }

def checkpoint : WalM Unit := do
  onPool BufferPool.flush_all
  truncate

/-! ### Recovery -/

/-- Four bytes of the file as a `uint32_t`. -/
def read_u32 : Bytes → ℕ
  | b₀ :: b₁ :: b₂ :: b₃ :: _ => b₀.toNat + 2 ^ 8 * b₁.toNat + 2 ^ 16 * b₂.toNat + 2 ^ 24 * b₃.toNat
  | _ => 0

/-- `read` of a whole page. -/
def readRaw (bytes : Bytes) : Option RawPage :=
  if h : PAGE_SIZE ≤ bytes.length then some ⟨bytes.take PAGE_SIZE, by rw [List.length_take, Nat.min_eq_left h]⟩ else none

/-- What the reading loop collects. -/
structure Scan where
  txn_pages : AList fun _ : ℕ => PageMap
  committed_txns : List ℕ
  next_transaction_id : ℕ

namespace Scan

variable (s : Scan)

def pageWrite (t : ℕ) (p : PageId) (page : RawPage) : Scan :=
  { s with txn_pages := s.txn_pages.insert t (((s.txn_pages.lookup t).getD ∅).insert p page) }

def commit (t : ℕ) : Scan :=
  { s with committed_txns := s.committed_txns ++ [t]
           next_transaction_id := if s.next_transaction_id ≤ t then (t + 1) % 2 ^ 32 else s.next_transaction_id }

end Scan

/-- The reading loop: a header, and for a page write its page; until one of them is cut short. The file has
fewer frames than bytes. -/
def scanLoop : ℕ → Bytes → Scan → Scan
  | 0, _, s => s
  | fuel + 1, bytes, s =>
    if bytes.length < WAL_HEADER_SIZE then s
    else
      let rest := bytes.drop WAL_HEADER_SIZE
      let t := read_u32 (bytes.drop 1)
      let p := read_u32 (bytes.drop 5)
      if bytes.head? = some WalRecordType.PAGE_WRITE.toByte then
        match readRaw rest with
        | some page => scanLoop fuel (rest.drop PAGE_SIZE) (s.pageWrite t p page)
        | none => s
      else if bytes.head? = some WalRecordType.COMMIT.toByte then scanLoop fuel rest (s.commit t)
      else scanLoop fuel rest s

/-- The images of the committed transactions, in the order of the replay. -/
def Scan.images (s : Scan) : List (PageId × RawPage) :=
  s.committed_txns.flatMap fun t => ((s.txn_pages.lookup t).getD ∅).entries.map fun e => (e.1, e.2)

/-- What `recover` finds in the log. -/
def scan : WalM Scan := do
  let s ← get
  let found := scanLoop s.wal.length s.wal ⟨∅, [], s.next_transaction_id⟩
  set { s with next_transaction_id := found.next_transaction_id }
  pure found

def recover : WalM Unit := do
  let found ← scan
  found.images.forM fun e => install e.1 e.2
  checkpoint

end WALManager

end GSDBEngine
