import GSDBEngine.Spec.Page
import GSDBEngine.Lib.RedoLog

/-!
# Frames, write-ahead log and free list under a tree

The state a `BTree` method runs on: the pages as the buffer pool serves them, the
log of the `WALManager`, the in-memory header, and the tree's `root_page_`. Methods
run in `M`: a throw keeps what was already changed, as in the source.

`fetch_page` gives the frame of a page; pinning is left out, since no method holds
more than four frames and the pool has 64.
-/

namespace GSDBEngine

/-- How a call ends without returning. `overflow` and `undefined` are not throws
of the source: the first is a write of cells past the node header, the second a
read the source leaves undefined (a cell of an empty node, a page that holds no
node). `no_fuel` stands for a loop that would not end. -/
inductive Err (K : Type) where
  | duplicate_key (key : K)
  | key_not_found (key : K)
  | not_a_child
  | out_of_range (page_id : PageId)
  | file_extend
  | overflow
  | undefined
  | no_fuel

/-- The `WALManager`: the next id to hand out, the images of the running
transaction, and the `.wal` file. -/
structure Wal (P : Type) where
  next_transaction_id : ℕ
  active_pages : PageId → Option P
  log : List (RedoLog.Record P)

/-- What a method of one tree runs on. -/
structure Store (K : Type) [KeyOps K] where
  page : PageId → Page K
  total_pages : ℕ
  header : DBHeader
  wal : Wal (Page K)
  root_page : PageId

abbrev M (K : Type) [KeyOps K] := EStateM (Err K) (Store K)

variable {K : Type} [KeyOps K]

/-! ### Frames -/

def Store.setPage (s : Store K) (p : PageId) (pg : Page K) : Store K :=
  { s with page := Function.update s.page p pg }

@[simp] theorem Store.setPage_page (s : Store K) (p : PageId) (pg : Page K) :
    (s.setPage p pg).page = Function.update s.page p pg := rfl

@[simp] theorem Store.setPage_total_pages (s : Store K) (p : PageId) (pg : Page K) :
    (s.setPage p pg).total_pages = s.total_pages := rfl

@[simp] theorem Store.setPage_header (s : Store K) (p : PageId) (pg : Page K) :
    (s.setPage p pg).header = s.header := rfl

@[simp] theorem Store.setPage_wal (s : Store K) (p : PageId) (pg : Page K) :
    (s.setPage p pg).wal = s.wal := rfl

@[simp] theorem Store.setPage_root_page (s : Store K) (p : PageId) (pg : Page K) :
    (s.setPage p pg).root_page = s.root_page := rfl

def fetchPage (p : PageId) : M K (Page K) := do
  let s ← get
  if p < s.total_pages then pure (s.page p) else throw (.out_of_range p)

/-- A page fetched and read as a node. -/
def fetchNode (p : PageId) : M K (Node K) := do
  match ← fetchPage p with
  | .node n => pure n
  | _ => throw .undefined

/-- The frame of `p` now holds the node `n`. -/
def storeNode (p : PageId) (n : Node K) : M K Unit := modify fun s => s.setPage p (.node n)

def initNode (p : PageId) (type : NodeType) : M K Unit := storeNode p (Node.init type)

def setParentPage (p parent : PageId) : M K Unit := do
  let n ← fetchNode p
  storeNode p { n with parent_page := parent }

def setNextLeaf (p next : PageId) : M K Unit := do
  let n ← fetchNode p
  storeNode p { n with next_leaf := next }

def setRightmostChild (p child : PageId) : M K Unit := do
  let n ← fetchNode p
  storeNode p { n with rightmost_child := child }

def Node.leafEntries (n : Node K) : M K (List (LeafEntry K)) :=
  match n.cells with
  | .leaf es => pure es
  | .internal _ => throw .undefined

def Node.internalEntries (n : Node K) : M K (List (InternalEntry K)) :=
  match n.cells with
  | .internal es => pure es
  | .leaf _ => throw .undefined

def getLeafEntries (p : PageId) : M K (List (LeafEntry K)) := do
  let n ← fetchNode p
  n.leafEntries

def getInternalEntries (p : PageId) : M K (List (InternalEntry K)) := do
  let n ← fetchNode p
  n.internalEntries

/-- The cells written from the end of the page towards the header. -/
def Node.setCells (n : Node K) (cells : Cells K) : M K (Node K) :=
  if h : cells.bytes.length ≤ CAPACITY then pure (n.withCells cells h) else throw .overflow

/-- `set_leaf_entries`: `value_size` counts the bytes kept of each value. -/
def setLeafEntries (p : PageId) (entries : List (LeafEntry K)) : M K Unit := do
  let n ← fetchNode p
  let n' ← n.setCells (.leaf (entries.map LeafEntry.stored))
  storeNode p n'

def setInternalEntries (p : PageId) (entries : List (InternalEntry K)) : M K Unit := do
  let n ← fetchNode p
  let n' ← n.setCells (.internal entries)
  storeNode p n'

/-! ### WALManager -/

/-- `begin`: the id counter is a `uint32_t`. -/
def walBegin : M K ℕ := do
  let s ← get
  let txn := s.wal.next_transaction_id
  modify fun s => { s with wal :=
    { s.wal with active_pages := fun _ => none, next_transaction_id := (txn + 1) % 2 ^ 32 } }
  pure txn

/-- The store after `image` has been logged for page `p`, and kept for `commit`. -/
def Store.logged (s : Store K) (txn : ℕ) (p : PageId) (image : Page K) : Store K :=
  { s with wal :=
    { s.wal with
      active_pages := Function.update s.wal.active_pages p (some image)
      log := s.wal.log ++ [.pageWrite txn p image] } }

section logged
variable (s : Store K) (txn : ℕ) (p : PageId) (image : Page K)

@[simp] theorem Store.logged_page : (s.logged txn p image).page = s.page := rfl

@[simp] theorem Store.logged_total_pages : (s.logged txn p image).total_pages = s.total_pages := rfl

@[simp] theorem Store.logged_header : (s.logged txn p image).header = s.header := rfl

@[simp] theorem Store.logged_root_page : (s.logged txn p image).root_page = s.root_page := rfl

@[simp] theorem Store.logged_active_pages :
    (s.logged txn p image).wal.active_pages = Function.update s.wal.active_pages p (some image) := rfl

@[simp] theorem Store.logged_log :
    (s.logged txn p image).wal.log = s.wal.log ++ [.pageWrite txn p image] := rfl

end logged

/-- `write`: the frame to the log. -/
def walWrite (txn : ℕ) (p : PageId) (image : Page K) : M K Unit := modify fun s => s.logged txn p image

/-- `commit`: the COMMIT frame, then every image of the transaction copied over the
frame of its page. -/
def walCommit (txn : ℕ) : M K Unit := modify fun s =>
  { s with
    page := fun p => (s.wal.active_pages p).getD (s.page p)
    wal := { s.wal with active_pages := fun _ => none, log := s.wal.log ++ [.commit txn] } }

/-- `write_page_through_wal`: the frame of `p` as it stands. -/
def writePageThroughWal (txn : ℕ) (p : PageId) : M K Unit := do
  let s ← get
  walWrite txn p (s.page p)

/-! ### FreeListManager -/

/-- `BufferPool::new_page`: the file grows by a zeroed page. It cannot grow onto the
page id that means "no page". -/
def newPage : M K PageId := do
  let s ← get
  let p := s.total_pages
  if p < INVALID_PAGE then
    modify fun s => { s.setPage p .zero with total_pages := p + 1 }
    pure p
  else
    throw .file_extend

/-- The header's free-list head, changed in memory. -/
def setFirstFreePage (next : PageId) : M K Unit := modify fun s =>
  { s with header := { s.header with first_free_page := next } }

/-- The header page built from the in-memory header, logged. -/
def writeHeader (txn : ℕ) : M K Unit := do
  let s ← get
  walWrite txn HEADER_PAGE_ID (.header s.header)

/-- `FreeListManager::allocate_page`. -/
def allocatePage (txn : ℕ) : M K PageId := do
  let s ← get
  let head := s.header.first_free_page
  if head = NO_FREE_PAGE then
    newPage
  else
    match ← fetchPage head with
    | .free next _ =>
      setFirstFreePage next
      writeHeader txn
      pure head
    | _ => throw .undefined

/-- `FreeListManager::free_page`. -/
def freePage (txn : ℕ) (p : PageId) : M K Unit := do
  let pg ← fetchPage p
  modify fun s => s.setPage p (.free s.header.first_free_page pg)
  writePageThroughWal txn p
  setFirstFreePage p
  writeHeader txn

end GSDBEngine
