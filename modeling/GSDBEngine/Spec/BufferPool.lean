import GSDBEngine.Spec.Disk
import Mathlib.Data.List.AList
import Mathlib.Data.List.FinRange

/-!
# The buffer pool

`buffer_pool.cpp` method by method: 64 slots over the database file, a page table, and the
slots in the order of their last use. `lru_list_` is a linked list, so its nodes have
identities, and `lru_map_` holds one for each slot.

* `fetch_page`, `unpin_page`, `new_page`, `flush_page`, `flush_all`: the methods.
-/

namespace GSDBEngine

def BUFFER_POOL_SIZE : ℕ := 64

abbrev Slot := Fin BUFFER_POOL_SIZE

structure FrameMeta where
  page_id : PageId := INVALID_PAGE
  is_dirty : Bool := false
  pin_count : ℕ := 0
  deriving DecidableEq

/-- A node of `lru_list_`. -/
structure LruNode where
  node : ℕ
  slot : Slot
  deriving DecidableEq

structure BufferPool where
  disk : DiskManager
  frames : Slot → RawPage
  frame_meta : Slot → FrameMeta
  page_table : AList fun _ : PageId => Slot
  /-- front is the most recently used -/
  lru_list : List LruNode
  lru_map : Slot → Option ℕ
  next_node : ℕ

abbrev PoolM := EStateM IoErr BufferPool

namespace BufferPool

/-- The constructor. -/
def init (disk : DiskManager) : BufferPool where
  disk := disk
  frames := fun _ => RawPage.zero
  frame_meta := fun _ => {}
  page_table := ∅
  lru_list := (List.finRange BUFFER_POOL_SIZE).map fun i => ⟨i.val, i⟩
  lru_map := fun i => some i.val
  next_node := BUFFER_POOL_SIZE

section updates

variable (s : BufferPool) (slot : Slot)

def setMeta (m : FrameMeta) : BufferPool := { s with frame_meta := Function.update s.frame_meta slot m }

def setFrame (page : RawPage) : BufferPool := { s with frames := Function.update s.frames slot page }

/-- `slot` in a new node at the front. -/
def pushFront (node : ℕ) : BufferPool :=
  { s with
    lru_list := ⟨s.next_node, slot⟩ :: s.lru_list.filter (fun n => n.node ≠ node)
    lru_map := Function.update s.lru_map slot (some s.next_node)
    next_node := s.next_node + 1 }

end updates

/-- `touch`: the node of the slot erased, a new one at the front. Erasing through an iterator that points
to no node is undefined. -/
def touch (slot : Slot) : PoolM Unit := do
  let s ← get
  match s.lru_map slot with
  | some node =>
    if s.lru_list.any (fun n => n.node == node) then set (s.pushFront slot node) else throw .undefined
  | none => throw .undefined

/-- `disk_.write_page`. -/
def writePage (page_id : PageId) (page : RawPage) : PoolM Unit := do
  let s ← get
  match s.disk.write_page page_id page with
  | .ok disk => set { s with disk := disk }
  | .error e => throw e

def evict_frame (slot : Slot) : PoolM Unit := do
  let s ← get
  let old := s.frame_meta slot
  if old.page_id ≠ INVALID_PAGE then do
    if old.is_dirty then writePage old.page_id (s.frames slot)
    modify fun s => { s with page_table := s.page_table.erase old.page_id }
  modify fun s => (s.setMeta slot {}).setFrame slot RawPage.zero

/-- The least recently used slot that is not pinned. -/
def victim (s : BufferPool) : Option Slot :=
  (s.lru_list.reverse.find? fun n => (s.frame_meta n.slot).pin_count = 0).map LruNode.slot

def evict_slot : PoolM Slot := do
  let s ← get
  match s.victim with
  | none => throw .all_pinned
  | some slot =>
    evict_frame slot
    pure slot

/-- The page is in the slot, and has one pin. -/
def occupy (page_id : PageId) (slot : Slot) : PoolM Unit :=
  modify fun s => { s.setMeta slot { page_id := page_id, is_dirty := false, pin_count := 1 } with
                    page_table := s.page_table.insert page_id slot }

/-- `disk_.read_page` into the frame. -/
def readInto (page_id : PageId) (slot : Slot) : PoolM Unit := do
  let s ← get
  match s.disk.read_page page_id with
  | .ok page => set (s.setFrame slot page)
  | .error e => throw e

/-- The slot of the page, which is pinned once more; the pin count is a `uint32_t`. -/
def fetch_page (page_id : PageId) : PoolM Slot := do
  let s ← get
  match s.page_table.lookup page_id with
  | some slot =>
    modify fun s => s.setMeta slot { s.frame_meta slot with pin_count := ((s.frame_meta slot).pin_count + 1) % 2 ^ 32 }
    touch slot
    pure slot
  | none =>
    let slot ← evict_slot
    readInto page_id slot
    occupy page_id slot
    touch slot
    pure slot

def unpin_page (page_id : PageId) (is_dirty : Bool) : PoolM Unit := modify fun s =>
  match s.page_table.lookup page_id with
  | none => s
  | some slot =>
    let m := s.frame_meta slot
    if m.pin_count = 0 then s
    else s.setMeta slot { m with pin_count := m.pin_count - 1, is_dirty := m.is_dirty || is_dirty }

/-- The id of the new page, and its slot. -/
def new_page : PoolM (PageId × Slot) := do
  let s ← get
  let (page_id, disk) := s.disk.allocate_page
  set { s with disk := disk }
  let slot ← evict_slot
  occupy page_id slot
  touch slot
  pure (page_id, slot)

/-- The page of the slot to the file, if it is dirty. -/
def flushSlot (page_id : PageId) (slot : Slot) : PoolM Unit := do
  let s ← get
  if (s.frame_meta slot).is_dirty then do
    writePage page_id (s.frames slot)
    modify fun s => s.setMeta slot { s.frame_meta slot with is_dirty := false }

def flush_page (page_id : PageId) : PoolM Unit := do
  let s ← get
  match s.page_table.lookup page_id with
  | none => pure ()
  | some slot => flushSlot page_id slot

/-- `disk_.sync`. -/
def sync : PoolM Unit := modify fun s => { s with disk := s.disk.sync }

/-- Every dirty page to the file, then `sync`. The order of the pages is that of a hash table. -/
def flush_all : PoolM Unit := do
  let s ← get
  s.page_table.entries.forM fun e => flushSlot e.1 e.2
  sync

/-- A caller writes to the frame it holds. -/
def writeFrame (slot : Slot) (page : RawPage) : PoolM Unit := modify fun s => s.setFrame slot page

end BufferPool

end GSDBEngine
