import GSDBEngine.Spec.BufferPool
import GSDBEngine.Lib.Run

/-!
# Callers of the buffer pool

A sequence of calls on the pool, with what the callers know besides: the pins they hold,
what they last left in each page, and which pages they wrote to and have not yet given
back as dirty.

* `PoolCall`, `Session.Step`: the calls, each of which may throw.
* `BufferPool.Sound`: page table, metadata and LRU list agree.
* `PoolCall.disciplined`, `PoolCall.bounded`: writes are reported; no 32-bit count wraps.
-/

namespace GSDBEngine

/-- A call on the pool, or a write to a frame through the pointer a call returned. -/
inductive PoolCall where
  | new_page
  | fetch_page (page_id : PageId)
  | write (slot : Slot) (page : RawPage)
  | unpin_page (page_id : PageId) (is_dirty : Bool)
  | flush_page (page_id : PageId)
  | flush_all

open BufferPool in
/-- The call, with the page and the pointer it returns. -/
def PoolCall.body : PoolCall → PoolM (Option (PageId × Slot))
  | new_page => do
    let r ← BufferPool.new_page
    pure (some r)
  | fetch_page page_id => do
    let slot ← BufferPool.fetch_page page_id
    pure (some (page_id, slot))
  | write slot page => do
    writeFrame slot page
    pure none
  | unpin_page page_id is_dirty => do
    BufferPool.unpin_page page_id is_dirty
    pure none
  | flush_page page_id => do
    BufferPool.flush_page page_id
    pure none
  | flush_all => do
    BufferPool.flush_all
    pure none

/-- The pool and its callers. -/
structure Session where
  pool : BufferPool
  /-- the pages that exist -/
  pages : ℕ
  /-- what was last left in each page -/
  content : PageId → RawPage
  /-- the pins that were not given back, with the pointers -/
  held : List (PageId × Slot)
  /-- pages written to and not yet given back as dirty -/
  unreported : PageId → Prop

namespace Session

/-- The pool on a file just opened. -/
def init (f : DbFile) : Session where
  pool := BufferPool.init (DiskManager.open f)
  pages := f.pages
  content := f.data
  held := []
  unreported := fun _ => False

variable (σ : Session)

def pins (p : PageId) : ℕ := (σ.held.map Prod.fst).count p

/-- What the callers know after a call that returned `r`. -/
def returned (pool : BufferPool) : PoolCall → Option (PageId × Slot) → Session
  | .new_page, r => { σ with pool := pool, pages := σ.pages + 1, content := Function.update σ.content σ.pages RawPage.zero,
                              held := r.toList ++ σ.held }
  | .fetch_page _, r => { σ with pool := pool, held := r.toList ++ σ.held }
  | .write slot page, _ =>
    match σ.held.find? (fun h => h.2 = slot) with
    | some (p, _) => { σ with pool := pool, content := Function.update σ.content p page,
                              unreported := fun q => q = p ∨ σ.unreported q }
    | none => { σ with pool := pool }
  | .unpin_page p is_dirty, _ => { σ with pool := pool, held := σ.held.eraseP (fun h => h.1 = p),
                                          unreported := fun q => σ.unreported q ∧ ¬ (q = p ∧ is_dirty = true) }
  | _, _ => { σ with pool := pool }

/-- After a call that threw. -/
def threw (pool : BufferPool) : PoolCall → Session
  | .new_page => { σ with pool := pool, pages := σ.pages + 1, content := Function.update σ.content σ.pages RawPage.zero }
  | _ => { σ with pool := pool }

/-- One call, whichever way it ends. -/
inductive Step : PoolCall → Session → Session → Prop
  | returned {c : PoolCall} {σ : Session} {r : Option (PageId × Slot)} {pool : BufferPool} : c.body σ.pool = .ok r pool →
      Step c σ (σ.returned pool c r)
  | threw {c : PoolCall} {σ : Session} {e : IoErr} {pool : BufferPool} : c.body σ.pool = .error e pool → Step c σ (σ.threw pool c)

end Session

/-- Callers write to frames they hold, and whoever gives the last pin back has reported what was written. -/
def PoolCall.disciplined : PoolCall → Session → Prop
  | write slot _, σ => ∃ p, (p, slot) ∈ σ.held
  | unpin_page p false, σ => σ.pins p = 1 → ¬ σ.unreported p
  | _, _ => True

/-- No 32-bit count wraps: the file stays below 2^32 pages, and no page gets 2^32 pins. -/
def PoolCall.bounded : PoolCall → Session → Prop
  | new_page, σ => σ.pages + 1 < 2 ^ 32
  | fetch_page p, σ => σ.pins p + 1 < 2 ^ 32
  | _, _ => True

namespace BufferPool

/-- Page table, metadata and LRU list agree. -/
structure Sound (s : BufferPool) : Prop where
  /-- the page table is a bijection onto the occupied slots -/
  table : ∀ p i, s.page_table.lookup p = some i ↔ (s.frame_meta i).page_id = p ∧ p ≠ INVALID_PAGE
  /-- the other slots are clean and have no pin -/
  free : ∀ i, (s.frame_meta i).page_id = INVALID_PAGE → s.frame_meta i = {}
  /-- the LRU list is a permutation of the slots -/
  slots : (s.lru_list.map LruNode.slot).Perm (List.finRange BUFFER_POOL_SIZE)
  nodes : (s.lru_list.map LruNode.node).Nodup
  /-- the map points to the node of each slot -/
  lru_map : ∀ i, ∃ node, s.lru_map i = some node ∧ (⟨node, i⟩ : LruNode) ∈ s.lru_list

/-- Tables that agree, over pages that are in the file; the nodes that are still to come are none of those in the list. -/
structure InOrder (s : BufferPool) : Prop extends Sound s where
  fresh : ∀ m ∈ s.lru_list, m.node < s.next_node
  in_file : ∀ p i, s.page_table.lookup p = some i → p < s.disk.total_pages

end BufferPool

/-- **What the pool promises its callers**: its tables agree, a page with a pin stays in the frame its callers
point to, and `fetch_page` returns what was last left in the page, unless there is no such page or no slot is free. -/
structure Session.Kept (σ : Session) : Prop where
  sound : σ.pool.Sound
  pinned : ∀ p i, (p, i) ∈ σ.held → σ.pool.page_table.lookup p = some i ∧ 0 < (σ.pool.frame_meta i).pin_count
  fetched : ∀ p i pool, BufferPool.fetch_page p σ.pool = .ok i pool → pool.frames i = σ.content p
  refused : ∀ p e pool, BufferPool.fetch_page p σ.pool = .error e pool →
    e = .out_of_range p ∧ σ.pages ≤ p ∨ e = .all_pinned ∧ σ.pool.page_table.lookup p = none ∧ ∀ i, 0 < (σ.pool.frame_meta i).pin_count

end GSDBEngine
