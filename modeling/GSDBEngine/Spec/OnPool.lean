import GSDBEngine.Spec.BTree
import GSDBEngine.Spec.NodeBytes
import GSDBEngine.Spec.PoolRun
import GSDBEngine.Spec.Table
import GSDBEngine.Spec.WalManager
import GSDBEngine.Lib.Scan

/-!
# The B+ tree on the buffer pool

`btree.cpp` and `free_list_manager.cpp` down to the frames: every `fetch_page`, `new_page` and `unpin_page` of the methods, the pointers
that they are given, and the bytes behind these. The pool after each call on it is on record, and so is each pointer through which a page
goes to the log.

* `OnPool.insert`, `OnPool.remove`, `OnPool.search` and the scans: the methods, over those that they call.
* `Moment.Fine`: **no more than three frames have a pin, and a pointer is to the frame of its page.**
* `PoolTree.AtRest`: between two calls, **no page has a pin.**
-/

namespace GSDBEngine

open Buffer

/-! ### What a method runs on -/

/-- The pool after a call on it, or a page on its way to the log through a pointer. -/
inductive Moment where
  | pool (s : BufferPool)
  | logged (page_id : PageId) (slot : Slot) (s : BufferPool)

/-- The log over the pool, the header in memory, `root_page_`, and the record, the last moment first. -/
structure PoolTree where
  wal : WALManager
  header : DBHeader
  root_page : PageId
  history : List Moment

inductive TreeErr where
  | duplicate_key (key : Key)
  | key_not_found (key : Key)
  | not_a_child
  | file_extend
  | io (e : IoErr)
  | corrupt_tag
  /-- outside of a page, or the end of a vector that is empty -/
  | undefined
  | no_fuel

/-- A key to insert that is there, a key to remove that is not. -/
def TreeErr.isRefusal : TreeErr → Bool
  | duplicate_key _ => true
  | key_not_found _ => true
  | _ => false

abbrev TreeM := EStateM TreeErr PoolTree

/-! ### A node -/

def NodeType.toByte : NodeType → UInt8
  | .INTERNAL => 1
  | .LEAF => 2

namespace BTreeNode

variable (page : RawPage)

def is_leaf : Bool := type page == NodeType.LEAF.toByte.toNat

def init_node (type : NodeType) : Except (Fault NodeErr) RawPage :=
  RawPage.zero.write 0 (type.toByte :: (append_u16 0 ++ append_u16 PAGE_SIZE ++ append_u32 INVALID_PAGE ++ append_u32 INVALID_PAGE ++
    append_u32 INVALID_PAGE))

def set_parent_page (page_id : PageId) : Except (Fault NodeErr) RawPage := page.write 5 (append_u32 page_id)

def set_next_leaf (page_id : PageId) : Except (Fault NodeErr) RawPage := page.write 9 (append_u32 page_id)

def set_rightmost_child (page_id : PageId) : Except (Fault NodeErr) RawPage := page.write 13 (append_u32 page_id)

def find_in_leaf (key : Key) : Except (Fault NodeErr) (Option Bytes) := do pure (BTree.findInLeaf (← get_leaf_entries page) key)

def find_child_for_key (key : Key) : Except (Fault NodeErr) PageId := do
  pure (BTree.findChildForKey (← get_internal_entries page) (rightmost_child page) key)

/-- `PAGE_SIZE - free_space_ptr`, in 32 bits. -/
def used_space : ℕ := (PAGE_SIZE + 2 ^ 32 - free_space_ptr page) % 2 ^ 32

/-- `PAGE_SIZE - NODE_HEADER_SIZE - used_space`, in 32 bits. -/
def available : ℕ := (PAGE_SIZE - NODE_HEADER_SIZE + 2 ^ 32 - used_space page) % 2 ^ 32

def is_full : Bool := decide ((free_space_ptr page + 2 ^ 32 - NODE_HEADER_SIZE) % 2 ^ 32 < 64)

def is_underfull : Bool := decide (used_space page < (PAGE_SIZE - NODE_HEADER_SIZE) / 2)

end BTreeNode

namespace OnPool

open BTreeNode

variable {α : Type}

/-! ### Pool, log and frames -/

def on_wal (m : WalM α) : TreeM α := fun t =>
  match m t.wal with
  | .ok a wal => .ok a { t with wal := wal }
  | .error e wal => .error (.io e) { t with wal := wal }

/-- The tree after a call on the pool. -/
def after (t : PoolTree) (s : BufferPool) : PoolTree := { t with wal := { t.wal with pool := s }, history := .pool s :: t.history }

def on_pool (m : PoolM α) : TreeM α := fun t =>
  match m t.wal.pool with
  | .ok a s => .ok a (after t s)
  | .error e s => .error (.io e) (after t s)

def fetch_page (page_id : PageId) : TreeM Slot := on_pool (BufferPool.fetch_page page_id)

def unpin_page (page_id : PageId) (is_dirty : Bool) : TreeM Unit := on_pool (BufferPool.unpin_page page_id is_dirty)

/-- The file cannot grow onto the page id that means "no page". -/
def new_page : TreeM (PageId × Slot) := do
  let t ← get
  if t.wal.pool.disk.total_pages < INVALID_PAGE then on_pool BufferPool.new_page else throw .file_extend

/-- The bytes behind a pointer. -/
def read (slot : Slot) : TreeM RawPage := do
  let t ← get
  pure (t.wal.pool.frames slot)

def write (slot : Slot) (page : RawPage) : TreeM Unit := modify fun t =>
  { t with wal := { t.wal with pool := t.wal.pool.setFrame slot page } }

def on_node : Except (Fault NodeErr) α → TreeM α
  | .ok a => pure a
  | .error .outside => throw .undefined
  | .error (.threw .corrupt_tag) => throw .corrupt_tag

/-- What is read of the node behind a pointer. -/
def node (slot : Slot) (f : RawPage → Except (Fault NodeErr) α) : TreeM α := do
  let page ← read slot
  on_node (f page)

/-- A method that changes the node behind a pointer. -/
def edit (slot : Slot) (f : RawPage → Except (Fault NodeErr) RawPage) : TreeM Unit := do
  let page ← read slot
  let page ← on_node (f page)
  write slot page

/-- `wal_.write`; no write to the log stops short. -/
def wal_write (txn : ℕ) (page_id : PageId) (page : RawPage) : TreeM Unit := on_wal (WALManager.write none none txn page_id page)

def record (m : Moment) : TreeM Unit := modify fun t => { t with history := m :: t.history }

def write_page_through_wal (txn : ℕ) (page_id : PageId) (slot : Slot) : TreeM Unit := do
  let t ← get
  record (.logged page_id slot t.wal.pool)
  let page ← read slot
  wal_write txn page_id page

def begin : TreeM ℕ := on_wal WALManager.begin

/-- `WALManager::commit`, with the calls on the pool on record. -/
def commit (txn : ℕ) : TreeM Unit := do
  on_wal (WALManager.commitRecord none txn)
  let t ← get
  t.wal.active_pages.entries.forM fun e => do
    let bp_page ← fetch_page e.1
    write bp_page e.2
    unpin_page e.1 true
  on_wal WALManager.clearActive

/-! ### The free list -/

def read_next_pointer (page : RawPage) : PageId := field page 0 4

def header_to_page (header : DBHeader) : Except (Fault NodeErr) RawPage :=
  RawPage.zero.write 0 (header.magic ++ append_u32 header.page_size ++ append_u32 header.total_pages ++ append_u32 header.schema_root_page ++
    append_u32 header.first_free_page ++ append_u32 header.version ++ append_u32 header.reserved)

/-- The head of the list, in the header and in the log. -/
def set_first_free_page (txn : ℕ) (page_id : PageId) : TreeM Unit := do
  modify fun t => { t with header := { t.header with first_free_page := page_id } }
  let t ← get
  let header_page ← on_node (header_to_page t.header)
  wal_write txn HEADER_PAGE_ID header_page

def allocate_page (txn : ℕ) : TreeM (PageId × Slot) := do
  let t ← get
  let head := t.header.first_free_page
  if head = NO_FREE_PAGE then new_page
  else
    let free_page ← fetch_page head
    let page ← read free_page
    set_first_free_page txn (read_next_pointer page)
    pure (head, free_page)

def free_page (txn : ℕ) (page_id : PageId) : TreeM Unit := do
  let page ← fetch_page page_id
  let t ← get
  edit page fun bytes => bytes.write 0 (append_u32 t.header.first_free_page)
  let bytes ← read page
  wal_write txn page_id bytes
  set_first_free_page txn page_id
  unpin_page page_id true

/-! ### Descent and search -/

/-- The path has its last element first. -/
def find_leaf_loop (key : Key) : ℕ → PageId → List PageId → TreeM (PageId × List PageId)
  | 0, _, _ => throw .no_fuel
  | fuel + 1, current, path => do
    let page ← fetch_page current
    let bytes ← read page
    if is_leaf bytes then
      unpin_page current false
      pure (current, path)
    else
      let child ← node page fun bytes => find_child_for_key bytes key
      unpin_page current false
      find_leaf_loop key fuel child (current :: path)

def find_leaf_page_with_path (fuel : ℕ) (key : Key) : TreeM (PageId × List PageId) := do
  let t ← get
  find_leaf_loop key fuel t.root_page []

def find_leaf_page (fuel : ℕ) (key : Key) : TreeM PageId := do
  let found ← find_leaf_page_with_path fuel key
  pure found.1

def search (fuel : ℕ) (key : Key) : TreeM (Option Bytes) := do
  let leaf_page_id ← find_leaf_page fuel key
  let page ← fetch_page leaf_page_id
  let found ← node page fun bytes => find_in_leaf bytes key
  unpin_page leaf_page_id false
  pure found

/-! ### Insertion -/

def insert_into_leaf (txn : ℕ) (leaf_page_id : PageId) (key : Key) (value : Bytes) : TreeM Unit := do
  let page ← fetch_page leaf_page_id
  let entries ← node page get_leaf_entries
  edit page (set_leaf_entries (BTree.sortByKey LeafEntry.key (entries ++ [⟨key, value⟩])))
  unpin_page leaf_page_id true
  write_page_through_wal txn leaf_page_id page

/-- A child that is fetched, given its parent and logged. -/
def adopt (txn : ℕ) (parent child : PageId) : TreeM Unit := do
  let child_page ← fetch_page child
  edit child_page fun bytes => set_parent_page bytes parent
  unpin_page child true
  write_page_through_wal txn child child_page

/-- `insert_into_parent` of a page without a parent. -/
def insert_new_root (txn : ℕ) (left_page_id : PageId) (split_key : Key) (right_page_id : PageId) : TreeM Unit := do
  let (new_root_id, new_root_page) ← allocate_page txn
  edit new_root_page fun _ => init_node .INTERNAL
  edit new_root_page (set_internal_entries [⟨split_key, left_page_id⟩])
  edit new_root_page fun bytes => set_rightmost_child bytes right_page_id
  unpin_page new_root_id true
  write_page_through_wal txn new_root_id new_root_page
  adopt txn new_root_id left_page_id
  adopt txn new_root_id right_page_id
  modify fun t => { t with root_page := new_root_id }

/-- The parent to insert into: where the separator does not fit, it is split first. -/
def make_room (split_internal : PageId → TreeM Unit) (left_page_id parent_page_id : PageId) (split_key : Key) : TreeM PageId := do
  let precheck_page ← fetch_page parent_page_id
  let bytes ← read precheck_page
  unpin_page parent_page_id false
  if available bytes < BTree.internalEntrySize split_key then
    split_internal parent_page_id
    let lp ← fetch_page left_page_id
    let bytes ← read lp
    unpin_page left_page_id false
    pure (parent_page bytes)
  else pure parent_page_id

/-- The separator into a parent that has room. -/
def insert_into_node (txn : ℕ) (parent_page_id left_page_id : PageId) (split_key : Key) (right_page_id : PageId) : TreeM Unit := do
  let parent ← fetch_page parent_page_id
  let old_entries ← node parent get_internal_entries
  let entries := BTree.sortByKey InternalEntry.key (old_entries ++ [⟨split_key, left_page_id⟩])
  let idx := entries.findIdx fun e => KeyOps.eq e.key split_key
  if idx + 1 < entries.length then
    edit parent (set_internal_entries (entries.modify (idx + 1) fun e => { e with child_page_id := right_page_id }))
  else
    edit parent fun bytes => set_rightmost_child bytes right_page_id
    edit parent (set_internal_entries entries)
  unpin_page parent_page_id true
  write_page_through_wal txn parent_page_id parent
  adopt txn parent_page_id right_page_id

/-- `insert_into_parent`, over the `split_internal` that it calls. -/
def insert_into_parent (split_internal : PageId → TreeM Unit) (txn : ℕ) (left_page_id : PageId) (split_key : Key) (right_page_id : PageId) :
    TreeM Unit := do
  let left_page ← fetch_page left_page_id
  let left ← read left_page
  unpin_page left_page_id false
  if parent_page left = INVALID_PAGE then insert_new_root txn left_page_id split_key right_page_id
  else
    let parent_page_id ← make_room split_internal left_page_id (parent_page left) split_key
    insert_into_node txn parent_page_id left_page_id split_key right_page_id
    let check_page ← fetch_page parent_page_id
    let check ← read check_page
    unpin_page parent_page_id false
    if is_full check then split_internal parent_page_id

/-- The fuel is for the levels that it climbs. -/
def split_internal : ℕ → ℕ → PageId → TreeM Unit
  | 0, _, _ => throw .no_fuel
  | fuel + 1, txn, internal_page_id => do
    let left_page ← fetch_page internal_page_id
    let entries ← node left_page get_internal_entries
    let left ← read left_page
    let mid := entries.length / 2
    match entries[mid]? with
    | none => throw .undefined
    | some promoted =>
      let right_entries := entries.drop (mid + 1)
      let (right_page_id, right_page) ← allocate_page txn
      edit right_page fun _ => init_node .INTERNAL
      edit right_page (set_internal_entries right_entries)
      edit right_page fun bytes => set_rightmost_child bytes (rightmost_child left)
      edit right_page fun bytes => set_parent_page bytes (parent_page left)
      edit left_page (set_internal_entries (entries.take mid))
      edit left_page fun bytes => set_rightmost_child bytes promoted.child_page_id
      right_entries.forM fun entry => adopt txn right_page_id entry.child_page_id
      adopt txn right_page_id (rightmost_child left)
      unpin_page internal_page_id true
      unpin_page right_page_id true
      write_page_through_wal txn internal_page_id left_page
      write_page_through_wal txn right_page_id right_page
      insert_into_parent (split_internal fuel txn) txn internal_page_id promoted.key right_page_id

def split_leaf (fuel txn : ℕ) (leaf_page_id : PageId) : TreeM Unit := do
  let left_page ← fetch_page leaf_page_id
  let entries ← node left_page get_leaf_entries
  let left ← read left_page
  let mid := entries.length / 2
  let right_entries := entries.drop mid
  let (right_page_id, right_page) ← allocate_page txn
  edit right_page fun _ => init_node .LEAF
  edit right_page (set_leaf_entries right_entries)
  edit right_page fun bytes => set_next_leaf bytes (next_leaf left)
  edit right_page fun bytes => set_parent_page bytes (parent_page left)
  edit left_page (set_leaf_entries (entries.take mid))
  edit left_page fun bytes => set_next_leaf bytes right_page_id
  match right_entries.head? with
  | none => throw .undefined
  | some first =>
    unpin_page leaf_page_id true
    unpin_page right_page_id true
    write_page_through_wal txn leaf_page_id left_page
    write_page_through_wal txn right_page_id right_page
    insert_into_parent (split_internal fuel txn) txn leaf_page_id first.key right_page_id

/-- `insert` in the caller's transaction. -/
def insert_tx (fuel txn : ℕ) (key : Key) (value : Bytes) : TreeM Unit := do
  let leaf_page_id ← find_leaf_page fuel key
  let page ← fetch_page leaf_page_id
  let existing ← node page fun bytes => find_in_leaf bytes key
  if existing.isSome then
    unpin_page leaf_page_id false
    throw (.duplicate_key key)
  else
    let bytes ← read page
    unpin_page leaf_page_id false
    if available bytes < BTree.leafEntrySize key value then
      split_leaf fuel txn leaf_page_id
      let leaf_page_id ← find_leaf_page fuel key
      insert_into_leaf txn leaf_page_id key value
    else insert_into_leaf txn leaf_page_id key value

def insert (fuel : ℕ) (key : Key) (value : Bytes) : TreeM Unit := do
  let txn ← begin
  insert_tx fuel txn key value
  commit txn

/-! ### Scans -/

def find_leftmost_loop : ℕ → PageId → TreeM PageId
  | 0, _ => throw .no_fuel
  | fuel + 1, current => do
    let page ← fetch_page current
    let bytes ← read page
    if is_leaf bytes then
      unpin_page current false
      pure current
    else
      let entries ← node page get_internal_entries
      unpin_page current false
      find_leftmost_loop fuel ((entries.head?.map InternalEntry.child_page_id).getD (rightmost_child bytes))

def find_leftmost_leaf (fuel : ℕ) : TreeM PageId := do
  let t ← get
  find_leftmost_loop fuel t.root_page

/-- The walk along `next_leaf`, until a verdict ends it. -/
def scan_while (verdict : Key → Option Scan.Verdict) : ℕ → PageId → TreeM (List (LeafEntry Key))
  | 0, _ => throw .no_fuel
  | fuel + 1, current => do
    if current = INVALID_PAGE then pure []
    else
      let page ← fetch_page current
      let entries ← node page get_leaf_entries
      let bytes ← read page
      unpin_page current false
      match Scan.run (fun e => verdict e.key) entries with
      | none => throw .undefined
      | some (result, done) =>
        if done then pure result
        else
          let rest ← scan_while verdict fuel (next_leaf bytes)
          pure (result ++ rest)

def scan_all (fuel : ℕ) : TreeM (List (LeafEntry Key)) := do
  let current ← find_leftmost_leaf fuel
  scan_while (fun _ => some .push) fuel current

def range_verdict (start «end» key : Key) : Option Scan.Verdict :=
  if key.lt start then some .skip else if «end».lt key then some .stop else some .push

def range_scan (fuel : ℕ) (start «end» : Key) : TreeM (List (LeafEntry Key)) := do
  let current ← find_leaf_page fuel start
  scan_while (range_verdict start «end») fuel current

def prefix_verdict (fixed key : Key) : Option Scan.Verdict :=
  if key.lt fixed then some .skip else if key.hasPrefix fixed = false then some .stop else some .push

def prefix_scan (fuel : ℕ) (fixed : Key) : TreeM (List (LeafEntry Key)) := do
  let current ← find_leaf_page fuel fixed
  scan_while (prefix_verdict fixed) fuel current

/-- Before the prefix, behind it, or by the element behind it: `e.key[prefix.size()]`. -/
def bounded_verdict (fixed : Key) (lo : Option Value) (lo_inclusive : Bool) (hi : Option Value) (hi_inclusive : Bool) (key : Key) :
    Option Scan.Verdict :=
  if key.hasPrefix fixed = false then if (Key.lt (key.take (min fixed.length key.length)) fixed) then some .skip else some .stop
  else
    match key[fixed.length]? with
    | none => none
    | some range_val =>
      if lo.any fun lo => range_val.lt lo then some .skip
      else if !lo_inclusive && lo.any fun lo => range_val.eq lo then some .skip
      else if hi.any fun hi => hi.lt range_val then some .stop
      else if !hi_inclusive && hi.any fun hi => range_val.eq hi then some .stop
      else some .push

/-- Where `bounded_scan` starts. -/
def bounded_start (fuel : ℕ) (fixed : Key) (lo : Option Value) : TreeM PageId :=
  match lo with
  | some lo => find_leaf_page fuel (fixed ++ [lo])
  | none => if fixed = [] then find_leftmost_leaf fuel else find_leaf_page fuel fixed

def bounded_scan (fuel : ℕ) (fixed : Key) (lo : Option Value) (lo_inclusive : Bool) (hi : Option Value) (hi_inclusive : Bool) :
    TreeM (List (LeafEntry Key)) :=
  if lo.isNone && hi.isNone then prefix_scan fuel fixed
  else do
    let current ← bounded_start fuel fixed lo
    scan_while (bounded_verdict fixed lo lo_inclusive hi hi_inclusive) fuel current

/-! ### Removal -/

def remove_from_leaf (txn : ℕ) (leaf_page_id : PageId) (key : Key) : TreeM Unit := do
  let page ← fetch_page leaf_page_id
  let entries ← node page get_leaf_entries
  edit page (set_leaf_entries (entries.filter fun e => !KeyOps.eq e.key key))
  unpin_page leaf_page_id true
  write_page_through_wal txn leaf_page_id page

structure SiblingInfo where
  left_sibling : PageId := INVALID_PAGE
  right_sibling : PageId := INVALID_PAGE
  left_key : Key := []
  right_key : Key := []

/-- Of the children of a node, those beside the `idx`-th, with the keys between. -/
def beside (children : List PageId) (keys : List Key) (idx : ℕ) : SiblingInfo where
  left_sibling := if 0 < idx then children.getD (idx - 1) INVALID_PAGE else INVALID_PAGE
  left_key := if 0 < idx then keys.getD (idx - 1) [] else []
  right_sibling := children.getD (idx + 1) INVALID_PAGE
  right_key := if idx + 1 < children.length then keys.getD idx [] else []

def find_siblings (page_id parent_page_id : PageId) : TreeM SiblingInfo := do
  let parent ← fetch_page parent_page_id
  let entries ← node parent get_internal_entries
  let bytes ← read parent
  unpin_page parent_page_id false
  let children := BTree.children entries (rightmost_child bytes)
  match children.findIdx? (· == page_id) with
  | none => throw .not_a_child
  | some idx => pure (beside children (entries.map InternalEntry.key) idx)

/-- A sibling that is there and is not underfull. -/
def can_donate (sibling : PageId) : TreeM Bool :=
  if sibling = INVALID_PAGE then pure false
  else do
    let page ← fetch_page sibling
    let bytes ← read page
    unpin_page sibling false
    pure !is_underfull bytes

def replace_separator (txn : ℕ) (parent_page_id : PageId) (old new : Key) : TreeM Unit := do
  let pp ← fetch_page parent_page_id
  let p_entries ← node pp get_internal_entries
  edit pp (set_internal_entries (BTree.replaceKey old new p_entries))
  unpin_page parent_page_id true
  write_page_through_wal txn parent_page_id pp

/-- The last entry of the left leaf to the front of `page_id`. -/
def borrow_leaf_left (txn : ℕ) (page_id parent_page_id : PageId) (siblings : SiblingInfo) : TreeM Unit := do
  let lp ← fetch_page siblings.left_sibling
  let left_entries ← node lp get_leaf_entries
  match left_entries.getLast? with
  | none => throw .undefined
  | some borrowed =>
    edit lp (set_leaf_entries left_entries.dropLast)
    unpin_page siblings.left_sibling true
    write_page_through_wal txn siblings.left_sibling lp
    let cp ← fetch_page page_id
    let cur_entries ← node cp get_leaf_entries
    edit cp (set_leaf_entries (borrowed :: cur_entries))
    unpin_page page_id true
    write_page_through_wal txn page_id cp
    replace_separator txn parent_page_id siblings.left_key borrowed.key

/-- The last child of the left node to the front of `page_id`. -/
def borrow_internal_left (txn : ℕ) (page_id parent_page_id : PageId) (siblings : SiblingInfo) : TreeM Unit := do
  let lp ← fetch_page siblings.left_sibling
  let left_entries ← node lp get_internal_entries
  let left ← read lp
  let cp ← fetch_page page_id
  let cur_entries ← node cp get_internal_entries
  match left_entries.getLast? with
  | none => throw .undefined
  | some promoted =>
    edit lp fun bytes => set_rightmost_child bytes promoted.child_page_id
    edit lp (set_internal_entries left_entries.dropLast)
    edit cp (set_internal_entries (⟨siblings.left_key, rightmost_child left⟩ :: cur_entries))
    unpin_page siblings.left_sibling true
    unpin_page page_id true
    write_page_through_wal txn siblings.left_sibling lp
    write_page_through_wal txn page_id cp
    adopt txn page_id (rightmost_child left)
    replace_separator txn parent_page_id siblings.left_key promoted.key

/-- The first entry of the right leaf to the end of `page_id`. -/
def borrow_leaf_right (txn : ℕ) (page_id parent_page_id : PageId) (siblings : SiblingInfo) : TreeM Unit := do
  let rp ← fetch_page siblings.right_sibling
  let right_entries ← node rp get_leaf_entries
  match right_entries with
  | [] => throw .undefined
  | borrowed :: right_rest =>
    edit rp (set_leaf_entries right_rest)
    unpin_page siblings.right_sibling true
    write_page_through_wal txn siblings.right_sibling rp
    let cp ← fetch_page page_id
    let cur_entries ← node cp get_leaf_entries
    edit cp (set_leaf_entries (cur_entries ++ [borrowed]))
    unpin_page page_id true
    write_page_through_wal txn page_id cp
    let new_right_first := (right_rest.head?.map LeafEntry.key).getD borrowed.key
    replace_separator txn parent_page_id siblings.right_key new_right_first

/-- The first child of the right node to the end of `page_id`. -/
def borrow_internal_right (txn : ℕ) (page_id parent_page_id : PageId) (siblings : SiblingInfo) : TreeM Unit := do
  let rp ← fetch_page siblings.right_sibling
  let right_entries ← node rp get_internal_entries
  match right_entries with
  | [] => throw .undefined
  | promoted :: right_rest =>
    let cp ← fetch_page page_id
    let cur_entries ← node cp get_internal_entries
    let cur ← read cp
    edit cp fun bytes => set_rightmost_child bytes promoted.child_page_id
    edit cp (set_internal_entries (cur_entries ++ [⟨siblings.right_key, rightmost_child cur⟩]))
    edit rp (set_internal_entries right_rest)
    unpin_page siblings.right_sibling true
    unpin_page page_id true
    write_page_through_wal txn siblings.right_sibling rp
    write_page_through_wal txn page_id cp
    adopt txn page_id promoted.child_page_id
    replace_separator txn parent_page_id siblings.right_key promoted.key

def try_redistribute (txn : ℕ) (page_id parent_page_id : PageId) : TreeM Bool := do
  let siblings ← find_siblings page_id parent_page_id
  let page ← fetch_page page_id
  let bytes ← read page
  unpin_page page_id false
  let left_can_donate ← can_donate siblings.left_sibling
  if left_can_donate then
    if is_leaf bytes then borrow_leaf_left txn page_id parent_page_id siblings
    else borrow_internal_left txn page_id parent_page_id siblings
    pure true
  else
    let right_can_donate ← can_donate siblings.right_sibling
    if right_can_donate then
      if is_leaf bytes then borrow_leaf_right txn page_id parent_page_id siblings
      else borrow_internal_right txn page_id parent_page_id siblings
      pure true
    else pure false

/-- The entries of the one leaf behind those of the other. -/
def merge_leaves (into_page from_page : Slot) : TreeM Unit := do
  let into_entries ← node into_page get_leaf_entries
  let from_entries ← node from_page get_leaf_entries
  edit into_page (set_leaf_entries (into_entries ++ from_entries))
  let bytes ← read from_page
  edit into_page fun page => set_next_leaf page (next_leaf bytes)

/-- The separator and the entries of the one node behind those of the other, whose children get a new parent. -/
def merge_internals (txn : ℕ) (merge_into : PageId) (separator_key : Key) (into_page from_page : Slot) : TreeM Unit := do
  let into_entries ← node into_page get_internal_entries
  let from_entries ← node from_page get_internal_entries
  let into_bytes ← read into_page
  let from_bytes ← read from_page
  edit into_page (set_internal_entries (into_entries ++ ⟨separator_key, rightmost_child into_bytes⟩ :: from_entries))
  edit into_page fun bytes => set_rightmost_child bytes (rightmost_child from_bytes)
  from_entries.forM fun e => adopt txn merge_into e.child_page_id
  adopt txn merge_into (rightmost_child from_bytes)

/-- The parent without the separator and without `merge_from`. -/
def remove_separator (txn : ℕ) (parent_page_id merge_into merge_from : PageId) (separator_key : Key) : TreeM Unit := do
  let parent ← fetch_page parent_page_id
  let p_entries ← node parent get_internal_entries
  edit parent (set_internal_entries ((BTree.retargetChild merge_from merge_into p_entries).filter fun e => !KeyOps.eq e.key separator_key))
  let bytes ← read parent
  if rightmost_child bytes = merge_from then edit parent fun bytes => set_rightmost_child bytes merge_into
  unpin_page parent_page_id true
  write_page_through_wal txn parent_page_id parent

/-- The page that stays, the page that goes, and the key between. -/
def merge_sides (siblings : SiblingInfo) (page_id : PageId) : PageId × PageId × Key :=
  if siblings.left_sibling ≠ INVALID_PAGE then (siblings.left_sibling, page_id, siblings.left_key)
  else (page_id, siblings.right_sibling, siblings.right_key)

def merge_with_sibling (txn : ℕ) (page_id parent_page_id : PageId) : TreeM Unit := do
  let siblings ← find_siblings page_id parent_page_id
  let (merge_into, merge_from, separator_key) := merge_sides siblings page_id
  let into_page ← fetch_page merge_into
  let bytes ← read into_page
  let from_page ← fetch_page merge_from
  if is_leaf bytes then merge_leaves into_page from_page else merge_internals txn merge_into separator_key into_page from_page
  unpin_page merge_into true
  unpin_page merge_from false
  write_page_through_wal txn merge_into into_page
  remove_separator txn parent_page_id merge_into merge_from separator_key
  free_page txn merge_from

/-- `handle_underflow` at the root: one that has a single child gives way to it. -/
def collapse_root (txn : ℕ) (page_id : PageId) : TreeM Unit := do
  let page ← fetch_page page_id
  let bytes ← read page
  unpin_page page_id false
  if !is_leaf bytes && num_cells bytes == 0 && rightmost_child bytes != INVALID_PAGE then
    adopt txn INVALID_PAGE (rightmost_child bytes)
    modify fun t => { t with root_page := rightmost_child bytes }
    free_page txn page_id

/-- Up the path, whose head is its last element. -/
def handle_underflow (txn : ℕ) : List PageId → PageId → TreeM Unit
  | [], page_id => do
    let t ← get
    if page_id = t.root_page then collapse_root txn page_id
  | parent_page_id :: parent_path, page_id => do
    let t ← get
    if page_id = t.root_page then collapse_root txn page_id
    else
      let redistributed ← try_redistribute txn page_id parent_page_id
      if !redistributed then
        merge_with_sibling txn page_id parent_page_id
        let t ← get
        if parent_page_id = t.root_page then handle_underflow txn parent_path parent_page_id
        else
          let parent ← fetch_page parent_page_id
          let bytes ← read parent
          unpin_page parent_page_id false
          if is_underfull bytes then handle_underflow txn parent_path parent_page_id

/-- `remove` in the caller's transaction. -/
def remove_tx (fuel txn : ℕ) (key : Key) : TreeM Unit := do
  let (leaf_page_id, path) ← find_leaf_page_with_path fuel key
  let page ← fetch_page leaf_page_id
  let existing ← node page fun bytes => find_in_leaf bytes key
  unpin_page leaf_page_id false
  if existing.isNone then throw (.key_not_found key)
  else
    remove_from_leaf txn leaf_page_id key
    let t ← get
    if leaf_page_id ≠ t.root_page then
      let check_page ← fetch_page leaf_page_id
      let bytes ← read check_page
      unpin_page leaf_page_id false
      if is_underfull bytes then handle_underflow txn path leaf_page_id

def remove (fuel : ℕ) (key : Key) : TreeM Unit := do
  let txn ← begin
  remove_tx fuel txn key
  commit txn

end OnPool

/-! ### What is to hold -/

/-- The calls on a tree. -/
inductive TreeCall where
  | insert (key : Key) (value : Bytes)
  | insert_tx (txn : ℕ) (key : Key) (value : Bytes)
  | remove (key : Key)
  | remove_tx (txn : ℕ) (key : Key)
  | search (key : Key)
  | scan_all
  | range_scan (start «end» : Key)
  | prefix_scan (fixed : Key)
  | bounded_scan (fixed : Key) (lo : Option Value) (lo_inclusive : Bool) (hi : Option Value) (hi_inclusive : Bool)

/-- The call, up to where its loops have gone round as often as the fuel allows. -/
def TreeCall.body (fuel : ℕ) : TreeCall → TreeM Unit
  | insert key value => OnPool.insert fuel key value
  | insert_tx txn key value => OnPool.insert_tx fuel txn key value
  | remove key => OnPool.remove fuel key
  | remove_tx txn key => OnPool.remove_tx fuel txn key
  | search key => do let _ ← OnPool.search fuel key
  | scan_all => do let _ ← OnPool.scan_all fuel
  | range_scan start «end» => do let _ ← OnPool.range_scan fuel start «end»
  | prefix_scan fixed => do let _ ← OnPool.prefix_scan fuel fixed
  | bounded_scan fixed lo lo_inclusive hi hi_inclusive => do let _ ← OnPool.bounded_scan fuel fixed lo lo_inclusive hi hi_inclusive

namespace BufferPool

variable (s : BufferPool)

def pinned_frames : ℕ := (List.finRange BUFFER_POOL_SIZE).countP fun i => decide (0 < (s.frame_meta i).pin_count)

end BufferPool

/-- **Three frames at most have a pin; the pointer is to the frame that holds the page.** -/
def Moment.Fine : Moment → Prop
  | pool s => s.pinned_frames ≤ 3
  | logged page_id slot s => s.page_table.lookup page_id = some slot

namespace PoolTree

variable (t : PoolTree)

/-- Between two calls: all pin counts are zero, in a pool whose tables are in order. -/
structure AtRest : Prop where
  order : t.wal.pool.InOrder
  unpinned : ∀ i, (t.wal.pool.frame_meta i).pin_count = 0

/-- Every moment on record. -/
def Watched : Prop := ∀ m ∈ t.history, m.Fine

end PoolTree

end GSDBEngine
