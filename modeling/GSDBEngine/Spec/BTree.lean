import GSDBEngine.Spec.Store

/-!
# The B+ tree

`btree.cpp` method by method: descent, search and scan; insertion with the leaf
split, the internal split and the insertion into the parent; removal with
redistribution, merging and the cascade up the path. Cells of a node are lists in
key order. A loop of the source that follows page ids takes fuel, the number of
pages, which no loop over distinct pages can use up.
-/

namespace GSDBEngine

namespace BTree

variable {K : Type} [KeyOps K]

/-! ### Sizes, order -/

/-- `leaf_entry_size`, in 32 bits. -/
def leafEntrySize (key : K) (value : Bytes) : ℕ :=
  ((KeyOps.encode key).length % 2 ^ 32 + 4 + value.length % 2 ^ 32) % 2 ^ 32

/-- `internal_entry_size`, in 32 bits. -/
def internalEntrySize (key : K) : ℕ := ((KeyOps.encode key).length % 2 ^ 32 + 4) % 2 ^ 32

/-- Before the first element that is not smaller. -/
def insertByKey {α : Type} (key : α → K) (e : α) : List α → List α
  | [] => [e]
  | x :: xs => if KeyOps.lt (key x) (key e) then x :: insertByKey key e xs else e :: x :: xs

/-- `std::sort` by key. -/
def sortByKey {α : Type} (key : α → K) (l : List α) : List α := l.foldr (insertByKey key) []

/-- `find_child_for_key` on the cells of an internal node. -/
def findChildForKey (entries : List (InternalEntry K)) (rightmost : PageId) (key : K) : PageId :=
  match entries.find? (fun e => KeyOps.lt key e.key) with
  | some e => e.child_page_id
  | none => rightmost

/-- `find_in_leaf`. -/
def findInLeaf (entries : List (LeafEntry K)) (key : K) : Option Bytes :=
  (entries.find? fun e => KeyOps.eq e.key key).map LeafEntry.value

/-! ### Descent -/

/-- The loop of `find_leaf_page_with_path`. The path is kept with its last element
first: `path.back()` is the head. -/
def findLeafLoop (key : K) : ℕ → PageId → List PageId → M K (PageId × List PageId)
  | 0, _, _ => throw .no_fuel
  | fuel + 1, current, path => do
    let node ← fetchNode current
    match node.cells with
    | .leaf _ => pure (current, path)
    | .internal entries =>
      findLeafLoop key fuel (findChildForKey entries node.rightmost_child key) (current :: path)

def findLeafPageWithPath (key : K) : M K (PageId × List PageId) := do
  let s ← get
  findLeafLoop key (s.total_pages + 1) s.root_page []

def findLeafPage (key : K) : M K PageId := do
  let (leaf_page_id, _) ← findLeafPageWithPath key
  pure leaf_page_id

def search (key : K) : M K (Option Bytes) := do
  let leaf_page_id ← findLeafPage key
  let entries ← getLeafEntries leaf_page_id
  pure (findInLeaf entries key)

/-! ### Construction -/

/-- The page written by `create_empty_root`, within its transaction. -/
def createRootPage (txn : ℕ) : M K PageId := do
  let page_id ← allocatePage txn
  initNode page_id .LEAF
  writePageThroughWal txn page_id
  pure page_id

def createEmptyRoot : M K Unit := do
  let txn ← walBegin
  let page_id ← createRootPage txn
  walCommit txn
  modify fun s => { s with root_page := page_id }

/-- The constructor: an existing root, or `INVALID_PAGE` for a new tree. -/
def construct (root_page : PageId) : M K Unit := do
  modify fun s => { s with root_page := root_page }
  if root_page = INVALID_PAGE then
    createEmptyRoot

/-! ### Insertion -/

def insertIntoLeaf (txn : ℕ) (leaf_page_id : PageId) (key : K) (value : Bytes) : M K Unit := do
  let entries ← getLeafEntries leaf_page_id
  setLeafEntries leaf_page_id (sortByKey LeafEntry.key (entries ++ [⟨key, value⟩]))
  writePageThroughWal txn leaf_page_id

/-- The new root over `left` and `right`. -/
def insertNewRoot (txn : ℕ) (left_page_id : PageId) (split_key : K) (right_page_id : PageId) : M K Unit := do
  let new_root_id ← allocatePage txn
  initNode new_root_id .INTERNAL
  setInternalEntries new_root_id [⟨split_key, left_page_id⟩]
  setRightmostChild new_root_id right_page_id
  writePageThroughWal txn new_root_id
  setParentPage left_page_id new_root_id
  writePageThroughWal txn left_page_id
  setParentPage right_page_id new_root_id
  writePageThroughWal txn right_page_id
  modify fun s => { s with root_page := new_root_id }

/-- The separator sorted into the cells of the parent, `right` the child after it. -/
def placeSeparator (parent_page_id left_page_id : PageId) (split_key : K) (right_page_id : PageId) :
    M K Unit := do
  let old_entries ← getInternalEntries parent_page_id
  let entries := sortByKey InternalEntry.key (old_entries ++ [⟨split_key, left_page_id⟩])
  let idx := entries.findIdx fun e => KeyOps.eq e.key split_key
  if idx + 1 < entries.length then
    setInternalEntries parent_page_id
      (entries.modify (idx + 1) fun e => { e with child_page_id := right_page_id })
  else do
    setRightmostChild parent_page_id right_page_id
    setInternalEntries parent_page_id entries

/-- The separator and the new child written into the parent, which has room. -/
def insertIntoNode (txn : ℕ) (parent_page_id left_page_id : PageId) (split_key : K)
    (right_page_id : PageId) : M K Unit := do
  placeSeparator parent_page_id left_page_id split_key right_page_id
  writePageThroughWal txn parent_page_id
  setParentPage right_page_id parent_page_id
  writePageThroughWal txn right_page_id

/-- The parent to insert into: split first if the separator does not fit, which may
move the left page under another parent. -/
def makeRoom (split_internal : PageId → M K Unit) (left_page_id parent_page_id : PageId) (split_key : K) :
    M K PageId := do
  let precheck ← fetchNode parent_page_id
  if precheck.available < internalEntrySize split_key then do
    split_internal parent_page_id
    let lp ← fetchNode left_page_id
    pure lp.parent_page
  else
    pure parent_page_id

/-- `insert_into_parent`, over the `split_internal` it calls. -/
def insertIntoParent (split_internal : PageId → M K Unit) (txn : ℕ) (left_page_id : PageId)
    (split_key : K) (right_page_id : PageId) : M K Unit := do
  let left ← fetchNode left_page_id
  if left.parent_page = INVALID_PAGE then
    insertNewRoot txn left_page_id split_key right_page_id
  else do
    let parent_page_id ← makeRoom split_internal left_page_id left.parent_page split_key
    insertIntoNode txn parent_page_id left_page_id split_key right_page_id
    let check ← fetchNode parent_page_id
    if check.isFull then split_internal parent_page_id

/-- The children of an internal node, left to right. -/
def children (entries : List (InternalEntry K)) (rightmost : PageId) : List PageId :=
  entries.map InternalEntry.child_page_id ++ [rightmost]

/-- The parent fields of children moved under `parent`, each fixed and logged. -/
def adoptChildren (txn : ℕ) (parent : PageId) (children : List PageId) : M K Unit :=
  children.forM fun child => do
    setParentPage child parent
    writePageThroughWal txn child

/-- `split_internal`; the fuel bounds the levels it can climb. -/
def splitInternal : ℕ → ℕ → PageId → M K Unit
  | 0, _, _ => throw .no_fuel
  | fuel + 1, txn, internal_page_id => do
    let left ← fetchNode internal_page_id
    let entries ← left.internalEntries
    let mid := entries.length / 2
    match entries[mid]? with
    | none => throw .undefined
    | some promoted =>
      let left_entries := entries.take mid
      let right_entries := entries.drop (mid + 1)
      let right_page_id ← allocatePage txn
      initNode right_page_id .INTERNAL
      setInternalEntries right_page_id right_entries
      setRightmostChild right_page_id left.rightmost_child
      setParentPage right_page_id left.parent_page
      setInternalEntries internal_page_id left_entries
      setRightmostChild internal_page_id promoted.child_page_id
      adoptChildren txn right_page_id (children right_entries left.rightmost_child)
      writePageThroughWal txn internal_page_id
      writePageThroughWal txn right_page_id
      insertIntoParent (splitInternal fuel txn) txn internal_page_id promoted.key right_page_id

/-- Fuel for `splitInternal`: a tree of `n` pages has fewer than `n` levels. -/
def splitFuel : M K ℕ := do
  let s ← get
  pure (s.total_pages + 2)

def splitLeaf (txn : ℕ) (leaf_page_id : PageId) : M K Unit := do
  let left ← fetchNode leaf_page_id
  let entries ← left.leafEntries
  let mid := entries.length / 2
  let left_entries := entries.take mid
  let right_entries := entries.drop mid
  let right_page_id ← allocatePage txn
  initNode right_page_id .LEAF
  setLeafEntries right_page_id right_entries
  setNextLeaf right_page_id left.next_leaf
  setParentPage right_page_id left.parent_page
  setLeafEntries leaf_page_id left_entries
  setNextLeaf leaf_page_id right_page_id
  match right_entries.head? with
  | none => throw .undefined
  | some first =>
    writePageThroughWal txn leaf_page_id
    writePageThroughWal txn right_page_id
    let fuel ← splitFuel
    insertIntoParent (splitInternal fuel txn) txn leaf_page_id first.key right_page_id

/-- `insert` in the caller's transaction. -/
def insertTx (txn : ℕ) (key : K) (value : Bytes) : M K Unit := do
  let leaf_page_id ← findLeafPage key
  let node ← fetchNode leaf_page_id
  let entries ← node.leafEntries
  match findInLeaf entries key with
  | some _ => throw (.duplicate_key key)
  | none =>
    if node.available < leafEntrySize key value then do
      splitLeaf txn leaf_page_id
      let leaf_page_id ← findLeafPage key
      insertIntoLeaf txn leaf_page_id key value
    else
      insertIntoLeaf txn leaf_page_id key value

/-- `insert` in a transaction of its own. -/
def insert (key : K) (value : Bytes) : M K Unit := do
  let txn ← walBegin
  insertTx txn key value
  walCommit txn

/-! ### Scans -/

def findLeftmostLeafLoop : ℕ → PageId → M K PageId
  | 0, _ => throw .no_fuel
  | fuel + 1, current => do
    let node ← fetchNode current
    match node.cells with
    | .leaf _ => pure current
    | .internal entries =>
      findLeftmostLeafLoop fuel ((entries.head?.map InternalEntry.child_page_id).getD node.rightmost_child)

def findLeftmostLeaf : M K PageId := do
  let s ← get
  findLeftmostLeafLoop (s.total_pages + 1) s.root_page

/-- The walk along `next_leaf`. -/
def scanLeaves : ℕ → PageId → M K (List (LeafEntry K))
  | 0, _ => throw .no_fuel
  | fuel + 1, current => do
    if current = INVALID_PAGE then
      pure []
    else
      let node ← fetchNode current
      let entries ← node.leafEntries
      let rest ← scanLeaves fuel node.next_leaf
      pure (entries ++ rest)

def scanAll : M K (List (LeafEntry K)) := do
  let leaf_page_id ← findLeftmostLeaf
  let s ← get
  scanLeaves (s.total_pages + 1) leaf_page_id

/-! ### Removal -/

def removeFromLeaf (txn : ℕ) (leaf_page_id : PageId) (key : K) : M K Unit := do
  let entries ← getLeafEntries leaf_page_id
  setLeafEntries leaf_page_id (entries.filter fun e => !KeyOps.eq e.key key)
  writePageThroughWal txn leaf_page_id

/-- `SiblingInfo`: a sibling and the separator between, where there is one
(`INVALID_PAGE` in the source where there is none). -/
structure SiblingInfo (K : Type) where
  left : Option (PageId × K)
  right : Option (PageId × K)

def findSiblings (page_id parent_page_id : PageId) : M K (SiblingInfo K) := do
  let parent ← fetchNode parent_page_id
  let entries ← parent.internalEntries
  let cs := children entries parent.rightmost_child
  let keys := entries.map InternalEntry.key
  match cs.findIdx? (· == page_id) with
  | none => throw .not_a_child
  | some idx =>
    pure { left := if 0 < idx then cs[idx - 1]?.bind fun c => keys[idx - 1]?.map fun k => (c, k) else none
           right := cs[idx + 1]?.bind fun c => keys[idx]?.map fun k => (c, k) }

/-- The first separator equal to `old` replaced by `new`. -/
def replaceKey (old new : K) : List (InternalEntry K) → List (InternalEntry K)
  | [] => []
  | e :: es => if KeyOps.eq e.key old then { e with key := new } :: es else e :: replaceKey old new es

def replaceSeparator (txn : ℕ) (parent_page_id : PageId) (old new : K) : M K Unit := do
  let p_entries ← getInternalEntries parent_page_id
  setInternalEntries parent_page_id (replaceKey old new p_entries)
  writePageThroughWal txn parent_page_id

/-- The last entry of the left leaf moves to the front of `page_id`. -/
def borrowLeafLeft (txn : ℕ) (page_id parent_page_id left_sibling : PageId) (left_key : K) : M K Unit := do
  let left_entries ← getLeafEntries left_sibling
  match left_entries.getLast? with
  | none => throw .undefined
  | some borrowed =>
    setLeafEntries left_sibling left_entries.dropLast
    writePageThroughWal txn left_sibling
    let cur_entries ← getLeafEntries page_id
    setLeafEntries page_id (borrowed :: cur_entries)
    writePageThroughWal txn page_id
    replaceSeparator txn parent_page_id left_key borrowed.key

/-- The last child of the left node moves to the front of `page_id`, the separators
rotating through the parent. -/
def borrowInternalLeft (txn : ℕ) (page_id parent_page_id left_sibling : PageId) (left_key : K) :
    M K Unit := do
  let left ← fetchNode left_sibling
  let left_entries ← left.internalEntries
  let cur_entries ← getInternalEntries page_id
  match left_entries.getLast? with
  | none => throw .undefined
  | some promoted =>
    setRightmostChild left_sibling promoted.child_page_id
    setInternalEntries left_sibling left_entries.dropLast
    setInternalEntries page_id (⟨left_key, left.rightmost_child⟩ :: cur_entries)
    writePageThroughWal txn left_sibling
    writePageThroughWal txn page_id
    setParentPage left.rightmost_child page_id
    writePageThroughWal txn left.rightmost_child
    replaceSeparator txn parent_page_id left_key promoted.key

/-- The first entry of the right leaf moves to the end of `page_id`. -/
def borrowLeafRight (txn : ℕ) (page_id parent_page_id right_sibling : PageId) (right_key : K) : M K Unit := do
  let right_entries ← getLeafEntries right_sibling
  match right_entries with
  | [] => throw .undefined
  | borrowed :: right_rest =>
    setLeafEntries right_sibling right_rest
    writePageThroughWal txn right_sibling
    let cur_entries ← getLeafEntries page_id
    setLeafEntries page_id (cur_entries ++ [borrowed])
    writePageThroughWal txn page_id
    let new_right_first := (right_rest.head?.map LeafEntry.key).getD borrowed.key
    replaceSeparator txn parent_page_id right_key new_right_first

/-- The first child of the right node moves to the end of `page_id`. -/
def borrowInternalRight (txn : ℕ) (page_id parent_page_id right_sibling : PageId) (right_key : K) :
    M K Unit := do
  let right_entries ← getInternalEntries right_sibling
  match right_entries with
  | [] => throw .undefined
  | promoted :: right_rest =>
    let cur ← fetchNode page_id
    let cur_entries ← cur.internalEntries
    setRightmostChild page_id promoted.child_page_id
    setInternalEntries page_id (cur_entries ++ [⟨right_key, cur.rightmost_child⟩])
    setInternalEntries right_sibling right_rest
    writePageThroughWal txn right_sibling
    writePageThroughWal txn page_id
    setParentPage promoted.child_page_id page_id
    writePageThroughWal txn promoted.child_page_id
    replaceSeparator txn parent_page_id right_key promoted.key

/-- Whether a sibling may donate: it is there and not underfull. -/
def canDonate (sibling : Option (PageId × K)) : M K Bool :=
  match sibling with
  | none => pure false
  | some (p, _) => do
    let n ← fetchNode p
    pure !n.isUnderfull

def borrowLeft (txn : ℕ) (is_leaf : Bool) (page_id parent_page_id left_sibling : PageId) (left_key : K) :
    M K Unit :=
  if is_leaf then borrowLeafLeft txn page_id parent_page_id left_sibling left_key
  else borrowInternalLeft txn page_id parent_page_id left_sibling left_key

def borrowRight (txn : ℕ) (is_leaf : Bool) (page_id parent_page_id right_sibling : PageId) (right_key : K) :
    M K Unit :=
  if is_leaf then borrowLeafRight txn page_id parent_page_id right_sibling right_key
  else borrowInternalRight txn page_id parent_page_id right_sibling right_key

def tryRedistribute (txn : ℕ) (page_id parent_page_id : PageId) : M K Bool := do
  let siblings ← findSiblings page_id parent_page_id
  let page ← fetchNode page_id
  let left_can_donate ← canDonate siblings.left
  match siblings.left, left_can_donate with
  | some (left_sibling, left_key), true =>
    borrowLeft txn page.isLeaf page_id parent_page_id left_sibling left_key
    pure true
  | _, _ =>
    let right_can_donate ← canDonate siblings.right
    match siblings.right, right_can_donate with
    | some (right_sibling, right_key), true =>
      borrowRight txn page.isLeaf page_id parent_page_id right_sibling right_key
      pure true
    | _, _ => pure false

/-- The first cell pointing at `old` retargeted to `new`. -/
def retargetChild (old new : PageId) : List (InternalEntry K) → List (InternalEntry K)
  | [] => []
  | e :: es => if e.child_page_id = old then { e with child_page_id := new } :: es else e :: retargetChild old new es

def mergeLeaves (merge_into : PageId) (into «from» : Node K) : M K Unit := do
  let into_entries ← into.leafEntries
  let from_entries ← «from».leafEntries
  setLeafEntries merge_into (into_entries ++ from_entries)
  setNextLeaf merge_into «from».next_leaf

def mergeInternals (txn : ℕ) (merge_into : PageId) (into «from» : Node K) (separator_key : K) : M K Unit := do
  let into_entries ← into.internalEntries
  let from_entries ← «from».internalEntries
  setInternalEntries merge_into (into_entries ++ ⟨separator_key, into.rightmost_child⟩ :: from_entries)
  setRightmostChild merge_into «from».rightmost_child
  adoptChildren txn merge_into (children from_entries «from».rightmost_child)

/-- The cells of `merge_from` appended to `merge_into`. -/
def mergeContents (txn : ℕ) (merge_into merge_from : PageId) (separator_key : K) : M K Unit := do
  let into ← fetchNode merge_into
  let «from» ← fetchNode merge_from
  if into.isLeaf then mergeLeaves merge_into into «from»
  else mergeInternals txn merge_into into «from» separator_key

/-- The parent's cells after the merge: `merge_from` gone, its separator dropped. -/
def removeSeparator (parent_page_id merge_into merge_from : PageId) (separator_key : K) : M K Unit := do
  let p_entries ← getInternalEntries parent_page_id
  setInternalEntries parent_page_id
    ((retargetChild merge_from merge_into p_entries).filter fun e => !KeyOps.eq e.key separator_key)
  let parent ← fetchNode parent_page_id
  if parent.rightmost_child = merge_from then
    setRightmostChild parent_page_id merge_into

/-- The page that stays, the page that goes, and the separator between them. Without
any sibling the source goes on to fetch `INVALID_PAGE`. -/
def mergeSides (siblings : SiblingInfo K) (page_id : PageId) : M K (PageId × PageId × K) :=
  match siblings.left, siblings.right with
  | some (left_sibling, left_key), _ => pure (left_sibling, page_id, left_key)
  | none, some (right_sibling, right_key) => pure (page_id, right_sibling, right_key)
  | none, none => throw (.out_of_range INVALID_PAGE)

def mergeWithSibling (txn : ℕ) (page_id parent_page_id : PageId) : M K Unit := do
  let siblings ← findSiblings page_id parent_page_id
  let (merge_into, merge_from, separator_key) ← mergeSides siblings page_id
  mergeContents txn merge_into merge_from separator_key
  writePageThroughWal txn merge_into
  removeSeparator parent_page_id merge_into merge_from separator_key
  writePageThroughWal txn parent_page_id
  freePage txn merge_from

/-- `handle_underflow` at the root: a root left with a single child gives way to it. -/
def collapseRoot (txn : ℕ) (page_id : PageId) : M K Unit := do
  let node ← fetchNode page_id
  if !node.isLeaf && node.num_cells == 0 && node.rightmost_child != INVALID_PAGE then
    let only_child := node.rightmost_child
    setParentPage only_child INVALID_PAGE
    writePageThroughWal txn only_child
    modify fun s => { s with root_page := only_child }
    freePage txn page_id

def handleUnderflow (txn : ℕ) : List PageId → PageId → M K Unit
  | [], page_id => do
    let s ← get
    if page_id = s.root_page then collapseRoot txn page_id
  | parent_page_id :: parent_path, page_id => do
    let s ← get
    if page_id = s.root_page then
      collapseRoot txn page_id
    else
      let redistributed ← tryRedistribute txn page_id parent_page_id
      if !redistributed then
        mergeWithSibling txn page_id parent_page_id
        let s ← get
        if parent_page_id = s.root_page then
          handleUnderflow txn parent_path parent_page_id
        else
          let parent ← fetchNode parent_page_id
          if parent.isUnderfull then
            handleUnderflow txn parent_path parent_page_id

/-- `remove` in the caller's transaction. -/
def removeTx (txn : ℕ) (key : K) : M K Unit := do
  let (leaf_page_id, path) ← findLeafPageWithPath key
  let entries ← getLeafEntries leaf_page_id
  match findInLeaf entries key with
  | none => throw (.key_not_found key)
  | some _ =>
    removeFromLeaf txn leaf_page_id key
    let s ← get
    if leaf_page_id ≠ s.root_page then
      let check ← fetchNode leaf_page_id
      if check.isUnderfull then
        handleUnderflow txn path leaf_page_id

/-- `remove` in a transaction of its own. -/
def remove (key : K) : M K Unit := do
  let txn ← walBegin
  removeTx txn key
  walCommit txn

end BTree

end GSDBEngine
