import GSDBEngine.Spec.Value

/-!
# Pages and B+ tree nodes

A page is read through what it holds: the database header, a free-list record, a
B+ tree node. A node keeps its cells and the bytes of the page that are neither
header nor cells, so that two equal nodes are two equal pages.

* `KeyOps`: what the tree uses of its keys; `KeyRank`: the linear order behind it.
* `Node`: a node whose cells fit the page, in a field (`Node.fits`).
-/

namespace GSDBEngine

abbrev PageId := ℕ

def PAGE_SIZE : ℕ := 4096

def INVALID_PAGE : PageId := 0xFFFFFFFF

/-- Page 0 is always the database header. -/
def HEADER_PAGE_ID : PageId := 0

def NO_FREE_PAGE : PageId := 0xFFFFFFFF

/-- `sizeof(NodeHeader)`, packed: 1 + 2 + 2 + 4 + 4 + 4. -/
def NODE_HEADER_SIZE : ℕ := 17

/-- Room for cells on a page. -/
def CAPACITY : ℕ := PAGE_SIZE - NODE_HEADER_SIZE

/-- The comparisons and the encoding of a key type. -/
class KeyOps (K : Type) where
  lt : K → K → Bool
  eq : K → K → Bool
  encode : K → Bytes

/-- A key type whose comparisons are those of a linear order. -/
class KeyRank (K : Type) [KeyOps K] (L : outParam Type) [LinearOrder L] where
  rank : K → L
  lt_iff : ∀ a b : K, KeyOps.lt a b = true ↔ rank a < rank b
  eq_iff : ∀ a b : K, KeyOps.eq a b = true ↔ rank a = rank b

instance : KeyOps Key where
  lt := Key.lt
  eq := Key.eq
  encode := KeyCodec.encode

/-- A key without NaN. -/
abbrev SqlKey := {k : Key // k.hasNaN = false}

instance : KeyOps SqlKey where
  lt a b := Key.lt a.1 b.1
  eq a b := Key.eq a.1 b.1
  encode k := KeyCodec.encode k.1

instance : KeyRank SqlKey (List (ℕ ×ₗ ℤ ×ₗ List ℕ)) where
  rank k := k.1.rank
  lt_iff a b := Key.lt_iff a.2 b.2
  eq_iff a b := Key.eq_iff a.2 b.2

/-- Entry of a leaf node: a key and the serialized row. -/
structure LeafEntry (K : Type) where
  key : K
  value : Bytes

/-- Entry of an internal node: `key` separates `child_page_id` (smaller keys) from
the next child. -/
structure InternalEntry (K : Type) where
  key : K
  child_page_id : PageId

/-- The cells of a node, in key order. -/
inductive Cells (K : Type) where
  | leaf (entries : List (LeafEntry K))
  | internal (entries : List (InternalEntry K))

variable {K : Type} [KeyOps K]

/-- `value_size`, a `uint32_t`. -/
def LeafEntry.value_size (e : LeafEntry K) : ℕ := e.value.length % 2 ^ 32

/-- Leaf cell: key, value size, value. -/
def LeafEntry.bytes (e : LeafEntry K) : Bytes :=
  KeyOps.encode e.key ++ append_u32 e.value.length ++ e.value.take e.value_size

/-- What a written leaf cell reads back as. -/
def LeafEntry.stored (e : LeafEntry K) : LeafEntry K := { e with value := e.value.take e.value_size }

/-- Internal cell: key, child page. -/
def InternalEntry.bytes (e : InternalEntry K) : Bytes :=
  KeyOps.encode e.key ++ append_u32 e.child_page_id

def Cells.bytes : Cells K → Bytes
  | leaf es => es.flatMap LeafEntry.bytes
  | internal es => es.flatMap InternalEntry.bytes

/-- `NodeType`. -/
inductive NodeType where
  | INTERNAL
  | LEAF
  deriving DecidableEq

/-- A node: the header fields, the cells at the end of the page, and the bytes
between the two. -/
structure Node (K : Type) [KeyOps K] where
  parent_page : PageId
  next_leaf : PageId
  rightmost_child : PageId
  slack : Bytes
  cells : Cells K
  fits : cells.bytes.length ≤ CAPACITY

namespace Node

/-- `BTreeNode::init_node`. -/
def init (type : NodeType) : Node K where
  parent_page := INVALID_PAGE
  next_leaf := INVALID_PAGE
  rightmost_child := INVALID_PAGE
  slack := List.replicate CAPACITY 0
  cells := match type with
    | .LEAF => .leaf []
    | .INTERNAL => .internal []
  fits := by cases type <;> exact Nat.zero_le _

def isLeaf (n : Node K) : Bool :=
  match n.cells with
  | .leaf _ => true
  | .internal _ => false

/-- `PAGE_SIZE - free_space_ptr`: the bytes the cells take. -/
def used_space (n : Node K) : ℕ := n.cells.bytes.length

/-- `num_cells`: at most 679 cells of 6 bytes fit a page, so the 16 bits hold it. -/
def num_cells (n : Node K) : ℕ :=
  match n.cells with
  | .leaf es => es.length
  | .internal es => es.length

/-- Room for one more cell, as `insert` and `insert_into_parent` compute it. -/
def available (n : Node K) : ℕ := CAPACITY - n.used_space

def isFull (n : Node K) : Bool := decide (CAPACITY - n.used_space < 64)

def isUnderfull (n : Node K) : Bool := decide (n.used_space < CAPACITY / 2)

/-- The page with `cells` written from its end on: the bytes above them stay. -/
def withCells (n : Node K) (cells : Cells K) (h : cells.bytes.length ≤ CAPACITY) : Node K :=
  { n with
    cells := cells
    slack := (n.slack ++ n.cells.bytes).take (CAPACITY - cells.bytes.length)
    fits := h }

end Node

/-- `DBHeader`, the content of page 0. -/
structure DBHeader where
  magic : Bytes
  page_size : ℕ
  total_pages : ℕ
  schema_root_page : PageId
  first_free_page : PageId
  version : ℕ
  reserved : ℕ

/-- What a page holds. A free page is its next pointer over the bytes it held. -/
inductive Page (K : Type) [KeyOps K] where
  | zero
  | header (h : DBHeader)
  | free (next : PageId) (under : Page K)
  | node (n : Node K)

end GSDBEngine
