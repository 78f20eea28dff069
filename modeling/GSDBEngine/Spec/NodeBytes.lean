import GSDBEngine.Lib.Buffer
import GSDBEngine.Spec.Disk

/-!
# The bytes of a node

`key.cpp` and `btree_node.cpp`: a node is an interpretation of the bytes of a page. Its cells are written back to back from the end
of the page on, the last one first, and read forward from `free_space_ptr` on.

* `KeyCodec.decode`: a key, from a pointer that moves.
* `BTreeNode.set_leaf_entries`, `BTreeNode.get_leaf_entries`, and those of internal nodes: a pointer that leaves the page is a fault.
* `BTreeNode.RoundTrip`: **what is to be read after a write**.
-/

namespace GSDBEngine

open Buffer

inductive NodeErr where
  /-- KeyCodec::decode: corrupt type tag -/
  | corrupt_tag
  deriving DecidableEq

/-! ### Keys -/

namespace KeyCodec

/-- `ptr`, in the bytes of a page. -/
abbrev DecodeM := BufferM UInt8 NodeErr

def read_u16 : DecodeM ℕ := do pure (little_endian (← copy 2))

def read_u32 : DecodeM UInt32 := do pure (UInt32.ofNat (little_endian (← copy 4)))

/-- By the tag. -/
def decode_element : DecodeM Value := do
  let tag ← copy 1
  match little_endian tag with
  | 0 => pure .null
  | 1 => do pure (.int (← read_u32).toInt32)
  | 2 => do pure (.float ⟨← read_u32⟩)
  | 3 => do pure (.boolean (little_endian (← copy 1) != 0))
  | 4 => do
    let len ← read_u32
    pure (.varchar (← copy len.toNat))
  | _ => fail .corrupt_tag

def decode : DecodeM Key := do
  let num_elements ← read_u16
  times decode_element num_elements

end KeyCodec

/-- `memcpy` into a page. -/
def RawPage.write (page : RawPage) (pos : ℕ) (bytes : Bytes) : Except (Fault NodeErr) RawPage :=
  if h : pos + bytes.length ≤ PAGE_SIZE then
    .ok ⟨store page.data pos bytes, (length_store (h.trans_eq page.size.symm)).trans page.size⟩
  else .error .outside

namespace BTreeNode

/-! ### The header -/

/-- A field of the packed header. -/
def field (page : RawPage) (offset width : ℕ) : ℕ := little_endian (window page.data offset width)

def type (page : RawPage) : ℕ := field page 0 1

def num_cells (page : RawPage) : ℕ := field page 1 2

def free_space_ptr (page : RawPage) : ℕ := field page 3 2

def parent_page (page : RawPage) : ℕ := field page 5 4

def next_leaf (page : RawPage) : ℕ := field page 9 4

def rightmost_child (page : RawPage) : ℕ := field page 13 4

/-! ### The cells -/

variable {α : Type}

/-- `memcpy(p, part); p += part.size()`, for the parts of a cell. -/
def write_parts : List Bytes → ℕ → RawPage → Except (Fault NodeErr) RawPage
  | [], _, page => pure page
  | part :: parts, p, page => do
    let page ← page.write p part
    write_parts parts (p + part.length) page

/-- The loop over the entries, from the last one on, with `write_ptr`. -/
def write_cells (parts : α → List Bytes) : List α → ℕ → RawPage → Except (Fault NodeErr) (ℕ × RawPage)
  | [], write_ptr, page => pure (write_ptr, page)
  | entry :: entries, write_ptr, page =>
    let entry_size := (parts entry).flatten.length
    if write_ptr < entry_size then throw .outside
    else do
      let page ← write_parts (parts entry) (write_ptr - entry_size) page
      write_cells parts entries (write_ptr - entry_size) page

/-- The cells, `num_cells` and `free_space_ptr`. -/
def set_entries (parts : α → List Bytes) (entries : List α) (page : RawPage) : Except (Fault NodeErr) RawPage := do
  let written ← write_cells parts entries.reverse PAGE_SIZE page
  let page ← written.2.write 1 (append_u16 entries.length)
  page.write 3 (append_u16 written.1)

/-- `while (ptr < end)`; there are fewer cells than bytes. -/
def get_entries (cell : KeyCodec.DecodeM α) (page : RawPage) : Except (Fault NodeErr) (List α) := do
  let read ← until_end cell PAGE_SIZE page.data (free_space_ptr page)
  pure read.1

/-- Key, value size, value. -/
def leaf_parts (entry : LeafEntry Key) : List Bytes :=
  [KeyCodec.encode entry.key, append_u32 entry.value_size, entry.value.take entry.value_size]

def set_leaf_entries : List (LeafEntry Key) → RawPage → Except (Fault NodeErr) RawPage := set_entries leaf_parts

def get_leaf_entries : RawPage → Except (Fault NodeErr) (List (LeafEntry Key)) :=
  get_entries do
    let key ← KeyCodec.decode
    let value_size ← KeyCodec.read_u32
    let value ← copy value_size.toNat
    pure ⟨key, value⟩

/-- Key, child page. -/
def internal_parts (entry : InternalEntry Key) : List Bytes := [KeyCodec.encode entry.key, append_u32 entry.child_page_id]

def set_internal_entries : List (InternalEntry Key) → RawPage → Except (Fault NodeErr) RawPage := set_entries internal_parts

def get_internal_entries : RawPage → Except (Fault NodeErr) (List (InternalEntry Key)) :=
  get_entries do
    let key ← KeyCodec.decode
    let child_page_id ← KeyCodec.read_u32
    pure ⟨key, child_page_id.toNat⟩

/-! ### What is to hold -/

/-- The bytes of the cells of a leaf: each a key, four bytes for the size, and the value. -/
def leaf_size (entries : List (LeafEntry Key)) : ℕ := (entries.map fun e => (KeyCodec.encode e.key).length + 4 + e.value.length).sum

def internal_size (entries : List (InternalEntry Key)) : ℕ := (entries.map fun e => (KeyCodec.encode e.key).length + 4).sum

/-- **The entries are read as they were written**, `num_cells` and `free_space_ptr` are those of their cells, and the other fields of the header
are as they were. -/
def RoundTrip (set : List α → RawPage → Except (Fault NodeErr) RawPage) (get : RawPage → Except (Fault NodeErr) (List α)) (entries : List α)
    (size : ℕ) (page : RawPage) : Prop :=
  ∃ page', set entries page = .ok page' ∧ get page' = .ok entries ∧ num_cells page' = entries.length ∧ free_space_ptr page' + size = PAGE_SIZE ∧
    type page' = type page ∧ parent_page page' = parent_page page ∧ next_leaf page' = next_leaf page ∧
      rightmost_child page' = rightmost_child page

end BTreeNode

end GSDBEngine
