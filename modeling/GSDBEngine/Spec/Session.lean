import GSDBEngine.Spec.Shape
import GSDBEngine.Lib.SortedMap

/-!
# A tree as a map

Calls of `insert` and `remove`, each in its own transaction, on one tree and on the finite
map the tree stands for.

* `exec`: the calls on the store, whatever each throws.
* `mapExec`: the same calls on the map.
-/

namespace GSDBEngine

open BTree KeyRank

/-- A call of `insert` or `remove`. -/
inductive Op (K : Type) where
  | insert (key : K) (value : Bytes)
  | remove (key : K)

section store

variable {K : Type} [KeyOps K]

def Op.call : Op K → M K Unit
  | insert key value => BTree.insert key value
  | remove key => BTree.remove key

/-- The calls one after the other: what each throws, and the store they leave. -/
def exec : List (Op K) → Store K → List (Option (Err K)) × Store K
  | [], s => ([], s)
  | op :: ops, s =>
    match op.call s with
    | .ok _ s' => (none :: (exec ops s').1, (exec ops s').2)
    | .error e s' => (some e :: (exec ops s').1, (exec ops s').2)

/-- A database between transactions: page 0 is the header, and the free list is in order. -/
structure Store.Ready (s : Store K) : Prop where
  header : s.page HEADER_PAGE_ID = .header s.header
  pages : 1 ≤ s.total_pages
  bound : s.total_pages ≤ INVALID_PAGE
  free : ∃ F, FreeChain s.page s.total_pages s.header.first_free_page F ∧ F.Nodup ∧
    ∀ p, p < s.total_pages → ∀ next under, s.page p = .free next under → p ∈ F

/-- The cell of the entry takes at most a quarter of the room on a page, in a leaf and (the key alone) in an
internal node. -/
def quarterCell (key : K) (value : Bytes) : Prop := 4 * ((KeyOps.encode key).length + 4 + value.length) ≤ CAPACITY

/-- Every entry the calls insert has a cell of at most a quarter page. -/
def Quarter (ops : List (Op K)) : Prop := ∀ key value, Op.insert key value ∈ ops → quarterCell key value

/-- No call wrote more bytes than a page holds, and the file could be extended. -/
def NoOverflow (outs : List (Option (Err K))) : Prop := ∀ e, some e ∈ outs → e ≠ .overflow ∧ e ≠ .file_extend

end store

section map

variable {K L : Type} [KeyOps K] [LinearOrder L] [KeyRank K L]

/-- The finite maps a tree stands for. -/
abbrev TreeMap (K : Type) {L : Type} [KeyOps K] [LinearOrder L] [KeyRank K L] := SortedMap (rank : K → L) Bytes

/-- What a call does to the map: it throws if the key to insert is there, or the key to remove is not. -/
def Op.onMap (m : TreeMap K) : Op K → Option (Err K) × TreeMap K
  | insert key value =>
    match h : m.find? key with
    | none => (none, m.insert key value h)
    | some _ => (some (.duplicate_key key), m)
  | remove key =>
    match m.find? key with
    | none => (some (.key_not_found key), m)
    | some _ => (none, m.erase key)

def mapExec : List (Op K) → TreeMap K → List (Option (Err K)) × TreeMap K
  | [], m => ([], m)
  | op :: ops, m => ((op.onMap m).1 :: (mapExec ops (op.onMap m).2).1, (mapExec ops (op.onMap m).2).2)

end map

end GSDBEngine
