import GSDBEngine.Spec.System
import Mathlib.Logic.Relation

/-!
# Trees and the free list, seen from the pages

What a store holds, read off its pages alone: which node lists which as a child, what is
reachable from a root, the list of free pages, and the pages that belong to neither.

* `Reachable`, `AtDepth`: the pages of a tree.
* `FreeChain`: the free list threaded through the pages.
* `Partition`: every page is fixed, free, or in one tree.
-/

namespace GSDBEngine

open BTree

variable {K : Type} [KeyOps K]

/-- The node on each page that holds one. -/
abbrev View (K : Type) [KeyOps K] := PageId → Option (Node K)

/-- The pages that exist and hold a node. -/
def Store.view (s : Store K) : View K := fun p =>
  if p < s.total_pages then
    match s.page p with
    | .node n => some n
    | _ => none
  else none

/-- Pages that exist and are neither nodes nor free: the header page, and what else was there before the trees. -/
def Store.fixed (s : Store K) (p : PageId) : Prop :=
  p < s.total_pages ∧ (∀ n, s.page p ≠ .node n) ∧ ∀ next under, s.page p ≠ .free next under

/-- The free list threaded from `head` through the pages. -/
def FreeChain (page : PageId → Page K) (total_pages : ℕ) : PageId → List PageId → Prop
  | head, [] => head = NO_FREE_PAGE
  | head, p :: ps => head = p ∧ p < total_pages ∧ p ≠ NO_FREE_PAGE ∧
      ∃ next under, page p = .free next under ∧ FreeChain page total_pages next ps

/-! ### The pages of a tree -/

/-- `c` is listed as a child in the node on page `p`. -/
def Child (v : View K) (p c : PageId) : Prop :=
  ∃ n es, v p = some n ∧ n.cells = .internal es ∧ c ∈ children es n.rightmost_child

/-- The pages of the tree under `root`. -/
def Reachable (v : View K) (root p : PageId) : Prop := Relation.ReflTransGen (Child v) root p

/-- `p` is `d` children down from `root`. -/
inductive AtDepth (v : View K) (root : PageId) : ℕ → PageId → Prop
  | root : AtDepth v root 0 root
  | child {d : ℕ} {p c : PageId} : AtDepth v root d p → Child v p c → AtDepth v root (d + 1) c

/-- The page holds a leaf. -/
def IsLeaf (v : View K) (p : PageId) : Prop := ∃ n es, v p = some n ∧ n.cells = .leaf es

/-! ### Pages and their owners -/

namespace System

variable (σ : System K)

/-- `p` is in tree `i`, which has been constructed. -/
def InTree (i : ℕ) (p : PageId) : Prop := σ.roots i ≠ INVALID_PAGE ∧ Reachable σ.store.view (σ.roots i) p

/-- **Every page is fixed, free or in one tree.** The free list ends, and no page is twice on it. -/
structure Partition (fixed : PageId → Prop) (F : List PageId) : Prop where
  chain : FreeChain σ.store.page σ.store.total_pages σ.store.header.first_free_page F
  nodup : F.Nodup
  cover : ∀ p, p < σ.store.total_pages ↔ fixed p ∨ p ∈ F ∨ ∃ i, σ.InTree i p
  fixed_free : ∀ p, fixed p → p ∉ F
  fixed_tree : ∀ p i, fixed p → ¬ σ.InTree i p
  free_tree : ∀ p i, p ∈ F → ¬ σ.InTree i p
  one_tree : ∀ p i j, σ.InTree i p → σ.InTree j p → i = j

/-- Before the first tree: the pages there are fixed or free. -/
structure Bare : Prop where
  roots : ∀ i, σ.roots i = INVALID_PAGE
  nodes : ∀ p, σ.store.view p = none
  free : ∃ F, FreeChain σ.store.page σ.store.total_pages σ.store.header.first_free_page F ∧ F.Nodup ∧
    ∀ p, p < σ.store.total_pages → ∀ next under, σ.store.page p = .free next under → p ∈ F
  pages : σ.store.total_pages ≤ INVALID_PAGE

end System

/-! ### Runs under a condition -/

/-- A run each step of which meets the condition `ok` in the state before it. -/
inductive System.RunWhere (ok : System.Event K → System K → Prop) : System K → System K → Prop
  | refl {σ : System K} : RunWhere ok σ σ
  | step {σ σ' σ'' : System K} {ev : System.Event K} : RunWhere ok σ σ' → ok ev σ' → System.Step ev σ' σ'' →
      RunWhere ok σ σ''

/-- The tree a call is made on is there, and is not there yet when it is constructed. -/
def Call.wellUsed (roots : ℕ → PageId) : Call K → Prop
  | .construct i => roots i = INVALID_PAGE
  | .insert i _ _ => roots i ≠ INVALID_PAGE
  | .remove i _ => roots i ≠ INVALID_PAGE

/-- Calls are made on trees that are there, and a tree object is opened on the root its tree has. -/
def System.Event.wellUsed : System.Event K → System K → Prop
  | .openTree i root, σ => root = σ.roots i
  | .call c, σ => c.wellUsed σ.roots
  | .own c, σ => c.wellUsed σ.roots
  | _, _ => True

/-! ### What may break a tree -/

/-- `p` and `q` are next to each other under a node. -/
def Beside (v : View K) (p q : PageId) : Prop :=
  ∃ t n es, v t = some n ∧ n.cells = .internal es ∧
    ([p, q] <:+: children es n.rightmost_child ∨ [q, p] <:+: children es n.rightmost_child)

/-- A leaf beside `p` that may donate has two entries. -/
def Donors (v : View K) (p : PageId) : Prop :=
  ∀ q n es, q ≠ p → Beside v p q → v q = some n → n.cells = .leaf es → n.isUnderfull = false → 2 ≤ es.length

/-- The call does not take the only entry of a leaf away from it: no sibling that may donate to the leaf of a key to
remove has a single entry, and no leaf is split behind its single entry (the split then leaves too little
room, and the call overflows the page). -/
def Call.sparing (s : Store K) : Call K → Prop
  | .construct _ => True
  | .insert _ key value => ∀ p n es, findLeafPage key s = .ok p s → s.view p = some n → n.cells = .leaf es →
      findInLeaf es key = none → n.available < leafEntrySize key value →
      2 ≤ es.length ∨ ∀ e ∈ es, KeyOps.lt key e.key = true
  | .remove _ key => ∀ p, findLeafPage key s = .ok p s → Donors s.view p

def System.Event.sparing : System.Event K → System K → Prop
  | .call c, σ => c.sparing (σ.enter c.tree)
  | .own c, σ => c.sparing (σ.enter c.tree)
  | _, _ => True

end GSDBEngine
