import GSDBEngine.Spec.BTree

/-!
# Trees sharing a store

Any number of trees over one buffer pool, one WAL and one free list. A call runs
in a transaction that is open: the one the method opened for itself, or one its
caller shares between calls. The WAL has room for a single open transaction, so
transactions follow one another; a checkpoint stands between two of them.

* `System.Step`: one call, or one begin, commit or checkpoint.
* `System.FreshRun`: a run no `begin` of which reuses an id the log still carries.
-/

namespace GSDBEngine

variable {K : Type} [KeyOps K]

/-- A `BTree` method that writes, and the tree it is called on. -/
inductive Call (K : Type) where
  | construct (tree : ℕ)
  | insert (tree : ℕ) (key : K) (value : Bytes)
  | remove (tree : ℕ) (key : K)

def Call.tree : Call K → ℕ
  | construct i => i
  | insert i _ _ => i
  | remove i _ => i

/-- What the call does between `begin` and `commit`. -/
def Call.body (txn : ℕ) : Call K → M K Unit
  | construct _ => do
    let page_id ← BTree.createRootPage txn
    modify fun s => { s with root_page := page_id }
  | insert _ key value => BTree.insertTx txn key value
  | remove _ key => BTree.removeTx txn key

/-- A call refused before anything was changed: a key to insert that is there, a key
to remove that is not. -/
def Err.isRefusal : Err K → Bool
  | duplicate_key _ => true
  | key_not_found _ => true
  | _ => false

/-- The store, the roots of the trees, the open transaction. `base` is the `.db` file
as the last checkpoint left it; `last_commit` is the frames at the last commit. -/
structure System (K : Type) [KeyOps K] where
  store : Store K
  roots : ℕ → PageId
  running : Option ℕ
  base : PageId → Page K
  last_commit : PageId → Page K

namespace System

/-- The store with the root of tree `i`, as the methods of that tree see it. -/
def enter (σ : System K) (i : ℕ) : Store K := { σ.store with root_page := σ.roots i }

/-- The system after a call on tree `i` left the store `s`. -/
def leave (σ : System K) (i : ℕ) (s : Store K) : System K :=
  { σ with store := s, roots := Function.update σ.roots i s.root_page }

/-- A store just opened: nothing in the log, and page 0 holds the header. -/
structure Opened (σ : System K) : Prop where
  log : σ.store.wal.log = []
  active : σ.store.wal.active_pages = fun _ => none
  base : σ.base = σ.store.page
  last_commit : σ.last_commit = σ.store.page
  header : σ.store.page HEADER_PAGE_ID = .header σ.store.header
  pages : 1 ≤ σ.store.total_pages
  running : σ.running = none

/-- The steps, named. `own` is a call refused in a transaction it began itself, which
is never closed. -/
inductive Event (K : Type) where
  | openTree (tree : ℕ) (root : PageId)
  | begin
  | call (c : Call K)
  | own (c : Call K)
  | commit
  | checkpoint

/-- Whether the step calls `begin`. -/
def Event.begins : Event K → Bool
  | begin => true
  | own _ => true
  | _ => false

/-- One step of the system. -/
inductive Step : Event K → System K → System K → Prop
  | openTree {σ : System K} (i : ℕ) (root : PageId) :
      Step (.openTree i root) σ { σ with roots := Function.update σ.roots i root }
  | begin {σ : System K} {t : ℕ} {s : Store K} : σ.running = none → walBegin σ.store = .ok t s →
      Step .begin σ { σ with store := s, running := some t }
  | returned {σ : System K} {c : Call K} {t : ℕ} {s : Store K} : σ.running = some t →
      c.body t (σ.enter c.tree) = .ok () s → Step (.call c) σ (σ.leave c.tree s)
  | refused {σ : System K} {c : Call K} {t : ℕ} {e : Err K} {s : Store K} : σ.running = some t →
      c.body t (σ.enter c.tree) = .error e s → e.isRefusal = true → Step (.call c) σ (σ.leave c.tree s)
  | own {σ : System K} {c : Call K} {t : ℕ} {e : Err K} {s₁ s : Store K} : σ.running = none →
      walBegin (σ.enter c.tree) = .ok t s₁ → c.body t s₁ = .error e s → e.isRefusal = true →
      Step (.own c) σ (σ.leave c.tree s)
  | commit {σ : System K} {t : ℕ} {s : Store K} : σ.running = some t →
      walCommit t σ.store = .ok () s →
      Step .commit σ { σ with store := s, running := none, last_commit := s.page }
  /-- `WALManager::checkpoint`: every dirty frame to `.db`, the log emptied. -/
  | checkpoint {σ : System K} : σ.running = none →
      Step .checkpoint σ { σ with store := { σ.store with wal := { σ.store.wal with log := [] } },
                                  base := σ.store.page }

/-- The id the next `begin` hands out is carried by no record of the log. -/
def FreshId (σ : System K) : Prop := ∀ r ∈ σ.store.wal.log, r.txn ≠ σ.store.wal.next_transaction_id

/-- Any run. -/
inductive Run : System K → System K → Prop
  | refl {σ : System K} : Run σ σ
  | step {σ σ' σ'' : System K} {ev : Event K} : Run σ σ' → Step ev σ' σ'' → Run σ σ''

/-- A run each `begin` of which hands out a fresh id. -/
inductive FreshRun : System K → System K → Prop
  | refl {σ : System K} : FreshRun σ σ
  | step {σ σ' σ'' : System K} {ev : Event K} : FreshRun σ σ' → (ev.begins = true → σ'.FreshId) →
      Step ev σ' σ'' → FreshRun σ σ''

end System

end GSDBEngine
