import GSDBEngine.Spec.Page

/-!
# The database file

`DiskManager` as it drives the file: pages of `PAGE_SIZE` bytes, read and written whole,
and a file that grows by one page at a time. A write reaches the file at once, and the
physical disk with the next `sync`; what is not there yet a power loss may drop.

* `DbFile`: the pages of a file, and `pwrite` on it.
* `DiskManager`: the methods.
* `DiskManager.Survives`: the files a power loss may leave.
-/

namespace GSDBEngine

/-- The bytes of a page. -/
structure RawPage where
  data : Bytes
  size : data.length = PAGE_SIZE
  deriving DecidableEq

/-- A page of zeros. -/
def RawPage.zero : RawPage := ⟨List.replicate PAGE_SIZE 0, List.length_replicate⟩

/-- The pages of a `.db` file; there are zeros past its end. -/
structure DbFile where
  pages : ℕ
  data : PageId → RawPage
  past : ∀ p, pages ≤ p → data p = RawPage.zero

namespace DbFile

variable (f : DbFile) (p : PageId) (page : RawPage)

/-- `pwrite` of a whole page: past the end it extends the file, with zeros in between. -/
def pwrite : DbFile where
  pages := max f.pages (p + 1)
  data := Function.update f.data p page
  past q hq := by
    have hqp : q ≠ p := by omega
    rw [Function.update_of_ne hqp]
    exact f.past q (by omega)

@[simp] theorem pwrite_pages : (f.pwrite p page).pages = max f.pages (p + 1) := rfl

@[simp] theorem pwrite_data : (f.pwrite p page).data = Function.update f.data p page := rfl

end DbFile

/-- What the methods of the buffer pool and of the log may throw. -/
inductive IoErr where
  | out_of_range (page_id : PageId)
  | all_pinned
  | short_write
  | undefined
  deriving DecidableEq

/-- `DiskManager`: the file as the operating system shows it, the page count (a `uint32_t`), and what of the
file is on the physical disk: the file at the last `sync` and the writes since. -/
structure DiskManager where
  file : DbFile
  total_pages : ℕ
  synced : DbFile
  unsynced : List (PageId × RawPage)
  bound : total_pages < 2 ^ 32
  covered : total_pages ≤ file.pages

namespace DiskManager

/-- The constructor, on a file that is there. -/
def «open» (f : DbFile) : DiskManager where
  file := f
  total_pages := f.pages % 2 ^ 32
  synced := f
  unsynced := []
  bound := Nat.mod_lt _ (by decide)
  covered := Nat.mod_le _ _

variable (d : DiskManager)

def read_page (page_id : PageId) : Except IoErr RawPage :=
  if page_id ≥ d.total_pages then .error (.out_of_range page_id) else .ok (d.file.data page_id)

/-- The file after a `pwrite`. -/
def pwrite (page_id : PageId) (page : RawPage) : DiskManager where
  file := d.file.pwrite page_id page
  total_pages := d.total_pages
  synced := d.synced
  unsynced := d.unsynced ++ [(page_id, page)]
  bound := d.bound
  covered := le_trans d.covered (le_max_left ..)

def write_page (page_id : PageId) (page : RawPage) : Except IoErr DiskManager :=
  if page_id ≥ d.total_pages then .error (.out_of_range page_id) else .ok (d.pwrite page_id page)

/-- The page past the last one, with zeros; the count wraps at 2^32. -/
def allocate_page : PageId × DiskManager :=
  (d.total_pages,
    { d.pwrite d.total_pages RawPage.zero with
      total_pages := (d.total_pages + 1) % 2 ^ 32
      bound := Nat.mod_lt _ (by decide)
      covered := le_trans (Nat.mod_le _ _) (le_max_right ..) })

def sync : DiskManager := { d with synced := d.file, unsynced := [] }

/-- The files a power loss may leave: of the writes since the last `sync`, any may be lost. -/
def Survives (f : DbFile) : Prop :=
  ∃ ws : List (PageId × RawPage), ws.Sublist d.unsynced ∧ f = ws.foldl (fun f w => f.pwrite w.1 w.2) d.synced

end DiskManager

end GSDBEngine
