import GSDBEngine.Spec.Value
import GSDBEngine.Lib.Run
import Mathlib.Logic.Function.Basic

/-!
# The storage stack of a database session

`database.cpp`: the seven objects that `USE` builds on one another, the pointers that own
them, and the name of the current database. An object refers to others by reference; the
heap says which of them are still alive.

* `open_database`, `close_database` and the statements that call them.
* `Sys`: what the operating system answers during a call, and where opening throws.
* `Database.Consistent`: **no database is selected and every pointer is null, or every component
  is one of the selected database.**
-/

namespace GSDBEngine

/-- `data_dir_ / name`, the directory of a database. -/
structure DbDir where
  data_dir : Bytes
  name : Bytes
  deriving DecidableEq

abbrev ObjectId := ℕ

/-- The objects of the stack, with the file each opens and the objects each refers to. -/
inductive Object where
  | disk_manager (db_file : DbDir)
  | buffer_pool (disk : ObjectId)
  | wal_manager (wal_file : DbDir) (buffer_pool : ObjectId)
  | header_manager (buffer_pool wal : ObjectId)
  | free_list_manager (buffer_pool wal header : ObjectId)
  | catalog_manager (buffer_pool wal : ObjectId)
  | executor (catalog buffer_pool wal free_list : ObjectId)

/-- The owning pointers, in the order of their declaration. -/
inductive Member where
  | disk_manager
  | header_manager
  | buffer_pool
  | wal_manager
  | free_list_manager
  | catalog_manager
  | executor
  deriving DecidableEq

structure Database where
  data_dir : Bytes
  /-- empty: no database is selected -/
  current_db_name : Bytes
  ptr : Member → Option ObjectId
  /-- the objects that are alive -/
  heap : ObjectId → Option Object
  next : ObjectId
  /-- the `BufferPool`s whose destructor ran after that of their `DiskManager` -/
  late : List ObjectId

/-- Where `open_database` and the set-up of `CREATE DATABASE` may throw. -/
inductive OpenStep where
  | disk_open
  | wal_open
  | recover
  /-- `init` where the database is new -/
  | header_load
  | catalog_load
  deriving DecidableEq

/-- What the operating system answers during a call. -/
structure Sys where
  /-- `exists(db_dir(name))` -/
  dir_exists : Bool
  create_directories : Bool
  remove_all : Bool
  /-- `flush_all` does not throw -/
  flush : Bool
  open_fails : Option OpenStep
  /-- `default_data_dir()`, none without `$HOME` -/
  home : Option Bytes
  /-- the config file can be written -/
  persist : Bool

inductive DbErr where
  | open_failed (step : OpenStep)
  | flush_failed
  | create_directories_failed
  | no_home
  | persist_failed

/-- What a statement reports. -/
inductive DbResult where
  | success
  | already_exists (name : Bytes)
  | does_not_exist (name : Bytes)
  | create_failed
  | drop_failed
  | use_failed
  | no_database_selected
  deriving DecidableEq

abbrev DbM := EStateM DbErr Database

namespace Database

/-- Without a database. -/
def new (data_dir : Bytes) : Database where
  data_dir := data_dir
  current_db_name := []
  ptr _ := none
  heap _ := none
  next := 0
  late := []

def db_dir (s : Database) (name : Bytes) : DbDir := ⟨s.data_dir, name⟩

/-! ### Objects -/

/-- `make_unique`. -/
def make (o : Object) : DbM ObjectId := do
  let s ← get
  set { s with heap := Function.update s.heap s.next (some o), next := s.next + 1 }
  pure s.next

/-- Whether a destructor flushes through an object that is gone. -/
def isLate (s : Database) (i : ObjectId) : Bool :=
  match s.heap i with
  | some (.buffer_pool disk) => (s.heap disk).isNone
  | _ => false

/-- The destructor; that of a `BufferPool` calls `flush_all`. -/
def destroy (i : ObjectId) : DbM Unit := modify fun s =>
  { s with heap := Function.update s.heap i none, late := if s.isLate i then i :: s.late else s.late }

def destroyAt : Option ObjectId → DbM Unit
  | none => pure ()
  | some i => destroy i

/-- `reset()`. -/
def reset (m : Member) : DbM Unit := do
  let s ← get
  set { s with ptr := Function.update s.ptr m none }
  destroyAt (s.ptr m)

/-- `p = make_unique(...)`: the old object goes after the new one is there. -/
def assign (m : Member) (o : Object) : DbM ObjectId := do
  let i ← make o
  let s ← get
  set { s with ptr := Function.update s.ptr m (some i) }
  destroyAt (s.ptr m)
  pure i

/-- A local object, destroyed at the end of its block and when an exception leaves it. -/
def withLocal (o : Object) (block : ObjectId → DbM Unit) : DbM Unit := do
  let i ← make o
  try block i catch e => do
    destroy i
    throw e
  destroy i

def mayThrow (sys : Sys) (step : OpenStep) : DbM Unit :=
  if sys.open_fails = some step then throw (.open_failed step) else pure ()

/-! ### The stack -/

def open_database (sys : Sys) (name : Bytes) : DbM Unit := do
  let s ← get
  let dir := s.db_dir name
  mayThrow sys .disk_open
  let disk ← assign .disk_manager (.disk_manager dir)
  let pool ← assign .buffer_pool (.buffer_pool disk)
  mayThrow sys .wal_open
  let wal ← assign .wal_manager (.wal_manager dir pool)
  mayThrow sys .recover
  let header ← assign .header_manager (.header_manager pool wal)
  mayThrow sys .header_load
  let free_list ← assign .free_list_manager (.free_list_manager pool wal header)
  let catalog ← assign .catalog_manager (.catalog_manager pool wal)
  mayThrow sys .catalog_load
  let _ ← assign .executor (.executor catalog pool wal free_list)
  modify fun s => { s with current_db_name := name }

/-- Every pointer, in reverse order of dependency. -/
def resetAll : DbM Unit := do
  reset .executor
  reset .catalog_manager
  reset .free_list_manager
  reset .wal_manager
  reset .header_manager
  reset .buffer_pool
  reset .disk_manager

/-- Decides by the name alone whether there is anything to close. -/
def close_database (sys : Sys) : DbM Unit := do
  let s ← get
  if s.current_db_name = [] then pure ()
  else do
    if (s.ptr .buffer_pool).isSome ∧ sys.flush = false then throw .flush_failed
    resetAll
    modify fun s => { s with current_db_name := [] }

/-- The members are destroyed in reverse order of declaration, once the body has returned. -/
def destruct (sys : Sys) : DbM Unit := do
  close_database sys
  reset .executor
  reset .catalog_manager
  reset .free_list_manager
  reset .wal_manager
  reset .buffer_pool
  reset .header_manager
  reset .disk_manager

/-! ### Statements -/

/-- The stack that `CREATE DATABASE` sets the files up with. -/
def bootstrap (sys : Sys) (dir : DbDir) : DbM Unit := do
  if sys.create_directories = false then throw .create_directories_failed
  mayThrow sys .disk_open
  withLocal (.disk_manager dir) fun disk =>
    withLocal (.buffer_pool disk) fun pool => do
      mayThrow sys .wal_open
      withLocal (.wal_manager dir pool) fun wal =>
        withLocal (.header_manager pool wal) fun _ => do
          mayThrow sys .header_load
          withLocal (.catalog_manager pool wal) fun _ => do
            mayThrow sys .catalog_load
            if sys.flush = false then throw .flush_failed

def handle_create_database (sys : Sys) (name : Bytes) : DbM DbResult := do
  let s ← get
  if sys.dir_exists then pure (.already_exists name)
  else
    try
      bootstrap sys (s.db_dir name)
      pure .success
    catch _ => pure .create_failed

def handle_drop_database (sys : Sys) (name : Bytes) : DbM DbResult := do
  let s ← get
  if sys.dir_exists = false then pure (.does_not_exist name)
  else do
    if s.current_db_name = name then close_database sys
    if sys.remove_all then pure .success else pure .drop_failed

def handle_use (sys : Sys) (name : Bytes) : DbM DbResult := do
  let s ← get
  if name = s.current_db_name then pure .success
  else if sys.dir_exists = false then pure (.does_not_exist name)
  else do
    close_database sys
    try
      open_database sys name
      pure .success
    catch _ => do
      close_database sys
      pure .use_failed

def set_data_dir (sys : Sys) (new_dir : Bytes) : DbM Unit := do
  close_database sys
  if sys.create_directories = false then throw .create_directories_failed
  modify fun s => { s with data_dir := new_dir }
  if sys.persist = false then throw .persist_failed

def reset_data_dir (sys : Sys) : DbM Unit := do
  close_database sys
  match sys.home with
  | none => throw .no_home
  | some dir =>
    modify fun s => { s with data_dir := dir }
    if sys.create_directories = false then throw .create_directories_failed

/-- Any other statement: it goes to the `Executor`, which has no access to the pointers. -/
def execute_statement : DbM DbResult := do
  let s ← get
  if (s.ptr .executor).isNone then pure .no_database_selected else pure .success

end Database

/-! ### Runs -/

inductive DbCall where
  | create_database (name : Bytes)
  | use (name : Bytes)
  | drop_database (name : Bytes)
  | set_data_dir (new_dir : Bytes)
  | reset_data_dir
  | statement

open Database in
def DbCall.body (sys : Sys) : DbCall → DbM Unit
  | create_database name => do
    let _ ← handle_create_database sys name
  | use name => do
    let _ ← handle_use sys name
  | drop_database name => do
    let _ ← handle_drop_database sys name
  | set_data_dir new_dir => Database.set_data_dir sys new_dir
  | reset_data_dir => Database.reset_data_dir sys
  | statement => do
    let _ ← execute_statement

namespace Database

/-- What a computation leaves, whichever way it ends. -/
def after (m : DbM Unit) (s : Database) : Database :=
  match m s with
  | .ok _ s' => s'
  | .error _ s' => s'

/-- One call, and what the operating system answers during it. -/
inductive Step : DbCall × Sys → Database → Database → Prop
  | call (c : DbCall) (sys : Sys) (s : Database) : Step (c, sys) s (after (c.body sys) s)

/-- Every component is there, was made for the files of `dir`, and refers to the others. -/
def Stack (s : Database) (dir : DbDir) : Prop :=
  ∃ disk header pool wal free_list catalog executor,
    s.ptr .disk_manager = some disk ∧ s.heap disk = some (.disk_manager dir) ∧
    s.ptr .buffer_pool = some pool ∧ s.heap pool = some (.buffer_pool disk) ∧
    s.ptr .wal_manager = some wal ∧ s.heap wal = some (.wal_manager dir pool) ∧
    s.ptr .header_manager = some header ∧ s.heap header = some (.header_manager pool wal) ∧
    s.ptr .free_list_manager = some free_list ∧ s.heap free_list = some (.free_list_manager pool wal header) ∧
    s.ptr .catalog_manager = some catalog ∧ s.heap catalog = some (.catalog_manager pool wal) ∧
    s.ptr .executor = some executor ∧ s.heap executor = some (.executor catalog pool wal free_list)

/-- **No database and no component, or a database and all of its components.** -/
def Consistent (s : Database) : Prop :=
  (s.current_db_name = [] ∧ ∀ m, s.ptr m = none) ∨
    (s.current_db_name ≠ [] ∧ s.Stack (s.db_dir s.current_db_name))

/-- `USE` gets as far as `open_database`. -/
def Opens (s : Database) (sys : Sys) (name : Bytes) : Prop :=
  name ≠ s.current_db_name ∧ sys.dir_exists = true ∧
    (s.current_db_name = [] ∨ s.ptr .buffer_pool = none ∨ sys.flush = true)

end Database

/-- **A `USE` that opens a database opens it whole, or fails to open the file**, and names it. -/
def DbCall.whole : DbCall × Sys → Database → Prop
  | (use name, sys), s => s.Opens sys name → sys.open_fails = some .disk_open ∨ (sys.open_fails = none ∧ name ≠ [])
  | _, _ => True

end GSDBEngine
