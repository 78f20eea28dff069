import GSDBEngine.Spec.Database
import GSDBEngine.Lib.Eff

/-!
# When the storage stack is all there or not there

`close_database` looks at the name, which `open_database` sets last: what a failed `USE` has opened by
then stays, and the next `USE` replaces it pointer by pointer, the `DiskManager` first.

* `Sound.wp_reset`: an object can be destroyed as long as the `BufferPool` goes before its `DiskManager`.
* `stack_consistent`: **as long as `open_database` opens everything or fails to open the file, no database
  is selected and every pointer is null, or every component is one of the selected database.**
* `half_open_stays`: a `USE` that fails in `recover`, and one after it.
-/

namespace GSDBEngine

open Eff

namespace Database

variable {s s' : Database} {sys : Sys} {m m' : Member} {o : Object} {dir : DbDir} {i : ObjectId}

/-- The pointer an object is owned by. -/
def ownerOf : Object → Member
  | .disk_manager _ => .disk_manager
  | .buffer_pool _ => .buffer_pool
  | .wal_manager _ _ => .wal_manager
  | .header_manager _ _ => .header_manager
  | .free_list_manager _ _ _ => .free_list_manager
  | .catalog_manager _ _ => .catalog_manager
  | .executor _ _ _ _ => .executor

/-- Pointers point to objects that are alive, and a pool's `DiskManager` is the one of the stack. -/
structure Sound (s : Database) : Prop where
  fresh : ∀ i, s.next ≤ i → s.heap i = none
  owned : ∀ m i, s.ptr m = some i → ∃ o, s.heap i = some o ∧ ownerOf o = m
  backed : ∀ i disk, s.ptr .buffer_pool = some i → s.heap i = some (.buffer_pool disk) → s.ptr .disk_manager = some disk
  late : s.late = []

/-- Nothing is open. -/
structure Closed (s : Database) : Prop where
  name : s.current_db_name = []
  null : ∀ m, s.ptr m = none

theorem sound_new (data_dir : Bytes) : Sound (new data_dir) where
  fresh _ _ := rfl
  owned m i h := by cases h
  backed i disk h := by cases h
  late := rfl

/-- The directory, the name and unused numbers play no part. -/
theorem Sound.renamed (h : s.Sound) {data_dir name : Bytes} : { s with data_dir := data_dir, current_db_name := name }.Sound :=
  ⟨h.fresh, h.owned, h.backed, h.late⟩

theorem Sound.skipped (h : s.Sound) {n : ObjectId} (hn : s.next ≤ n) : { s with next := n }.Sound :=
  ⟨fun i hi => h.fresh i (hn.trans hi), h.owned, h.backed, h.late⟩

theorem Sound.ne (h : s.Sound) (hm : s.ptr m = some i) {j : ObjectId} (hj : s.ptr m' = some j) (hne : m ≠ m') : i ≠ j := by
  rintro rfl
  obtain ⟨o, ho, hk⟩ := h.owned m i hm
  obtain ⟨o', ho', hk'⟩ := h.owned m' i hj
  rw [ho] at ho'
  obtain rfl := Option.some.inj ho'
  exact hne (hk.symm.trans hk')

/-- The object of a pointer can go: a pool has its `DiskManager` still. -/
theorem Sound.not_late (h : s.Sound) (hm : s.ptr m = some i) : s.isLate i = false := by
  unfold isLate
  split
  · rename_i disk hi
    obtain ⟨o, ho, hk⟩ := h.owned m i hm
    rw [hi] at ho
    obtain rfl := Option.some.inj ho
    obtain rfl : Member.buffer_pool = m := hk
    obtain ⟨o', ho', -⟩ := h.owned _ _ (h.backed i disk hm hi)
    rw [ho']
    rfl
  · rfl

/-! ### One pointer -/

/-- The pointer null and its object gone. -/
def dropped (s : Database) (m : Member) : Database :=
  { s with ptr := Function.update s.ptr m none
           heap := match s.ptr m with
             | none => s.heap
             | some i => Function.update s.heap i none }

@[simp] theorem dropped_ptr (s : Database) (m : Member) : (s.dropped m).ptr = Function.update s.ptr m none := rfl

theorem dropped_heap_ne (h : s.ptr m ≠ some i) : (s.dropped m).heap i = s.heap i := by
  unfold dropped
  cases hm : s.ptr m with
  | none => rfl
  | some j =>
    refine Function.update_of_ne ?_ ..
    rintro rfl
    exact h hm

theorem dropped_heap_none (h : s.heap i = none) : (s.dropped m).heap i = none := by
  by_cases hm : s.ptr m = some i
  · unfold dropped
    simp only [hm, Function.update_self]
  · rw [dropped_heap_ne hm, h]

theorem Sound.wp_reset {E : DbErr → Database → Prop} {Q : Unit → Database → Prop} (h : s.Sound)
    (hQ : Q () (s.dropped m)) : wp (reset m) E Q s := by
  unfold reset
  rw [wp_bind, wp_get, wp_bind, wp_set]
  unfold dropped at hQ
  cases hm : s.ptr m with
  | none =>
    rw [hm] at hQ
    exact hQ
  | some i =>
    rw [hm] at hQ
    have hlate : isLate { s with ptr := Function.update s.ptr m none } i = false := h.not_late hm
    show Q () { s with ptr := _, heap := _, late := if isLate _ i then i :: s.late else s.late }
    rw [if_neg (by rw [hlate]; exact Bool.false_ne_true)]
    exact hQ

theorem Sound.dropped (h : s.Sound) (hm : m = .disk_manager → s.ptr .buffer_pool = none) : (s.dropped m).Sound := by
  -- another pointer, and what it points to, stays
  have hptr : ∀ m' j, (s.dropped m).ptr m' = some j → s.ptr m' = some j ∧ (s.dropped m).heap j = s.heap j := by
    intro m' j hj
    rw [dropped_ptr] at hj
    by_cases hmm : m' = m
    · rw [hmm, Function.update_self] at hj
      cases hj
    · rw [Function.update_of_ne hmm] at hj
      exact ⟨hj, dropped_heap_ne fun hi => h.ne hj hi hmm rfl⟩
  refine ⟨fun i hi => dropped_heap_none (h.fresh i hi), fun m' j hj => ?_, fun i disk hi hd => ?_, h.late⟩
  · obtain ⟨hj', hheap⟩ := hptr m' j hj
    rw [hheap]
    exact h.owned m' j hj'
  · obtain ⟨hi', hheap⟩ := hptr _ i hi
    rw [hheap] at hd
    have hmd : Member.disk_manager ≠ m := by
      rintro rfl
      rw [hm rfl] at hi'
      cases hi'
    rw [dropped_ptr, Function.update_of_ne hmd]
    exact h.backed i disk hi' hd

/-- A new object under a pointer that was null. -/
def opened (s : Database) (m : Member) (o : Object) : Database :=
  { s with ptr := Function.update s.ptr m (some s.next)
           heap := Function.update s.heap s.next (some o)
           next := s.next + 1 }

theorem wp_assign {E : DbErr → Database → Prop} {Q : ObjectId → Database → Prop} (hm : s.ptr m = none)
    (hQ : Q s.next (s.opened m o)) : wp (assign m o) E Q s := by
  unfold assign make
  simp only [wp_bind, wp_get, wp_set, wp_pure, hm]
  exact hQ

theorem Sound.opened (h : s.Sound) (hm : s.ptr m = none) (ho : ownerOf o = m)
    (hd : ∀ disk, o = .buffer_pool disk → s.ptr .disk_manager = some disk) : (s.opened m o).Sound := by
  have hheap : ∀ m' j, s.ptr m' = some j → (s.opened m o).heap j = s.heap j := by
    intro m' j hj
    refine Function.update_of_ne ?_ ..
    rintro rfl
    obtain ⟨o', ho', -⟩ := h.owned m' _ hj
    rw [h.fresh _ le_rfl] at ho'
    cases ho'
  have hother : ∀ m', m' ≠ m → (s.opened m o).ptr m' = s.ptr m' := fun m' hne => Function.update_of_ne hne ..
  have hself : (s.opened m o).ptr m = some s.next := Function.update_self ..
  have hnew : (s.opened m o).heap s.next = some o := Function.update_self ..
  refine ⟨fun i hi => ?_, fun m' j hj => ?_, fun i disk hi hdisk => ?_, h.late⟩
  · have hlt : s.next < i := hi
    exact (Function.update_of_ne (Nat.ne_of_gt hlt) ..).trans (h.fresh i hlt.le)
  · by_cases hmm : m' = m
    · subst hmm
      rw [hself] at hj
      obtain rfl := Option.some.inj hj
      exact ⟨o, hnew, ho⟩
    · rw [hother m' hmm] at hj
      rw [hheap m' j hj]
      exact h.owned m' j hj
  · by_cases hpool : Member.buffer_pool = m
    · subst hpool
      rw [hself] at hi
      obtain rfl := Option.some.inj hi
      rw [hnew] at hdisk
      rw [hother .disk_manager (by decide)]
      exact hd disk (Option.some.inj hdisk)
    · rw [hother _ hpool] at hi
      rw [hheap _ i hi] at hdisk
      have hs := h.backed i disk hi hdisk
      have hne : Member.disk_manager ≠ m := by
        rintro rfl
        rw [hm] at hs
        cases hs
      rw [hother _ hne]
      exact hs

/-! ### Opening and closing -/

theorem Sound.wp_resetAll (h : s.Sound) : wp resetAll (fun _ _ => False)
    (fun _ s' => s'.Sound ∧ ∀ m, s'.ptr m = none) s := by
  have h₁ := h.dropped (m := .executor) fun h => by cases h
  have h₂ := h₁.dropped (m := .catalog_manager) fun h => by cases h
  have h₃ := h₂.dropped (m := .free_list_manager) fun h => by cases h
  have h₄ := h₃.dropped (m := .wal_manager) fun h => by cases h
  have h₅ := h₄.dropped (m := .header_manager) fun h => by cases h
  have h₆ := h₅.dropped (m := .buffer_pool) fun h => by cases h
  have h₇ := h₆.dropped (m := .disk_manager) fun _ => by rw [dropped_ptr, Function.update_self]
  unfold resetAll
  simp only [wp_bind]
  refine h.wp_reset (h₁.wp_reset (h₂.wp_reset (h₃.wp_reset (h₄.wp_reset (h₅.wp_reset (h₆.wp_reset ⟨h₇, ?_⟩))))))
  intro m
  cases m <;> rfl

theorem Sound.wp_close (h : s.Sound) (hc : s.Consistent) : wp (close_database sys)
    (fun _ s' => s' = s) (fun _ s' => s'.Sound ∧ Closed s' ∧ (s.current_db_name = [] ∨ s.ptr .buffer_pool = none ∨ sys.flush = true)) s := by
  unfold close_database
  rw [wp_bind, wp_get, wp_ite]
  refine ⟨fun hname => ?_, fun hname => ?_⟩
  · rcases hc with ⟨-, hnull⟩ | ⟨hne, -⟩
    · exact ⟨h, ⟨hname, hnull⟩, Or.inl hname⟩
    · exact absurd hname hne
  · simp only [wp_bind, wp_ite, wp_throw, wp_modify]
    refine ⟨fun _ => trivial, fun hf => ?_⟩
    have hok : s.ptr .buffer_pool = none ∨ sys.flush = true := by
      rcases Option.eq_none_or_eq_some (s.ptr .buffer_pool) with hnone | ⟨pool, hsome⟩
      · exact Or.inl hnone
      · exact Or.inr (Bool.eq_true_of_not_eq_false fun hff => hf ⟨by rw [hsome]; rfl, hff⟩)
    refine wp_mono h.wp_resetAll (fun _ s' h' => ?_) fun _ _ hf => hf.elim
    obtain ⟨hs', hnull⟩ := h'
    exact ⟨hs'.renamed, ⟨rfl, hnull⟩, Or.inr hok⟩

theorem mayThrow_none {step : OpenStep} {E : DbErr → Database → Prop} {Q : Unit → Database → Prop} (hs : sys.open_fails = none)
    (hQ : Q () s) : wp (mayThrow sys step) E Q s := by
  unfold mayThrow
  rw [hs]
  exact hQ

/-- Opened whole, from nothing. -/
theorem Sound.wp_open (h : s.Sound) (hc : Closed s) {name : Bytes} (hsys : sys.open_fails = none) (hname : name ≠ []) :
    wp (open_database sys name) (fun _ _ => False) (fun _ s' => s'.Sound ∧ s'.Consistent) s := by
  set dir := s.db_dir name
  have h₁ := h.opened (m := .disk_manager) (o := .disk_manager dir) (hc.null _) rfl fun _ h => by cases h
  have h₂ := h₁.opened (m := .buffer_pool) (o := .buffer_pool s.next) (hc.null _) rfl (by rintro _ ⟨⟩; rfl)
  have h₃ := h₂.opened (m := .wal_manager) (o := .wal_manager dir (s.next + 1)) (hc.null _) rfl fun _ h => by cases h
  have h₄ := h₃.opened (m := .header_manager) (o := .header_manager (s.next + 1) (s.next + 2)) (hc.null _) rfl fun _ h => by cases h
  have h₅ := h₄.opened (m := .free_list_manager) (o := .free_list_manager (s.next + 1) (s.next + 2) (s.next + 3)) (hc.null _) rfl fun _ h => by cases h
  have h₆ := h₅.opened (m := .catalog_manager) (o := .catalog_manager (s.next + 1) (s.next + 2)) (hc.null _) rfl fun _ h => by cases h
  have h₇ := h₆.opened (m := .executor) (o := .executor (s.next + 5) (s.next + 1) (s.next + 2) (s.next + 4)) (hc.null _) rfl fun _ h => by cases h
  unfold open_database
  simp only [wp_bind, wp_get, wp_modify]
  refine mayThrow_none hsys (wp_assign (hc.null _) (wp_assign (hc.null _) (mayThrow_none hsys (wp_assign (hc.null _)
    (mayThrow_none hsys (wp_assign (hc.null _) (mayThrow_none hsys (wp_assign (hc.null _) (wp_assign (hc.null _)
      (mayThrow_none hsys (wp_assign (hc.null _) ?_)))))))))))
  refine ⟨h₇.renamed, Or.inr ⟨hname, ?_⟩⟩
  refine ⟨s.next, s.next + 3, s.next + 1, s.next + 2, s.next + 4, s.next + 5, s.next + 6, rfl, ?_, rfl, ?_, rfl, ?_, rfl, ?_, rfl, ?_, rfl, ?_, rfl, ?_⟩
  all_goals simp [Database.opened, Nat.add_assoc, db_dir]

theorem Sound.wp_mayThrow {step : OpenStep} {E : DbErr → Database → Prop} {Q : Unit → Database → Prop} (hE : ∀ e, E e s) (hQ : Q () s) :
    wp (mayThrow sys step) E Q s := by
  unfold mayThrow
  rw [wp_ite]
  exact ⟨fun _ => hE _, fun _ => hQ⟩

/-! ### The stack of `CREATE DATABASE` -/

/-- Only numbers have been used up. -/
def Used (s s' : Database) : Prop := ∃ n, s.next ≤ n ∧ s' = { s with next := n }

/-- The heap with a local object on it. -/
def locally (s : Database) (o : Object) : Database :=
  { s with heap := Function.update s.heap s.next (some o), next := s.next + 1 }

theorem locally_fresh (h : ∀ i, s.next ≤ i → s.heap i = none) (i : ObjectId) (hi : (s.locally o).next ≤ i) : (s.locally o).heap i = none := by
  have hlt : s.next < i := hi
  exact (Function.update_of_ne (Nat.ne_of_gt hlt) ..).trans (h i hlt.le)

theorem wp_withLocal {block : ObjectId → DbM Unit} (hfree : ∀ i, s.next ≤ i → s.heap i = none)
    (hd : ∀ disk, o = .buffer_pool disk → s.heap disk ≠ none)
    (hblock : wp (block s.next) (fun _ s' => (s.locally o).Used s') (fun _ s' => (s.locally o).Used s') (s.locally o)) :
    wp (withLocal o block) (fun _ s' => s.Used s') (fun _ s' => s.Used s') s := by
  have hfresh := hfree s.next le_rfl
  -- either way the object goes, and the heap is what it was
  have hgone : ∀ n, s.next + 1 ≤ n → ∀ E : DbErr → Database → Prop, ∀ Q : Unit → Database → Prop,
      (∀ s', s.Used s' → Q () s') → wp (destroy s.next) E Q { s.locally o with next := n } := by
    intro n hn E Q hQ
    refine hQ _ ⟨n, Nat.le_of_succ_le hn, ?_⟩
    have hheap : Function.update (s.locally o).heap s.next none = s.heap := by
      unfold locally
      rw [Function.update_idem, ← hfresh, Function.update_eq_self]
    have hlate : isLate { s.locally o with next := n } s.next = false := by
      unfold isLate locally
      simp only [Function.update_self]
      split
      · rename_i disk heq
        obtain rfl := Option.some.inj heq
        have hne : disk ≠ s.next := by
          rintro rfl
          exact hd _ rfl hfresh
        rw [Function.update_of_ne hne, Option.isNone_eq_false_iff, Option.isSome_iff_ne_none]
        exact hd _ rfl
      · rfl
    simp only [hheap, hlate]
    rfl
  unfold withLocal make
  simp only [wp_bind, wp_get, wp_set, wp_pure, wp_tryCatch]
  refine wp_mono hblock ?_ ?_
  · rintro _ s' ⟨n, hn, rfl⟩
    exact hgone n hn _ _ fun s' hs' => hs'
  · rintro e s' ⟨n, hn, rfl⟩
    exact hgone n hn _ _ fun s' hs' => hs'

theorem Used.refl (s : Database) : s.Used s := ⟨s.next, le_rfl, rfl⟩

theorem Sound.wp_bootstrap (h : s.Sound) : wp (bootstrap sys dir) (fun _ s' => s.Used s') (fun _ s' => s.Used s') s := by
  unfold bootstrap
  simp only [wp_bind, wp_ite, wp_throw]
  refine ⟨fun _ => Used.refl s, fun _ => Sound.wp_mayThrow (fun _ => Used.refl s) (wp_withLocal h.fresh (fun _ h => by cases h) ?_)⟩
  have h₁ := locally_fresh (o := .disk_manager dir) h.fresh
  refine wp_withLocal h₁ (by rintro _ ⟨⟩; simp [locally]) ?_
  have h₂ := locally_fresh (o := .buffer_pool s.next) h₁
  rw [wp_bind]
  refine Sound.wp_mayThrow (fun _ => Used.refl _) (wp_withLocal h₂ (fun _ h => by cases h) ?_)
  have h₃ := locally_fresh (o := .wal_manager dir (s.locally (.disk_manager dir)).next) h₂
  refine wp_withLocal h₃ (fun _ h => by cases h) ?_
  rw [wp_bind]
  refine Sound.wp_mayThrow (fun _ => Used.refl _) (wp_withLocal (locally_fresh h₃) (fun _ h => by cases h) ?_)
  rw [wp_bind]
  refine Sound.wp_mayThrow (fun _ => Used.refl _) ?_
  rw [wp_ite]
  exact ⟨fun _ => Used.refl _, fun _ => Used.refl _⟩

/-! ### Calls -/

/-- What holds between two calls. -/
structure Steady (s : Database) : Prop where
  sound : s.Sound
  consistent : s.Consistent

theorem Used.steady {s' : Database} (h : s.Used s') (hs : s.Steady) : s'.Steady := by
  obtain ⟨n, hn, rfl⟩ := h
  exact ⟨hs.sound.skipped hn, hs.consistent⟩

theorem Closed.steady (hc : Closed s) (h : s.Sound) : s.Steady := ⟨h, Or.inl ⟨hc.name, hc.null⟩⟩

/-- A call keeps the stack whole, whichever way it ends. -/
abbrev Keeps {α : Type} (m : DbM α) (s : Database) : Prop := wp m (fun _ s' => s'.Steady) (fun _ s' => s'.Steady) s

theorem Steady.wp_close {E : DbErr → Database → Prop} {Q : Unit → Database → Prop} (h : s.Steady) (hE : ∀ e, E e s)
    (hQ : ∀ s', s'.Sound → Closed s' → (s.current_db_name = [] ∨ s.ptr .buffer_pool = none ∨ sys.flush = true) → Q () s') :
    wp (close_database sys) E Q s :=
  wp_mono (h.sound.wp_close h.consistent) (fun _ s' h' => hQ s' h'.1 h'.2.1 h'.2.2) fun e _ he => he ▸ hE e

theorem Steady.create_database (h : s.Steady) (name : Bytes) : Keeps (handle_create_database sys name) s := by
  unfold Keeps handle_create_database
  simp only [wp_bind, wp_get, wp_ite, wp_pure, wp_tryCatch]
  refine ⟨fun _ => h, fun _ => wp_mono h.sound.wp_bootstrap ?_ ?_⟩
  · exact fun _ s' hu => hu.steady h
  · exact fun _ s' hu => hu.steady h

theorem Steady.drop_database (h : s.Steady) (name : Bytes) : Keeps (handle_drop_database sys name) s := by
  unfold Keeps handle_drop_database
  simp only [wp_bind, wp_get, wp_ite, wp_pure]
  refine ⟨fun _ => h, fun _ => ⟨fun _ => ?_, fun _ => ⟨fun _ => h, fun _ => h⟩⟩⟩
  exact h.wp_close (fun _ => h) fun s' hs' hc _ => ⟨fun _ => hc.steady hs', fun _ => hc.steady hs'⟩

theorem Steady.use (h : s.Steady) {name : Bytes} (hok : DbCall.whole (.use name, sys) s) : Keeps (handle_use sys name) s := by
  unfold Keeps handle_use
  simp only [wp_bind, wp_get, wp_ite, wp_pure, wp_tryCatch]
  refine ⟨fun _ => h, fun hname => ⟨fun _ => h, fun hexists => ?_⟩⟩
  refine h.wp_close (fun _ => h) fun s' hs' hc hflush => ?_
  rcases hok ⟨hname, Bool.eq_true_of_not_eq_false hexists, hflush⟩ with hdisk | ⟨hnone, hne⟩
  · -- nothing has been opened when the file does not open
    unfold open_database mayThrow
    simp only [wp_bind, wp_get, wp_ite, wp_throw, hdisk]
    refine ⟨fun _ => ?_, fun hf => (hf trivial).elim⟩
    exact (hc.steady hs').wp_close (fun _ => hc.steady hs') fun s'' hs'' hc'' _ => hc''.steady hs''
  · exact wp_mono (hs'.wp_open hc hnone hne) (fun _ s'' h'' => ⟨h''.1, h''.2⟩) fun _ _ hf => hf.elim

theorem Steady.set_data_dir (h : s.Steady) (new_dir : Bytes) : Keeps (set_data_dir sys new_dir) s := by
  unfold Keeps Database.set_data_dir
  simp only [wp_bind, wp_ite, wp_throw, wp_pure, wp_modify]
  refine h.wp_close (fun _ => h) fun s' hs' hc _ => ?_
  have hmoved : { s' with data_dir := new_dir }.Steady := Closed.steady ⟨hc.name, hc.null⟩ hs'.renamed
  exact ⟨fun _ => hc.steady hs', fun _ => ⟨fun _ => hmoved, fun _ => hmoved⟩⟩

theorem Steady.reset_data_dir (h : s.Steady) : Keeps (reset_data_dir sys) s := by
  unfold Keeps Database.reset_data_dir
  rw [wp_bind]
  refine h.wp_close (fun _ => h) fun s' hs' hc _ => ?_
  cases hhome : sys.home with
  | none => exact hc.steady hs'
  | some dir =>
    have hmoved : { s' with data_dir := dir }.Steady := Closed.steady ⟨hc.name, hc.null⟩ hs'.renamed
    simp only [wp_bind, wp_ite, wp_throw, wp_pure, wp_modify]
    exact ⟨fun _ => hmoved, fun _ => hmoved⟩

theorem Steady.statement (h : s.Steady) : Keeps execute_statement s := by
  unfold Keeps execute_statement
  simp only [wp_bind, wp_get, wp_ite, wp_pure]
  exact ⟨fun _ => h, fun _ => h⟩

theorem Steady.body (h : s.Steady) : ∀ c : DbCall, DbCall.whole (c, sys) s → Keeps (c.body sys) s
  | .create_database name, _ => by
    unfold DbCall.body Keeps
    rw [wp_bind]
    exact h.create_database name
  | .use name, hok => by
    unfold DbCall.body Keeps
    rw [wp_bind]
    exact h.use hok
  | .drop_database name, _ => by
    unfold DbCall.body Keeps
    rw [wp_bind]
    exact h.drop_database name
  | .set_data_dir new_dir, _ => h.set_data_dir new_dir
  | .reset_data_dir, _ => h.reset_data_dir
  | .statement, _ => by
    unfold DbCall.body Keeps
    rw [wp_bind]
    exact h.statement

theorem of_wp_after {c : DbM Unit} {P : Database → Prop} (h : wp c (fun _ => P) (fun _ => P) s) : P (after c s) := by
  unfold wp at h
  unfold after
  cases hc : c s with
  | ok a s' => rw [hc] at h; exact h
  | error e s' => rw [hc] at h; exact h

theorem Steady.step {e : DbCall × Sys} (h : s.Steady) (hok : DbCall.whole e s) (hs : Step e s s') : s'.Steady := by
  obtain ⟨c, sys, s⟩ := hs
  exact of_wp_after (h.body c hok)

/-- The destructor destroys the pool before the `DiskManager`. -/
theorem Steady.late_destruct (h : s.Steady) : (Database.after (destruct sys) s).late = [] := by
  refine of_wp_after (P := fun s' => s'.late = []) ?_
  unfold destruct
  simp only [wp_bind]
  refine h.wp_close (fun _ => h.sound.late) fun s' hs' hc _ => ?_
  have h₁ := hs'.dropped (m := .executor) fun h => by cases h
  have h₂ := h₁.dropped (m := .catalog_manager) fun h => by cases h
  have h₃ := h₂.dropped (m := .free_list_manager) fun h => by cases h
  have h₄ := h₃.dropped (m := .wal_manager) fun h => by cases h
  have h₅ := h₄.dropped (m := .buffer_pool) fun h => by cases h
  have h₆ := h₅.dropped (m := .header_manager) fun h => by cases h
  exact hs'.wp_reset (h₁.wp_reset (h₂.wp_reset (h₃.wp_reset (h₄.wp_reset (h₅.wp_reset (h₆.wp_reset h₆.late))))))

theorem steady_new (data_dir : Bytes) : (new data_dir).Steady := ⟨sound_new data_dir, Or.inl ⟨rfl, fun _ => rfl⟩⟩

/-- **From `open_database` calls that open everything or nothing**: no database and null pointers, or a database and
all of its components; and no `BufferPool` is destroyed after its `DiskManager`, that of the destructor neither. -/
theorem stack_consistent {data_dir : Bytes} (hrun : RunWhere Step DbCall.whole (new data_dir) s) (sys : Sys) :
    s.Consistent ∧ s.late = [] ∧ (Database.after (destruct sys) s).late = [] := by
  have h : s.Steady := hrun.invariant (steady_new data_dir) fun _ _ _ ht hok hs => ht.step hok hs
  exact ⟨h.consistent, h.sound.late, h.late_destruct⟩

/-- Every request is granted. -/
def obliging : Sys where
  dir_exists := true
  create_directories := true
  remove_all := true
  flush := true
  open_fails := none
  home := some []
  persist := true

theorem stack_consistent_used : ∃ s, RunWhere Step DbCall.whole (new []) s ∧ s.current_db_name = [97] ∧
    (s.Consistent ∧ s.late = [] ∧ (Database.after (destruct obliging) s).late = []) := by
  have hcreated : RunWhere Step DbCall.whole (new []) _ :=
    RunWhere.refl.step (e := (.create_database [97], { obliging with dir_exists := false })) (by trivial) (.call ..)
  have hrun : RunWhere Step DbCall.whole (new []) _ :=
    hcreated.step (e := (.use [97], obliging)) (by exact fun _ => Or.inr ⟨rfl, by decide⟩) (.call ..)
  exact ⟨_, hrun, rfl, stack_consistent hrun obliging⟩

/-- `USE` fails in `recover`: the name stays empty and close_database leaves the pointers. The next `USE` destroys
the `DiskManager` before the pool that refers to it. -/
theorem half_open_stays : ∃ s s', RunWhere Step (fun _ _ => True) (new []) s ∧ s.current_db_name = [] ∧
    s.ptr .buffer_pool ≠ none ∧ ¬ s.Consistent ∧ Step (.use [97], obliging) s s' ∧ s'.late ≠ [] := by
  have hrun : RunWhere Step (fun _ _ => True) (new []) _ :=
    (RunWhere.refl.step (e := (.create_database [97], { obliging with dir_exists := false })) trivial (.call ..)).step
      (e := (.use [97], { obliging with open_fails := some .recover })) trivial (.call ..)
  refine ⟨_, _, hrun, rfl, by decide, ?_, .call .., by decide⟩
  rintro (⟨-, hnull⟩ | ⟨hname, -⟩)
  · exact nomatch hnull .buffer_pool
  · exact hname rfl

end Database

end GSDBEngine
