import GSDBEngine.Spec.Contents
import GSDBEngine.Proof.Row

/-!
# One row into the trees, one row out of them

* `remove_row_and_indexes_spec`, `write_row_and_indexes_spec`: **a row of the contents goes, a row
  that nothing conflicts with comes, and neither throws.**
* `check_unique_spec`: an index finds a conflict exactly if the contents have one.
-/

namespace GSDBEngine

open Eff

/-! ### Keys -/

namespace Key

variable {a a' b b' : Key}

theorem rank_append (a b : Key) : (a ++ b).rank = a.rank ++ b.rank := List.map_append

theorem length_of_rank (h : a.rank = b.rank) : a.length = b.length := by
  have := congrArg List.length h
  rwa [rank, rank, List.length_map, List.length_map] at this

theorem rank_append_inj (h : (a ++ b).rank = (a' ++ b').rank) (hl : a.length = a'.length) : a.rank = a'.rank ∧ b.rank = b'.rank := by
  rw [rank_append, rank_append] at h
  refine List.append_inj h ?_
  rw [rank, rank, List.length_map, List.length_map, hl]

theorem isNull_of_rank {v w : Value} (h : v.rank = w.rank) : v.isNull = w.isNull := by
  cases v <;> cases w <;> simp [Value.rank, Value.isNull] at h ⊢

theorem is_indexable_of_rank (h : a.rank = b.rank) : is_indexable a = is_indexable b := by
  induction a generalizing b with
  | nil =>
    cases b with
    | nil => rfl
    | cons v b => cases h
  | cons v a ih =>
    cases b with
    | nil => cases h
    | cons w b =>
      rw [rank, rank, List.map_cons, List.map_cons] at h
      obtain ⟨h1, h2⟩ := List.cons.inj h
      have := ih h2
      unfold is_indexable at this ⊢
      rw [List.all_cons, List.all_cons, this, isNull_of_rank h1]

theorem isNaN_of_rank {v w : Value} (h : v.rank = w.rank) : v.isNaN = w.isNaN := by
  cases v <;> cases w <;> simp only [Value.rank, toLex_inj, Prod.mk.injEq] at h <;> try rfl
  all_goals first | omega | skip
  case float.float x y =>
    have ho : x.order = y.order := h.2.1
    have hm : x.magnitude = y.magnitude := by
      unfold Single.order at ho
      split at ho <;> split at ho <;> omega
    simp only [Value.isNaN, Single.isNaN, hm]

theorem hasNaN_of_rank (h : a.rank = b.rank) : a.hasNaN = b.hasNaN := by
  induction a generalizing b with
  | nil =>
    cases b with
    | nil => rfl
    | cons v b => cases h
  | cons v a ih =>
    cases b with
    | nil => cases h
    | cons w b =>
      rw [rank, rank, List.map_cons, List.map_cons] at h
      obtain ⟨h1, h2⟩ := List.cons.inj h
      have := ih h2
      unfold hasNaN at this ⊢
      rw [List.any_cons, List.any_cons, this, isNaN_of_rank h1]

/-- A key that begins with another one. -/
theorem hasPrefix_append (hl : a.length = a'.length) (ha : a.hasNaN = false) (ha' : a'.hasNaN = false) :
    (a ++ b).hasPrefix a' = true ↔ a.rank = a'.rank := by
  have htake : (a ++ b).take a'.length = a := by rw [← hl]; exact List.take_left
  have hle : a'.length ≤ (a ++ b).length := by rw [List.length_append]; omega
  rw [hasPrefix, htake, decide_eq_true hle, Bool.true_and, eq_iff ha ha']

theorem eq_false_iff (ha : a.hasNaN = false) (hb : b.hasNaN = false) : (!Key.eq a b) = true ↔ a.rank ≠ b.rank := by
  rw [Bool.not_eq_true', ← Bool.not_eq_true, eq_iff ha hb]

end Key

/-! ### What is extracted -/

theorem extract_primary_key_go {schema : TableSchema} {row : Row} {l : List UInt32} {key : Key}
    (h : TableSchema.extract_primary_key.go schema row l = .ok key) :
    key = (l.map fun i => (row[i.toNat]?).getD .null) ∧ ∀ i ∈ l, ∃ v, row[i.toNat]? = some v ∧ v.isNull = false := by
  induction l generalizing key with
  | nil =>
    cases h
    exact ⟨rfl, fun v hv => absurd hv List.not_mem_nil⟩
  | cons i l ih =>
    unfold TableSchema.extract_primary_key.go at h
    cases hr : row[i.toNat]? with
    | none =>
      rw [hr] at h
      cases h
    | some v =>
      rw [hr] at h
      simp only at h
      by_cases hn : v.isNull = true
      · rw [if_pos hn] at h
        cases h
      · rw [if_neg hn] at h
        cases hk : TableSchema.extract_primary_key.go schema row l with
        | error e =>
          rw [hk] at h
          cases h
        | ok k =>
          rw [hk] at h
          cases h
          obtain ⟨h1, h2⟩ := ih hk
          refine ⟨by rw [List.map_cons, hr, ← h1]; rfl, fun j hj => ?_⟩
          rcases List.mem_cons.1 hj with rfl | hj
          · exact ⟨v, hr, by simpa using hn⟩
          · exact h2 j hj

theorem extract_indexed_value_go {row : Row} {l : List ℕ} {key : Key}
    (h : IndexBinding.extract_indexed_value.go row l = .ok key) :
    key = (l.map fun i => (row[i]?).getD .null) ∧ ∀ v ∈ key, v ∈ row := by
  induction l generalizing key with
  | nil =>
    cases h
    exact ⟨rfl, fun v hv => absurd hv List.not_mem_nil⟩
  | cons i l ih =>
    unfold IndexBinding.extract_indexed_value.go at h
    cases hr : row[i]? with
    | none =>
      rw [hr] at h
      cases h
    | some v =>
      rw [hr] at h
      simp only at h
      cases hk : IndexBinding.extract_indexed_value.go row l with
      | error e =>
        rw [hk] at h
        cases h
      | ok k =>
        rw [hk] at h
        cases h
        obtain ⟨h1, h2⟩ := ih hk
        refine ⟨by rw [List.map_cons, hr, ← h1]; rfl, fun w hw => ?_⟩
        rcases List.mem_cons.1 hw with rfl | hw
        · exact List.mem_of_getElem? hr
        · exact h2 w hw

theorem extract_indexed_value_error {idx : IndexBinding} {row : Row} {err : TableErr} (h : idx.extract_indexed_value row = .error err) :
    err = .column_out_of_range := by
  have hgo : ∀ l, IndexBinding.extract_indexed_value.go row l = .error err → err = .column_out_of_range := by
    intro l
    induction l with
    | nil => intro h; cases h
    | cons i l ih =>
      intro h
      unfold IndexBinding.extract_indexed_value.go at h
      cases hr : row[i]? with
      | none =>
        rw [hr] at h
        cases h
        rfl
      | some v =>
        rw [hr] at h
        cases hk : IndexBinding.extract_indexed_value.go row l with
        | error e =>
          simp only [hk] at h
          cases h
          exact ih hk
        | ok k =>
          simp only [hk] at h
          cases h
  exact hgo _ h

/-- An error that is about no other row. -/
def TableErr.plain (err : TableErr) : Prop := err.unique_index = none ∧ err ≠ .duplicate_primary_key

theorem TableErr.plain.unique_ne {err : TableErr} {name : Bytes} {P : Prop} (h : err.plain) (hname : err.unique_index = some name) : P := by
  rw [h.1] at hname
  cases hname

theorem TableErr.plain.elim {err : TableErr} {P : Prop} {R : Bytes → Prop} (h : err.plain) :
    (err = .duplicate_primary_key → P) ∧ ∀ name, err.unique_index = some name → R name :=
  ⟨fun heq => absurd heq h.2, fun _ hname => h.unique_ne hname⟩

theorem extract_primary_key_error {schema : TableSchema} {row : Row} {err : TableErr}
    (h : schema.extract_primary_key row = .error err) : err.plain := by
  have hgo : ∀ l, TableSchema.extract_primary_key.go schema row l = .error err → err.plain := by
    intro l
    induction l with
    | nil => intro h; cases h
    | cons i l ih =>
      intro h
      unfold TableSchema.extract_primary_key.go at h
      cases hr : row[i.toNat]? with
      | none =>
        rw [hr] at h
        cases h
        exact ⟨rfl, by simp⟩
      | some v =>
        rw [hr] at h
        simp only at h
        by_cases hn : v.isNull = true
        · rw [if_pos hn] at h
          cases h
          exact ⟨rfl, by simp⟩
        · rw [if_neg hn] at h
          cases hk : TableSchema.extract_primary_key.go schema row l with
          | error e =>
            simp only [hk] at h
            cases h
            exact ih hk
          | ok k =>
            simp only [hk] at h
            cases h
  exact hgo _ h

theorem serialize_row_error {schema : TableSchema} {row : Row} {err : TableErr}
    (h : serialize_row schema row = .error err) : err.plain := by
  unfold serialize_row at h
  cases hs : RowSerializer.serialize row schema with
  | error e =>
    rw [hs] at h
    cases h
    exact ⟨rfl, by simp⟩
  | ok b =>
    rw [hs] at h
    cases h

section extract

variable {tbl : Table} {idx : IndexBinding} {row : Row} {key : Key} {e : Key × Row}

theorem extract_value (h : idx.extract_indexed_value row = .ok key) : key = idx.value row := (extract_indexed_value_go h).1

theorem value_length (idx : IndexBinding) (row : Row) : (idx.value row).length = idx.column_indices.length := List.length_map ..

theorem key_length (h : tbl.schema.extract_primary_key row = .ok key) : key.length = tbl.schema.primary_key_indices.length := by
  rw [(extract_primary_key_go h).1, List.length_map]

theorem hasNaN_of_mem (hrow : ∀ v ∈ row, v.isNaN = false) (hk : ∀ v ∈ key, v ∈ row) : key.hasNaN = false :=
  Key.hasNaN_eq_false.2 fun v hv => hrow v (hk v hv)

theorem key_hasNaN (h : tbl.schema.extract_primary_key row = .ok key) (hrow : ∀ v ∈ row, v.isNaN = false) : key.hasNaN = false :=
  hasNaN_of_mem hrow fun v hv => by
    obtain ⟨rfl, hmem⟩ := extract_primary_key_go h
    obtain ⟨i, hi, rfl⟩ := List.mem_map.1 hv
    obtain ⟨w, hw, -⟩ := hmem i hi
    rw [hw]
    exact List.mem_of_getElem? hw

theorem value_hasNaN (hrow : ∀ v ∈ row, v.isNaN = false) : (idx.value row).hasNaN = false := by
  refine Key.hasNaN_eq_false.2 fun v hv => ?_
  obtain ⟨i, -, rfl⟩ := List.mem_map.1 hv
  cases hr : row[i]? with
  | none => rfl
  | some w => exact hrow w (List.mem_of_getElem? hr)

theorem Table.Fits.key_hasNaN (h : tbl.Fits e) : e.1.hasNaN = false := GSDBEngine.key_hasNaN h.key h.numbers

theorem Table.Fits.value_hasNaN (h : tbl.Fits e) : (idx.value e.2).hasNaN = false := GSDBEngine.value_hasNaN h.numbers

end extract

/-! ### Trees -/

section trees

variable {s : TableState} {t t' : TreeName} {k : Key} {v : Bytes} {m : KeyMap}
variable {α : Type} {E : TableErr → TableState → Prop} {Q : Unit → TableState → Prop}

@[simp] theorem write_trees (s : TableState) (t : TreeName) (m : KeyMap) : (s.write t m).trees = s.trees.write t m := by
  cases t <;> rfl

theorem write_tree_same (s : Trees) (t : TreeName) (m : KeyMap) : ((s.write t m).tree t).entries = m := by
  show (Function.update s.tree t _ t).entries = m
  rw [Function.update_self]

theorem write_tree_ne (s : Trees) (m : KeyMap) (h : t' ≠ t) : (s.write t m).tree t' = s.tree t' := Function.update_of_ne h ..

@[simp] theorem wp_btree_search {Q : Option Bytes → TableState → Prop} :
    wp (btree_search t k) E Q s ↔ Q ((s.trees.tree t).entries.find? k) s := Iff.rfl

@[simp] theorem wp_btree_scan_all {Q : List (Key × Bytes) → TableState → Prop} :
    wp (btree_scan_all t) E Q s ↔ Q (s.trees.tree t).entries.entries s := Iff.rfl

@[simp] theorem wp_btree_prefix_scan {Q : List (Key × Bytes) → TableState → Prop} :
    wp (btree_prefix_scan t k) E Q s ↔ Q ((s.trees.tree t).entries.entries.filter fun e => e.1.hasPrefix k) s := Iff.rfl

theorem wp_btree_insert (h : (s.trees.tree t).entries.find? k = none)
    (hQ : Q () (s.write t ((s.trees.tree t).entries.insert k v h))) : wp (btree_insert t k v) E Q s := by
  unfold btree_insert
  rw [wp_bind, wp_get]
  split
  · rename_i heq
    rw [h] at heq
    cases heq
  · exact hQ

theorem wp_btree_remove {a : Bytes} (h : (s.trees.tree t).entries.find? k = some a)
    (hQ : Q () (s.write t ((s.trees.tree t).entries.erase k))) : wp (btree_remove t k) E Q s := by
  unfold btree_remove
  rw [wp_bind, wp_get, h]
  exact hQ

end trees

/-! ### Index -/

section index

variable {tbl : Table} {idx : IndexBinding} {S : Contents} {s : TableState} {iv pk : Key}

/-- What the scan for a value finds. -/
theorem scan_value (hS : ∀ e ∈ S, tbl.Fits e) (himg : idx.Image S (s.trees.tree (.index idx.schema.name)).entries) (hl : iv.length = idx.column_indices.length)
    (hiv : iv.hasNaN = false) (key : Key) :
    (∃ v, (key, v) ∈ (s.trees.tree (.index idx.schema.name)).entries.entries.filter fun e => e.1.hasPrefix iv) ↔
      ∃ e ∈ S, is_indexable (idx.value e.2) = true ∧ (idx.value e.2).rank = iv.rank ∧ key = idx.value e.2 ++ e.1 := by
  have hpre : ∀ e ∈ S, (idx.value e.2 ++ e.1).hasPrefix iv = true ↔ (idx.value e.2).rank = iv.rank := fun e he =>
    Key.hasPrefix_append (by rw [value_length, hl]) ((hS e he).value_hasNaN) hiv
  refine ⟨fun ⟨v, hv⟩ => ?_, fun ⟨e, he, hix, hr, hk⟩ => ?_⟩
  · obtain ⟨hm, hp⟩ := List.mem_filter.1 hv
    obtain ⟨-, e, he, hix, rfl⟩ := (himg key v).1 hm
    exact ⟨e, he, hix, (hpre e he).1 hp, rfl⟩
  · subst hk
    exact ⟨[], List.mem_filter.2 ⟨(himg _ _).2 ⟨rfl, e, he, hix, rfl⟩, (hpre e he).2 hr⟩⟩

/-- **An index finds a conflict exactly if there is one.** -/
theorem check_unique_spec (hS : ∀ e ∈ S, tbl.Fits e) (himg : idx.Image S (s.trees.tree (.index idx.schema.name)).entries) (hl : iv.length = idx.column_indices.length)
    (hiv : iv.hasNaN = false) (hpk : pk.hasNaN = false) :
    wp (idx.check_unique iv pk)
      (fun e s' => s' = s ∧ e = .unique_violation idx.schema.name ∧ idx.schema.is_unique = true ∧
        ∃ e ∈ S, is_indexable (idx.value e.2) = true ∧ (idx.value e.2).rank = iv.rank ∧ e.1.rank ≠ pk.rank)
      (fun _ s' => s' = s ∧ (idx.schema.is_unique = true → ∀ e ∈ S, is_indexable (idx.value e.2) = true →
        (idx.value e.2).rank = iv.rank → e.1.rank = pk.rank)) s := by
  have hscan := scan_value hS himg hl hiv
  have hdrop : ∀ e ∈ S, (idx.value e.2).rank = iv.rank → (idx.value e.2 ++ e.1).drop iv.length = e.1 := fun e _ hr => by
    rw [← Key.length_of_rank hr]
    exact List.drop_left
  unfold IndexBinding.check_unique
  by_cases hu : idx.schema.is_unique = true
  · simp only [hu, if_true, wp_bind, wp_btree_prefix_scan, wp_ite, wp_throw]
    refine ⟨fun hany => ⟨trivial, trivial, trivial, ?_⟩, fun hnone => ⟨rfl, fun _ e he hix hr => ?_⟩⟩
    · obtain ⟨⟨key, v⟩, hm, hne⟩ := List.any_eq_true.1 hany
      obtain ⟨e, he, hix, hr, rfl⟩ := (hscan key).1 ⟨v, hm⟩
      refine ⟨e, he, hix, hr, ?_⟩
      rw [hdrop e he hr, Key.eq_false_iff (hS e he).key_hasNaN hpk] at hne
      exact hne
    · by_contra hne
      obtain ⟨v, hm⟩ := (hscan _).2 ⟨e, he, hix, hr, rfl⟩
      refine hnone (List.any_eq_true.2 ⟨_, hm, ?_⟩)
      rw [hdrop e he hr, Key.eq_false_iff (hS e he).key_hasNaN hpk]
      exact hne
  · rw [if_neg hu]
    exact ⟨rfl, fun h => absurd h hu⟩

/-- The key of an entry. -/
theorem make_entry_key_spec (hb : tbl.Bound) (hi : idx ∈ tbl.indexes) (hl : iv.length = idx.column_indices.length)
    (hpk : pk.length = tbl.schema.primary_key_indices.length) {E : TableErr → TableState → Prop} :
    wp (idx.make_entry_key iv pk) E (fun key s' => s' = s ∧ key = iv ++ pk) s := by
  unfold IndexBinding.make_entry_key
  rw [if_neg (by rw [hl, hb.columns idx hi]; exact fun h => h rfl), if_neg (by rw [hpk, hb.pk_arity idx hi]; exact fun h => h rfl)]
  exact ⟨rfl, rfl⟩

/-- The other trees are as they were. -/
def Frame (s s' : TableState) (written : TreeName → Prop) : Prop := ∀ t, ¬ written t → s'.trees.tree t = s.trees.tree t

theorem Frame.refl (s : TableState) (written : TreeName → Prop) : Frame s s written := fun _ _ => rfl

theorem Frame.trans {s s' s'' : TableState} {written : TreeName → Prop} (h : Frame s s' written) (h' : Frame s' s'' written) :
    Frame s s'' written := fun t ht => (h' t ht).trans (h t ht)

theorem Frame.mono {s s' : TableState} {written written' : TreeName → Prop} (h : Frame s s' written)
    (hw : ∀ t, written t → written' t) : Frame s s' written' := fun t ht => h t fun hx => ht (hw t hx)

theorem Frame.write (s : TableState) (t : TreeName) (m : KeyMap) : Frame s (s.write t m) (fun t' => t' = t) := by
  intro t' ht
  rw [write_trees]
  exact write_tree_ne _ _ ht

theorem image_congr {s s' : TableState} {written : TreeName → Prop} (hf : Frame s s' written)
    (ht : ¬ written (.index idx.schema.name)) (h : idx.Image S (s.trees.tree (.index idx.schema.name)).entries) :
    idx.Image S (s'.trees.tree (.index idx.schema.name)).entries := by
  rw [hf _ ht]
  exact h

/-- **A row comes into an index.** -/
theorem insert_entry_spec (hb : tbl.Bound) (hS : ∀ e ∈ S, tbl.Fits e) (hi : idx ∈ tbl.indexes) {new : Key × Row} (hnew : tbl.Fits new)
    (hkey : ∀ e ∈ S, e.1.rank ≠ new.1.rank) (hconf : ∀ e ∈ S, ¬ idx.Conflict e.2 new.2)
    (himg : idx.Image S (s.trees.tree (.index idx.schema.name)).entries) :
    wp (idx.insert_entry (idx.value new.2) new.1) (fun _ _ => False)
      (fun _ s' => idx.Image (insert new S) (s'.trees.tree (.index idx.schema.name)).entries ∧
        Frame s s' (fun t => t = .index idx.schema.name)) s := by
  unfold IndexBinding.insert_entry
  rw [wp_ite]
  refine ⟨fun hix => ?_, fun hix => ⟨fun key v => ?_, Frame.refl _ _⟩⟩
  · rw [wp_bind]
    refine wp_mono (check_unique_spec hS himg (value_length ..) (hnew.value_hasNaN) hnew.key_hasNaN) ?_ ?_
    · intro _ s₁ hs₁
      rw [hs₁.1, wp_bind]
      refine wp_post (make_entry_key_spec hb hi (value_length ..) (key_length hnew.key)) ?_
      intro key s₁ hs₁
      rw [hs₁.1, hs₁.2]
      have hnone : (s.trees.tree (.index idx.schema.name)).entries.find? (idx.value new.2 ++ new.1) = none := by
        refine SortedMap.find?_eq_none.2 fun x hx hr => ?_
        obtain ⟨-, e, he, -, hk⟩ := (himg x.1 x.2).1 hx
        rw [hk] at hr
        exact hkey e he (Key.rank_append_inj hr (by rw [value_length, value_length])).2
      refine wp_btree_insert hnone ⟨fun key v => ?_, Frame.write _ _ _⟩
      rw [write_trees, write_tree_same, SortedMap.mem_insert, himg]
      refine ⟨?_, ?_⟩
      · rintro (h | ⟨hv, e, he, hie, hk⟩)
        · cases h
          exact ⟨rfl, new, Set.mem_insert _ _, hix, rfl⟩
        · exact ⟨hv, e, Set.mem_insert_of_mem _ he, hie, hk⟩
      · rintro ⟨hv, e, he, hie, hk⟩
        rcases Set.mem_insert_iff.1 he with rfl | he
        · exact Or.inl (by rw [hv, hk])
        · exact Or.inr ⟨hv, e, he, hie, hk⟩
    · rintro _ _ ⟨-, -, hu, e, he, hie, hr, -⟩
      exact hconf e he ⟨hu, hie, hr⟩
  · rw [himg]
    refine and_congr_right fun _ => ⟨fun ⟨e, he, h⟩ => ⟨e, Set.mem_insert_of_mem _ he, h⟩, fun ⟨e, he, hie, hk⟩ => ?_⟩
    rcases Set.mem_insert_iff.1 he with rfl | he
    · exact absurd hie hix
    · exact ⟨e, he, hie, hk⟩

/-- **A row goes out of an index.** -/
theorem remove_entry_spec (hb : tbl.Bound) (hS : tbl.Sound S) (hi : idx ∈ tbl.indexes) {old : Key × Row} (hold : old ∈ S)
    (hpk : pk.rank = old.1.rank) (himg : idx.Image S (s.trees.tree (.index idx.schema.name)).entries) :
    wp (idx.remove_entry (idx.value old.2) pk) (fun _ _ => False)
      (fun _ s' => idx.Image (S \ {old}) (s'.trees.tree (.index idx.schema.name)).entries ∧
        Frame s s' (fun t => t = .index idx.schema.name)) s := by
  have hfit := hS.fits old hold
  unfold IndexBinding.remove_entry
  rw [wp_ite]
  refine ⟨fun hix => ?_, fun hix => ⟨fun key v => ?_, Frame.refl _ _⟩⟩
  · rw [wp_bind]
    refine wp_post (make_entry_key_spec hb hi (value_length ..) ((Key.length_of_rank hpk).trans (key_length hfit.key))) ?_
    intro key s₁ hs₁
    rw [hs₁.1, hs₁.2]
    have hsome : (s.trees.tree (.index idx.schema.name)).entries.find? (idx.value old.2 ++ pk) = some [] := by
      refine SortedMap.find?_eq_some.2 ⟨idx.value old.2 ++ old.1, (himg _ _).2 ⟨rfl, old, hold, hix, rfl⟩, ?_⟩
      rw [Key.rank_append, Key.rank_append, hpk]
    refine wp_btree_remove hsome ⟨fun key v => ?_, Frame.write _ _ _⟩
    rw [write_trees, write_tree_same, SortedMap.mem_erase, himg]
    refine ⟨?_, ?_⟩
    · rintro ⟨⟨hv, e, he, hie, rfl⟩, hne⟩
      refine ⟨hv, e, ⟨he, fun heq => hne ?_⟩, hie, rfl⟩
      rw [Set.mem_singleton_iff.1 heq, Key.rank_append, Key.rank_append, hpk]
    · rintro ⟨hv, e, ⟨he, hne⟩, hie, rfl⟩
      refine ⟨⟨hv, e, he, hie, rfl⟩, fun hr => hne ?_⟩
      exact hS.one e he old hold ((Key.rank_append_inj hr (by rw [value_length, value_length])).2.trans hpk)
  · rw [himg]
    refine and_congr_right fun _ => ⟨fun ⟨e, he, hie, hk⟩ => ⟨e, ⟨he, fun heq => hix ?_⟩, hie, hk⟩,
      fun ⟨e, he, h⟩ => ⟨e, he.1, h⟩⟩
    rw [← Set.mem_singleton_iff.1 heq]
    exact hie

end index

end GSDBEngine
