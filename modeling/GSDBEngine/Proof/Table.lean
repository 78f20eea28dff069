import GSDBEngine.Proof.Contents

/-!
# The calls that change one row

Every check stands before the first write, and what was checked is all that the writes need.

* `Table.write_row_and_indexes_spec`, `Table.remove_row_and_indexes_spec`: **neither throws.**
* `Table.insert_spec`, `Table.update_spec`, `Table.delete_row_spec`: **the call throws and changes nothing, or
  the contents change by the row.**
-/

namespace GSDBEngine

open Eff

/-! ### Contents -/

section sound

variable {tbl : Table} {S : Contents} {e old new : Key × Row} {idx : IndexBinding}

theorem IndexBinding.Conflict.symm {row row' : Row} (h : idx.Conflict row row') : idx.Conflict row' row :=
  ⟨h.1, by rw [← Key.is_indexable_of_rank h.2.2]; exact h.2.1, h.2.2.symm⟩

theorem Table.Sound.mono {S' : Contents} (h : tbl.Sound S) (hs : S' ⊆ S) : tbl.Sound S' where
  fits e he := h.fits e (hs he)
  one e he e' he' := h.one e (hs he) e' (hs he')
  unique idx hi e he e' he' := h.unique idx hi e (hs he) e' (hs he')

theorem Table.sound_empty (tbl : Table) : tbl.Sound ∅ := ⟨fun _ h => h.elim, fun _ h => h.elim, fun _ _ _ h => h.elim⟩

theorem Table.Sound.insert (h : tbl.Sound S) (hn : tbl.New S new) : tbl.Sound (Insert.insert new S) where
  fits e he := by
    rcases Set.mem_insert_iff.1 he with rfl | h1
    · exact hn.fits
    · exact h.fits e h1
  one e he e' he' hr := by
    rcases Set.mem_insert_iff.1 he with h1 | h1
    · rcases Set.mem_insert_iff.1 he' with h2 | h2
      · exact h1.trans h2.symm
      · exact absurd (h1 ▸ hr.symm) (hn.key e' h2)
    · rcases Set.mem_insert_iff.1 he' with h2 | h2
      · exact absurd (h2 ▸ hr) (hn.key e h1)
      · exact h.one e h1 e' h2 hr
  unique idx hi e he e' he' hc := by
    rcases Set.mem_insert_iff.1 he with h1 | h1
    · rcases Set.mem_insert_iff.1 he' with h2 | h2
      · exact h1.trans h2.symm
      · exact absurd (h1 ▸ hc.symm) (hn.unique idx hi e' h2)
    · rcases Set.mem_insert_iff.1 he' with h2 | h2
      · exact absurd (h2 ▸ hc) (hn.unique idx hi e h1)
      · exact h.unique idx hi e h1 e' h2 hc

end sound

namespace Table

variable {tbl : Table} {S : Contents} {s : TableState} {old new : Key × Row} {pk : Key} {bytes : Bytes}

/-! ### Loops over the indexes -/

/-- One index after the other: each has its own tree. -/
theorem forM_indexes {T : Contents} {f : IndexBinding → TableM Unit} {l : List IndexBinding}
    (hf : ∀ idx ∈ l, ∀ s, idx.Image S (s.trees.tree (.index idx.schema.name)).entries →
      wp (f idx) (fun _ _ => False) (fun _ s' => idx.Image T (s'.trees.tree (.index idx.schema.name)).entries ∧
        Frame s s' (fun t => t = .index idx.schema.name)) s)
    (hl : (l.map fun idx => idx.schema.name).Nodup) :
    ∀ s, (∀ idx ∈ l, idx.Image S (s.trees.tree (.index idx.schema.name)).entries) →
      wp (l.forM f) (fun _ _ => False) (fun _ s' => (∀ idx ∈ l, idx.Image T (s'.trees.tree (.index idx.schema.name)).entries) ∧
        Frame s s' (fun t => ∃ idx ∈ l, t = .index idx.schema.name)) s := by
  induction l with
  | nil => exact fun s _ => ⟨fun _ h => absurd h List.not_mem_nil, Frame.refl _ _⟩
  | cons x xs ih =>
    intro s hs
    rw [List.map_cons, List.nodup_cons] at hl
    have hx : ∀ idx ∈ xs, TreeName.index idx.schema.name ≠ .index x.schema.name := fun idx hi h =>
      hl.1 (List.mem_map.2 ⟨idx, hi, by injection h⟩)
    show wp (f x >>= fun _ => xs.forM f) _ _ s
    rw [wp_bind]
    refine wp_post (hf x List.mem_cons_self s (hs x List.mem_cons_self)) fun _ s₁ h₁ => ?_
    have hxs : ∀ idx ∈ xs, idx.Image S (s₁.trees.tree (.index idx.schema.name)).entries := fun idx hi =>
      image_congr h₁.2 (hx idx hi) (hs idx (List.mem_cons_of_mem _ hi))
    refine wp_post (ih (fun idx hi => hf idx (List.mem_cons_of_mem _ hi)) hl.2 s₁ hxs) fun _ s₂ h₂ => ⟨fun idx hi => ?_, ?_⟩
    · rcases List.mem_cons.1 hi with rfl | hi
      · exact image_congr h₂.2 (fun ⟨j, hj, h⟩ => hx j hj h.symm) h₁.1
      · exact h₂.1 idx hi
    · refine (h₁.2.mono fun t ht => ⟨x, List.mem_cons_self, ht⟩).trans (h₂.2.mono fun t ht => ?_)
      obtain ⟨idx, hi, ht⟩ := ht
      exact ⟨idx, List.mem_cons_of_mem _ hi, ht⟩

theorem rows_ne_index (tbl : Table) (name : Bytes) : tbl.rows ≠ .index name := fun h => by cases h

variable {bytes_of : Row → Bytes → Prop}

theorem Holds.image (h : tbl.Holds bytes_of s.trees S) {idx : IndexBinding} (hi : idx ∈ tbl.indexes) :
    idx.Image S (s.trees.tree (.index idx.schema.name)).entries := h.indexes idx hi

/-- What the primary tree has under a key. -/
theorem Holds.find_none (h : tbl.Holds bytes_of s.trees S) :
    (s.trees.tree tbl.rows).entries.find? pk = none ↔ ∀ e ∈ S, e.1.rank ≠ pk.rank := by
  rw [SortedMap.find?_eq_none]
  refine ⟨fun hn e he => ?_, fun hn x hx => ?_⟩
  · obtain ⟨b, hb, -⟩ := h.stored e he
    exact hn (e.1, b) hb
  · obtain ⟨row, hr, -⟩ := h.rows x.1 x.2 hx
    exact hn (x.1, row) hr

theorem Holds.find_some (h : tbl.Holds bytes_of s.trees S) (hf : (s.trees.tree tbl.rows).entries.find? pk = some bytes) :
    ∃ e ∈ S, e.1.rank = pk.rank ∧ bytes_of e.2 bytes := by
  obtain ⟨k, hm, hr⟩ := SortedMap.find?_eq_some.1 hf
  obtain ⟨row, he, hb⟩ := h.rows k bytes hm
  exact ⟨(k, row), he, hr, hb⟩

theorem Holds.find_of_mem (h : tbl.Holds bytes_of s.trees S) (hold : old ∈ S) (hr : pk.rank = old.1.rank) :
    ∃ b, (s.trees.tree tbl.rows).entries.find? pk = some b := by
  obtain ⟨b, hb, -⟩ := h.stored old hold
  exact ⟨b, SortedMap.find?_eq_some.2 ⟨old.1, hb, hr.symm⟩⟩

/-- **A row that nothing conflicts with comes.** -/
theorem write_row_and_indexes_spec (hb : tbl.Bound) (hrep : tbl.Holds bytes_of s.trees S) (hS : tbl.Sound S) (hn : tbl.New S new)
    (hbytes : bytes_of new.2 bytes) :
    wp (tbl.write_row_and_indexes new.1 new.2 bytes) (fun _ _ => False)
      (fun _ s' => tbl.Holds bytes_of s'.trees (Insert.insert new S) ∧ Frame s s' tbl.Owns) s := by
  have hnone := hrep.find_none.2 hn.key
  unfold write_row_and_indexes
  rw [wp_bind]
  refine wp_btree_insert hnone ?_
  have hframe := Frame.write s tbl.rows ((s.trees.tree tbl.rows).entries.insert new.1 bytes hnone)
  have himg : ∀ idx ∈ tbl.indexes, idx.Image S ((s.write tbl.rows _).trees.tree (.index idx.schema.name)).entries :=
    fun idx hi => image_congr hframe (fun h => rows_ne_index tbl _ h.symm) (hrep.image hi)
  refine wp_post (forM_indexes (T := Insert.insert new S) (fun idx hi s₁ h₁ => ?_) hb.names _ himg) fun _ s₂ h₂ => ?_
  · rw [hn.fits.values idx hi, wp_bind]
    exact insert_entry_spec hb hS.fits hi hn.fits hn.key (hn.unique idx hi) h₁
  · have hmem : ∀ k b, (k, b) ∈ (s₂.trees.tree tbl.rows).entries.entries ↔
        (k, b) = (new.1, bytes) ∨ (k, b) ∈ (s.trees.tree tbl.rows).entries.entries := fun k b => by
      rw [h₂.2 _ fun ⟨idx, _, h⟩ => rows_ne_index tbl _ h, write_trees, write_tree_same, SortedMap.mem_insert]
    refine ⟨⟨fun k b hk => ?_, fun e he => ?_, h₂.1⟩, ?_⟩
    · rcases (hmem k b).1 hk with h | hk
      · cases h
        exact ⟨new.2, Set.mem_insert _ _, hbytes⟩
      · obtain ⟨row, hr, hb'⟩ := hrep.rows k b hk
        exact ⟨row, Set.mem_insert_of_mem _ hr, hb'⟩
    · rcases Set.mem_insert_iff.1 he with rfl | he
      · exact ⟨bytes, (hmem _ _).2 (Or.inl rfl), hbytes⟩
      · obtain ⟨b, hm, hb'⟩ := hrep.stored e he
        exact ⟨b, (hmem _ _).2 (Or.inr hm), hb'⟩
    · exact (hframe.mono fun t ht => Or.inl ht).trans (h₂.2.mono fun t ht => Or.inr ht)

/-- **A row of the contents goes.** -/
theorem remove_row_and_indexes_spec (hb : tbl.Bound) (hrep : tbl.Holds bytes_of s.trees S) (hS : tbl.Sound S) (hold : old ∈ S)
    (hpk : pk.rank = old.1.rank) :
    wp (tbl.remove_row_and_indexes pk old.2) (fun _ _ => False)
      (fun _ s' => tbl.Holds bytes_of s'.trees (S \ {old}) ∧ Frame s s' tbl.Owns) s := by
  obtain ⟨b, hfind⟩ := hrep.find_of_mem hold hpk
  unfold remove_row_and_indexes
  rw [wp_bind]
  refine wp_btree_remove hfind ?_
  have hframe := Frame.write s tbl.rows ((s.trees.tree tbl.rows).entries.erase pk)
  have himg : ∀ idx ∈ tbl.indexes, idx.Image S ((s.write tbl.rows _).trees.tree (.index idx.schema.name)).entries :=
    fun idx hi => image_congr hframe (fun h => rows_ne_index tbl _ h.symm) (hrep.image hi)
  refine wp_post (forM_indexes (T := S \ {old}) (fun idx hi s₁ h₁ => ?_) hb.names _ himg) fun _ s₂ h₂ => ?_
  · rw [(hS.fits old hold).values idx hi, wp_bind]
    exact remove_entry_spec hb hS hi hold hpk h₁
  · have hmem : ∀ k b, (k, b) ∈ (s₂.trees.tree tbl.rows).entries.entries ↔
        (k, b) ∈ (s.trees.tree tbl.rows).entries.entries ∧ k.rank ≠ pk.rank := fun k b => by
      rw [h₂.2 _ fun ⟨idx, _, h⟩ => rows_ne_index tbl _ h, write_trees, write_tree_same, SortedMap.mem_erase]
    refine ⟨⟨fun k b hk => ?_, fun e he => ?_, h₂.1⟩, ?_⟩
    · obtain ⟨hm, hne⟩ := (hmem k b).1 hk
      obtain ⟨row, hr, hb'⟩ := hrep.rows k b hm
      refine ⟨row, ⟨hr, fun h => hne ?_⟩, hb'⟩
      rw [hpk, ← Set.mem_singleton_iff.1 h]
    · obtain ⟨b, hm, hb'⟩ := hrep.stored e he.1
      exact ⟨b, (hmem _ _).2 ⟨hm, fun h => he.2 (hS.one e he.1 old hold (h.trans hpk))⟩, hb'⟩
    · exact (hframe.mono fun t ht => Or.inl ht).trans (h₂.2.mono fun t ht => Or.inr ht)

/-! ### What is stored -/

theorem Holds.mono {bytes_of' : Row → Bytes → Prop} (h : tbl.Holds bytes_of s.trees S)
    (hb : ∀ e ∈ S, ∀ bytes, bytes_of e.2 bytes → bytes_of' e.2 bytes) : tbl.Holds bytes_of' s.trees S where
  rows k bytes hk := by
    obtain ⟨row, he, hrow⟩ := h.rows k bytes hk
    exact ⟨row, he, hb _ he _ hrow⟩
  stored e he := by
    obtain ⟨bytes, hmem, hrow⟩ := h.stored e he
    exact ⟨bytes, hmem, hb e he _ hrow⟩
  indexes := h.indexes

theorem read_short {schema : TableSchema} {row : Row} (h : deserialize_row schema bytes = .ok row) : Row.Short row := by
  unfold deserialize_row at h
  cases hread : RowSerializer.deserialize bytes schema with
  | error e =>
    rw [hread] at h
    cases h
  | ok row' =>
    rw [hread] at h
    obtain rfl := Except.ok.inj h
    exact RowSerializer.deserialize_short hread

/-- The rows that are read are short. -/
theorem contents_short (h : tbl.Represents s.trees S) : Contents.Short S := by
  intro e he
  obtain ⟨bytes, -, hread⟩ := h.stored e he
  exact read_short hread

theorem serialize_row_ok {schema : TableSchema} {row : Row} :
    serialize_row schema row = .ok bytes ↔ RowSerializer.serialize row schema = .ok bytes := by
  unfold serialize_row
  cases RowSerializer.serialize row schema with
  | error e => exact ⟨fun h => (by cases h), fun h => (by cases h)⟩
  | ok b => exact ⟨fun h => (by cases h; rfl), fun h => (by cases h; rfl)⟩

theorem deserialize_row_of_short {schema : TableSchema} {row : Row} (h : serialize_row schema row = .ok bytes) (hs : Row.Short row) :
    deserialize_row schema bytes = .ok row := by
  unfold deserialize_row
  rw [(RowSerializer.deserialize_iff (serialize_row_ok.1 h)).2 hs]
  rfl

/-- **The trees store the contents.** What was written of a row may be read as another one. -/
structure Storing (tbl : Table) (s : TableState) (S : Contents) : Prop where
  stores : tbl.Stores s.trees S
  sound : tbl.Sound S

theorem storing_of_represents (h : tbl.Represents s.trees S) (hS : tbl.Sound S) : tbl.Storing s S :=
  ⟨h.mono fun _ _ _ => Or.inl, hS⟩

/-- **What is stored is read**, where the rows are short. -/
theorem Storing.represents (h : tbl.Storing s S) (hshort : Contents.Short S) : tbl.Represents s.trees S :=
  h.stores.mono fun e he _ hbytes => hbytes.elim id fun hwritten => deserialize_row_of_short hwritten (hshort e he)

/-! ### Checks -/

/-- **The checks before a write**, of a row that is stored under `pk` now or is not stored. -/
theorem check_all_unique_constraints_spec (hrep : tbl.Holds bytes_of s.trees S) (hS : tbl.Sound S) {row : Row}
    (hrow : ∀ v ∈ row, v.isNaN = false) (hpk : pk.hasNaN = false) :
    wp (tbl.check_all_unique_constraints row pk)
      (fun err s' => s' = s ∧ ((err = .column_out_of_range ∧ ∃ idx ∈ tbl.indexes, idx.extract_indexed_value row = .error err) ∨
        ∃ idx ∈ tbl.indexes, err = .unique_violation idx.schema.name ∧ ∃ e ∈ S, idx.Conflict e.2 row ∧ e.1.rank ≠ pk.rank))
      (fun _ s' => s' = s ∧ ∀ idx ∈ tbl.indexes, idx.extract_indexed_value row = .ok (idx.value row) ∧
        ∀ e ∈ S, idx.Conflict e.2 row → e.1.rank = pk.rank) s := by
  unfold check_all_unique_constraints
  have h := wp_forM (f := fun idx : IndexBinding => do
      let indexed_value ← liftE (idx.extract_indexed_value row)
      idx.check_unique indexed_value pk)
    (E := fun err s' => s' = s ∧ ((err = .column_out_of_range ∧ ∃ idx ∈ tbl.indexes, idx.extract_indexed_value row = .error err) ∨
        ∃ idx ∈ tbl.indexes, err = .unique_violation idx.schema.name ∧ ∃ e ∈ S, idx.Conflict e.2 row ∧ e.1.rank ≠ pk.rank))
    (I := fun rest s' => s' = s ∧ (∀ idx ∈ rest, idx ∈ tbl.indexes) ∧ ∀ idx ∈ tbl.indexes, idx ∈ rest ∨
      (idx.extract_indexed_value row = .ok (idx.value row) ∧ ∀ e ∈ S, idx.Conflict e.2 row → e.1.rank = pk.rank)) ?_
    tbl.indexes s ⟨rfl, fun _ h => h, fun _ h => Or.inl h⟩
  · refine wp_post h fun _ s' h' => ⟨h'.1, fun idx hi => ?_⟩
    rcases h'.2.2 idx hi with h | h
    · exact absurd h List.not_mem_nil
    · exact h
  · rintro idx rest s₁ ⟨rfl, hsub, hdone⟩
    have hi := hsub idx List.mem_cons_self
    rw [wp_bind]
    refine wp_liftE (fun iv hiv => ?_) fun err herr => ⟨rfl, .inl ⟨extract_indexed_value_error herr, idx, hi, herr⟩⟩
    obtain rfl := extract_value hiv
    refine wp_mono (check_unique_spec hS.fits (hrep.image hi) (value_length ..) (value_hasNaN hrow) hpk) ?_ ?_
    · intro _ s₂ h₂
      refine ⟨h₂.1, fun i hr => hsub i (List.mem_cons_of_mem _ hr), fun i hi' => ?_⟩
      rcases hdone i hi' with h | h
      · rcases List.mem_cons.1 h with rfl | h
        · exact Or.inr ⟨hiv, fun e he hc => h₂.2 hc.1 e he hc.2.1 hc.2.2⟩
        · exact Or.inl h
      · exact Or.inr h
    · rintro err s₂ ⟨h₂, rfl, hu, e, he, hix, hr, hne⟩
      exact ⟨h₂, .inr ⟨idx, hi, rfl, e, he, ⟨hu, hix, hr⟩, hne⟩⟩

/-! ### The counter -/

/-- Leaves the counter alone. -/
def Still {α : Type} (m : TableM α) : Prop :=
  ∀ s, wp m (fun _ s' => s'.next_auto_increment = s.next_auto_increment) (fun _ s' => s'.next_auto_increment = s.next_auto_increment) s

section still

variable {α β : Type}

theorem Still.bind {m : TableM β} {f : β → TableM α} (hm : Still m) (hf : ∀ b, Still (f b)) : Still (m >>= f) := by
  intro s
  rw [wp_bind]
  refine wp_post (hm s) fun b s₁ h₁ => wp_mono (hf b s₁) (fun _ _ h₂ => ?_) fun _ _ h₂ => ?_
  · exact h₂.trans h₁
  · exact h₂.trans h₁

theorem still_pure (a : α) : Still (pure a : TableM α) := fun _ => rfl

theorem still_throw (e : TableErr) : Still (throw e : TableM α) := fun _ => rfl

theorem still_liftE (x : Except TableErr α) : Still (liftE x : TableM α) := by
  cases x with
  | ok a => exact still_pure a
  | error e => exact still_throw e

theorem still_forM {f : β → TableM Unit} (h : ∀ b, Still (f b)) : ∀ l : List β, Still (l.forM f)
  | [] => still_pure _
  | b :: l => (h b).bind fun _ => still_forM h l

theorem still_search (t : TreeName) (key : Key) : Still (btree_search t key) := fun _ => rfl

theorem still_scan_all (t : TreeName) : Still (btree_scan_all t) := fun _ => rfl

theorem write_next (s : TableState) (t : TreeName) (m : KeyMap) : (s.write t m).next_auto_increment = s.next_auto_increment := by
  cases t <;> rfl

theorem still_insert (t : TreeName) (key : Key) (value : Bytes) : Still (btree_insert t key value) := by
  intro s
  unfold btree_insert
  rw [wp_bind, wp_get]
  split
  · exact rfl
  · exact write_next s t _

theorem still_remove (t : TreeName) (key : Key) : Still (btree_remove t key) := by
  intro s
  unfold btree_remove
  rw [wp_bind, wp_get]
  split
  · exact rfl
  · exact write_next s t _

theorem still_check_unique (idx : IndexBinding) (indexed_value primary_key : Key) : Still (idx.check_unique indexed_value primary_key) := by
  unfold IndexBinding.check_unique
  split
  · refine ((still_scan_all _).bind fun _ => still_pure _).bind fun existing => ?_
    split
    · exact still_throw _
    · exact still_pure _
  · exact still_pure _

theorem still_make_entry_key (idx : IndexBinding) (indexed_value primary_key : Key) : Still (idx.make_entry_key indexed_value primary_key) := by
  intro s
  unfold IndexBinding.make_entry_key
  dsimp only
  split
  · exact rfl
  · split
    · exact rfl
    · exact rfl

theorem still_insert_entry (idx : IndexBinding) (indexed_value primary_key : Key) : Still (idx.insert_entry indexed_value primary_key) := by
  unfold IndexBinding.insert_entry
  split
  · exact (still_check_unique _ _ _).bind fun _ => (still_make_entry_key _ _ _).bind fun _ => still_insert _ _ _
  · exact still_pure _

theorem still_remove_entry (idx : IndexBinding) (indexed_value primary_key : Key) : Still (idx.remove_entry indexed_value primary_key) := by
  unfold IndexBinding.remove_entry
  split
  · exact (still_make_entry_key _ _ _).bind fun _ => still_remove _ _
  · exact still_pure _

theorem still_write_row (tbl : Table) (primary_key : Key) (row : Row) (bytes : Bytes) : Still (tbl.write_row_and_indexes primary_key row bytes) :=
  (still_insert _ _ _).bind fun _ => still_forM (fun idx => (still_liftE _).bind fun iv => still_insert_entry idx iv primary_key) _

theorem still_remove_row (tbl : Table) (primary_key : Key) (old_row : Row) : Still (tbl.remove_row_and_indexes primary_key old_row) :=
  (still_remove _ _).bind fun _ => still_forM (fun idx => (still_liftE _).bind fun iv => still_remove_entry idx iv primary_key) _

end still

/-! ### AUTO_INCREMENT -/

theorem Fits.takes {e : Key × Row} (h : tbl.Fits e) :
    e.2.length = tbl.schema.columns.length ∧ RowSerializer.InColumns RowSerializer.Takes tbl.schema.columns e.2 := by
  obtain ⟨b, hb⟩ := h.serial
  exact RowSerializer.serialize_ok.1 ⟨b, serialize_row_ok.1 hb⟩

/-- The key of such a table is an INT. -/
theorem Fits.auto_key {e : Key × Row} (h : tbl.Fits e) (ha : tbl.schema.auto_increment_column.isSome = true) :
    ∃ v, e.1 = [.int v] := by
  unfold TableSchema.auto_increment_column at ha
  split at ha
  · rename_i i hi
    split at ha
    · rename_i col hcol
      split at ha
      · rename_i hint
        obtain ⟨hk, hmem⟩ := extract_primary_key_go h.key
        rw [hi] at hk hmem
        obtain ⟨v, hv, hn⟩ := hmem i List.mem_cons_self
        have ht := h.takes.2 i.toNat col v hcol hv
        rw [RowSerializer.Takes, if_neg (by rw [hn]; decide)] at ht
        obtain ⟨b, hb⟩ := ht
        obtain ⟨x, -, rfl, -⟩ | ⟨x, hx, -⟩ | ⟨x, hx, -⟩ | ⟨x, hx, -⟩ := RowSerializer.encode_value_cases hb
        · refine ⟨x, hk.trans ?_⟩
          rw [List.map_cons, List.map_nil, hv]
          rfl
        all_goals
          rw [hint.1] at hx
          cases hx
      · cases ha
    · cases ha
  · cases ha

/-- The counter past a key. -/
def advanced (tbl : Table) (next : UInt32) (key : Key) : UInt32 :=
  if tbl.schema.auto_increment_column.isSome then
    match key with
    | .int v :: _ => if v.toUInt32 ≥ next then v.toUInt32 + 1 else next
    | _ => next
  else next

theorem advance_auto_increment_spec {e : Key × Row} (h : tbl.Fits e) : wp (tbl.advance_auto_increment e.1) (fun _ _ => False)
    (fun _ s' => s'.trees = s.trees ∧ s'.next_auto_increment = tbl.advanced s.next_auto_increment e.1) s := by
  unfold advance_auto_increment advanced
  rw [wp_ite]
  refine ⟨fun ha => ?_, fun hno => ⟨rfl, (if_neg hno).symm⟩⟩
  obtain ⟨v, hv⟩ := h.auto_key ha
  rw [hv, if_pos ha]
  show (if v.toUInt32 ≥ s.next_auto_increment then { s with next_auto_increment := v.toUInt32 + 1 } else s).trees = s.trees ∧
    (if v.toUInt32 ≥ s.next_auto_increment then { s with next_auto_increment := v.toUInt32 + 1 } else s).next_auto_increment =
      if v.toUInt32 ≥ s.next_auto_increment then v.toUInt32 + 1 else s.next_auto_increment
  split
  · exact ⟨rfl, rfl⟩
  · exact ⟨rfl, rfl⟩

/-- The one column of the key. -/
theorem auto_column_key {i : ℕ} (ha : tbl.schema.auto_increment_column = some i) {row : Row} {key : Key}
    (h : tbl.schema.extract_primary_key row = .ok key) : ∃ x, row[i]? = some x ∧ key = [x] := by
  unfold TableSchema.auto_increment_column at ha
  split at ha
  · rename_i c hc
    split at ha
    · split at ha
      · obtain rfl := Option.some.inj ha
        obtain ⟨hkey, hmem⟩ := extract_primary_key_go h
        rw [hc] at hkey hmem
        obtain ⟨x, hx, -⟩ := hmem c List.mem_cons_self
        refine ⟨x, hx, hkey.trans ?_⟩
        rw [List.map_cons, List.map_nil, hx]
        rfl
      · cases ha
    · cases ha
  · cases ha

theorem assign_key_spec {row : Row} : wp (tbl.assign_key row)
    (fun err s' => s' = s ∧ err.plain ∧ ∀ key, tbl.schema.extract_primary_key (tbl.assigned s.next_auto_increment row) ≠ .ok key)
    (fun r s' => s' = s ∧ r = tbl.assigned s.next_auto_increment row) s := by
  unfold assign_key assigned
  cases ha : tbl.schema.auto_increment_column with
  | none => exact ⟨rfl, rfl⟩
  | some i =>
    simp only
    cases hr : row[i]? with
    | none =>
      refine ⟨rfl, ⟨rfl, by simp⟩, fun key hkey => ?_⟩
      obtain ⟨x, hx, -⟩ := auto_column_key ha hkey
      rw [Option.any_none, if_neg Bool.false_ne_true, hr] at hx
      cases hx
    | some v =>
      by_cases hn : v.isNull = true
      · simp only [Option.any_some]
        rw [if_pos hn, if_pos hn]
        exact ⟨rfl, rfl⟩
      · simp only [Option.any_some]
        rw [if_neg hn, if_neg hn]
        exact ⟨rfl, rfl⟩

theorem assigned_numbers {row : Row} (hrow : ∀ v ∈ row, v.isNaN = false) (next : UInt32) :
    ∀ v ∈ tbl.assigned next row, v.isNaN = false := by
  unfold assigned
  split
  · exact hrow
  · split
    · intro v hv
      rcases List.mem_or_eq_of_mem_set hv with hv | rfl
      · exact hrow v hv
      · rfl
    · exact hrow

theorem assigned_short {row : Row} (hrow : Row.Short row) (next : UInt32) : Row.Short (tbl.assigned next row) := by
  unfold assigned
  split
  · exact hrow
  · split
    · intro str hv
      rcases List.mem_or_eq_of_mem_set hv with hv | h
      · exact hrow str hv
      · cases h
    · exact hrow

/-! ### INSERT -/

/-- **A row is inserted, or nothing is changed**; it is refused only if something is in its way. -/
theorem insert_stores (hb : tbl.Bound) (h : tbl.Storing s S) {row : Row} (hrow : ∀ v ∈ row, v.isNaN = false) :
    wp (tbl.insert row)
      (fun err s' => s' = s ∧ (∀ key, ¬ tbl.New S (key, tbl.assigned s.next_auto_increment row)) ∧
        (err = .duplicate_primary_key → ∃ key, tbl.schema.extract_primary_key (tbl.assigned s.next_auto_increment row) = .ok key ∧
          ∃ e ∈ S, e.1.rank = key.rank) ∧
        ∀ name, err.unique_index = some name → ∃ idx ∈ tbl.indexes, idx.schema.name = name ∧
          ∃ key, tbl.schema.extract_primary_key (tbl.assigned s.next_auto_increment row) = .ok key ∧
            ∃ e ∈ S, idx.Conflict e.2 (tbl.assigned s.next_auto_increment row))
      (fun key s' => tbl.New S (key, tbl.assigned s.next_auto_increment row) ∧
        tbl.Storing s' (Insert.insert (key, tbl.assigned s.next_auto_increment row) S) ∧ Frame s s' tbl.Owns ∧
        s'.next_auto_increment = tbl.advanced s.next_auto_increment key) s := by
  unfold insert
  have hnum : ∀ v ∈ tbl.assigned s.next_auto_increment row, v.isNaN = false := assigned_numbers hrow _
  rw [wp_bind]
  refine wp_mono assign_key_spec ?_ fun err s' h' => ⟨h'.1, fun key hnew => h'.2.2 key hnew.fits.key, h'.2.1.elim⟩
  rintro row' s₁ ⟨rfl, rfl⟩
  rw [wp_bind]
  refine wp_liftE (fun key hkey => ?_) fun err herr => ⟨rfl, fun key hnew => ?_, (extract_primary_key_error herr).elim⟩
  · -- the row can be new under this key only
    have hkeys : ∀ key', tbl.New S (key', tbl.assigned s₁.next_auto_increment row) → key' = key := fun key' hnew =>
      Except.ok.inj (hnew.fits.key.symm.trans hkey)
    rw [wp_bind, wp_btree_search]
    cases hfind : (s₁.trees.tree tbl.rows).entries.find? key with
    | some b =>
      obtain ⟨e, he, hr, -⟩ := h.stores.find_some hfind
      refine ⟨rfl, fun key' hnew => ?_, fun _ => ⟨key, hkey, e, he, hr⟩, fun name hn => by cases hn⟩
      obtain rfl := hkeys key' hnew
      exact hnew.key e he hr
    | none =>
      have hnone := h.stores.find_none.1 hfind
      simp only [Option.isSome_none, Bool.false_eq_true, if_false, wp_bind]
      refine wp_mono (check_all_unique_constraints_spec h.stores h.sound hnum (key_hasNaN hkey hnum)) ?_ ?_
      · rintro _ s₂ ⟨rfl, hchk⟩
        refine wp_liftE (fun bytes hbytes => ?_) fun err herr => ⟨rfl, fun key' hnew => ?_, (serialize_row_error herr).elim⟩
        · have hnew : tbl.New S (key, tbl.assigned s₂.next_auto_increment row) :=
            ⟨⟨hkey, ⟨bytes, hbytes⟩, fun idx hi => (hchk idx hi).1, hnum⟩, hnone,
              fun idx hi e he hc => hnone e he ((hchk idx hi).2 e he hc)⟩
          refine wp_mono (wp_and (write_row_and_indexes_spec hb h.stores h.sound hnew (.inr hbytes)) (still_write_row tbl _ _ _ _))
            (fun _ s₃ h₃ => ?_) fun _ _ herr => herr.1.elim
          refine wp_mono (advance_auto_increment_spec hnew.fits) (fun _ s₄ h₄ => ⟨hnew, ⟨?_, h.sound.insert hnew⟩, fun t ht => ?_, ?_⟩)
            fun _ _ herr => herr.elim
          · rw [h₄.1]
            exact h₃.1.1
          · rw [h₄.1]
            exact h₃.1.2 t ht
          · rw [h₄.2, h₃.2]
        · obtain ⟨bytes, hbytes⟩ := hnew.fits.serial
          rw [hbytes] at herr
          cases herr
      · rintro err s₂ ⟨rfl, ⟨rfl, idx, hi, herr⟩ | ⟨idx, hi, rfl, e, he, hc, -⟩⟩
        · refine ⟨rfl, fun key' hnew => ?_, fun heq => (by cases heq), fun name hn => by cases hn⟩
          rw [hnew.fits.values idx hi] at herr
          cases herr
        · refine ⟨rfl, fun key' hnew => hnew.unique idx hi e he hc, fun heq => (by cases heq), fun name hn => ?_⟩
          exact ⟨idx, hi, Option.some.inj hn, key, hkey, e, he, hc⟩
  · rw [hnew.fits.key] at herr
    cases herr

/-! ### UPDATE and DELETE -/

/-- The new values keep a row's length and put in no value but theirs. -/
theorem apply_values_mem {nv : NewValues} : ∀ {row row' : Row}, apply_values row nv = .ok row' →
    row'.length = row.length ∧ ∀ v ∈ row', v ∈ row ∨ ∃ p ∈ nv, p.2 = v := by
  induction nv with
  | nil =>
    intro row row' h
    cases h
    exact ⟨rfl, fun v hv => Or.inl hv⟩
  | cons p nv ih =>
    intro row row' h
    unfold apply_values at h
    by_cases hlt : p.1 < row.length
    · rw [if_pos hlt] at h
      obtain ⟨h1, h2⟩ := ih h
      refine ⟨h1.trans List.length_set, fun v hv => ?_⟩
      rcases h2 v hv with hv | ⟨q, hq, rfl⟩
      · rcases List.mem_or_eq_of_mem_set hv with hv | rfl
        · exact Or.inl hv
        · exact Or.inr ⟨p, List.mem_cons_self, rfl⟩
      · exact Or.inr ⟨q, List.mem_cons_of_mem _ hq, rfl⟩
    · rw [if_neg hlt] at h
      cases h

theorem apply_values_error {nv : NewValues} {err : TableErr} : ∀ {row : Row}, apply_values row nv = .error err → err.plain := by
  induction nv with
  | nil => intro row h; cases h
  | cons p nv ih =>
    intro row h
    unfold apply_values at h
    by_cases hlt : p.1 < row.length
    · rw [if_pos hlt] at h
      exact ih h
    · rw [if_neg hlt] at h
      cases h
      exact ⟨rfl, by simp⟩

/-- A column behind the last one has no value to replace. -/
theorem apply_values_lt {nv : NewValues} : ∀ {row row' : Row}, apply_values row nv = .ok row' → ∀ p ∈ nv, p.1 < row.length := by
  induction nv with
  | nil => exact fun _ p hp => absurd hp List.not_mem_nil
  | cons p nv ih =>
    intro row row' h q hq
    unfold apply_values at h
    by_cases hlt : p.1 < row.length
    · rw [if_pos hlt] at h
      rcases List.mem_cons.1 hq with rfl | hq
      · exact hlt
      · exact (ih h q hq).trans_eq List.length_set
    · rw [if_neg hlt] at h
      cases h

theorem apply_values_short {nv : NewValues} {row row' : Row} (h : apply_values row nv = .ok row') (hrow : Row.Short row)
    (hnv : Row.Short (nv.map Prod.snd)) : Row.Short row' := by
  intro str hv
  rcases (apply_values_mem h).2 _ hv with hv | ⟨p, hp, he⟩
  · exact hrow str hv
  · exact hnv str (List.mem_map.2 ⟨p, hp, he⟩)

theorem apply_values_numbers {nv : NewValues} {row row' : Row} (h : apply_values row nv = .ok row')
    (hrow : ∀ v ∈ row, v.isNaN = false) (hnv : ∀ p ∈ nv, p.2.isNaN = false) : ∀ v ∈ row', v.isNaN = false := by
  intro v hv
  rcases (apply_values_mem h).2 v hv with hv | ⟨p, hp, rfl⟩
  · exact hrow v hv
  · exact hnv p hp

/-- A column that gets no new value. -/
theorem apply_values_keep {i : ℕ} : ∀ {nv : NewValues} {row row' : Row}, apply_values row nv = .ok row' → (∀ p ∈ nv, p.1 ≠ i) → row'[i]? = row[i]?
  | [], row, row', h, _ => by
    cases h
    rfl
  | p :: nv, row, row', h, hne => by
    unfold apply_values at h
    split at h
    · have ih := apply_values_keep h fun q hq => hne q (List.mem_cons_of_mem _ hq)
      rw [ih, List.getElem?_set_ne (hne p List.mem_cons_self)]
    · cases h

/-- A column that gets one has it in every row. -/
theorem apply_values_same {i : ℕ} : ∀ {nv : NewValues} {row row' other other' : Row}, apply_values row nv = .ok row' →
    apply_values other nv = .ok other' → (∃ p ∈ nv, p.1 = i) → row'[i]? = other'[i]?
  | [], _, _, _, _, _, _, hset => by
    obtain ⟨p, hp, -⟩ := hset
    exact absurd hp List.not_mem_nil
  | p :: nv, row, row', other, other', h, h', hset => by
    unfold apply_values at h h'
    split at h
    · rename_i hlt
      split at h'
      · rename_i hlt'
        by_cases hlater : ∃ q ∈ nv, q.1 = i
        · exact apply_values_same h h' hlater
        · have hkeep : ∀ q ∈ nv, q.1 ≠ i := fun q hq heq => hlater ⟨q, hq, heq⟩
          obtain ⟨q, hq, rfl⟩ := hset
          rcases List.mem_cons.1 hq with rfl | hq
          · rw [apply_values_keep h hkeep, apply_values_keep h' hkeep, List.getElem?_set_self hlt, List.getElem?_set_self hlt']
          · exact absurd rfl (hkeep q hq)
      · cases h'
    · cases h

/-- One row becomes one row. -/
theorem Becomes.eq {nv : NewValues} {new' : Key × Row} (h : tbl.Becomes nv old new) (h' : tbl.Becomes nv old new') : new = new' := by
  have hrow : new.2 = new'.2 := Except.ok.inj (h.applied.symm.trans h'.applied)
  have hkey := h'.key
  rw [← hrow] at hkey
  exact Prod.ext (Except.ok.inj (h.key.symm.trans hkey)) hrow

/-- **Whether a row can be written with the new values** is the same for every stored row. -/
theorem Becomes.serial {nv : NewValues} {old' new' : Key × Row} (h : tbl.Becomes nv old new) (h' : tbl.Becomes nv old' new')
    (hold' : tbl.Fits old') (hbytes : serialize_row tbl.schema new.2 = .ok bytes) : ∃ bytes', serialize_row tbl.schema new'.2 = .ok bytes' := by
  obtain ⟨-, htakes⟩ := RowSerializer.serialize_ok.1 ⟨bytes, serialize_row_ok.1 hbytes⟩
  obtain ⟨hlen, hold⟩ := hold'.takes
  have hwritten : ∃ bytes', RowSerializer.serialize new'.2 tbl.schema = .ok bytes' := by
    refine RowSerializer.serialize_ok.2 ⟨(apply_values_mem h'.applied).1.trans hlen, fun k col v hcol hv => ?_⟩
    by_cases hset : ∃ p ∈ nv, p.1 = k
    · refine htakes k col v hcol ?_
      rw [apply_values_same h.applied h'.applied hset, hv]
    · refine hold k col v hcol ?_
      rw [← apply_values_keep h'.applied fun p hp heq => hset ⟨p, hp, heq⟩, hv]
  obtain ⟨bytes', hbytes'⟩ := hwritten
  exact ⟨bytes', serialize_row_ok.2 hbytes'⟩

/-- **A row is replaced, or nothing is changed**; it is refused only if something is in its way. -/
theorem update_stores (hb : tbl.Bound) (hrep : tbl.Represents s.trees S) (hS : tbl.Sound S) {nv : NewValues}
    (hnv : ∀ p ∈ nv, p.2.isNaN = false) :
    wp (tbl.update pk nv)
      (fun err s' => s' = s ∧ (∀ old ∈ S, old.1.rank = pk.rank → ∀ new, tbl.Becomes nv old new → ¬ tbl.New (S \ {old}) new) ∧
        ∀ name, err.unique_index = some name → ∃ idx ∈ tbl.indexes, idx.schema.name = name ∧
          ∃ old ∈ S, old.1.rank = pk.rank ∧ ∃ new, tbl.Becomes nv old new ∧ ∃ e ∈ S, e ≠ old ∧ idx.Conflict e.2 new.2)
      (fun _ s' => ∃ old ∈ S, old.1.rank = pk.rank ∧ ∃ new, tbl.Becomes nv old new ∧
        tbl.New (S \ {old}) new ∧ tbl.Storing s' (Insert.insert new (S \ {old})) ∧ Frame s s' tbl.Owns ∧
        s'.next_auto_increment = if Key.eq new.1 pk then s.next_auto_increment else tbl.advanced s.next_auto_increment new.1) s := by
  have h := storing_of_represents hrep hS
  unfold update
  rw [wp_bind, wp_btree_search]
  cases hfind : (s.trees.tree tbl.rows).entries.find? pk with
  | none =>
    refine ⟨rfl, fun old hold hr => ?_, fun name hn => by cases hn⟩
    exact absurd hr (hrep.find_none.1 hfind old hold)
  | some bytes =>
    obtain ⟨old, hold, hr, hbytes⟩ := hrep.find_some hfind
    have hfit := hS.fits old hold
    have hpk : pk.hasNaN = false := (Key.hasNaN_of_rank hr.symm).trans hfit.key_hasNaN
    -- the row that is found is the only one with the key
    have hrefused : (∀ new, tbl.Becomes nv old new → ¬ tbl.New (S \ {old}) new) →
        ∀ old' ∈ S, old'.1.rank = pk.rank → ∀ new, tbl.Becomes nv old' new → ¬ tbl.New (S \ {old'}) new := by
      intro hno old' hold' hr'
      obtain rfl := hS.one old' hold' old hold (hr'.trans hr.symm)
      exact hno
    simp only [hbytes, wp_bind]
    rw [show (liftE (Except.ok old.2) : TableM Row) = pure old.2 from rfl, wp_pure]
    cases hcol : nv.find? fun p => decide (tbl.schema.columns.length ≤ p.1) with
    | some p =>
      refine ⟨rfl, fun old' hold' _ new hnew => ?_, fun name hn => by cases hn⟩
      have hlt := apply_values_lt hnew.applied p (List.mem_of_find?_eq_some hcol)
      have hfound := List.find?_some hcol
      have hle : tbl.schema.columns.length ≤ p.1 := of_decide_eq_true hfound
      have hlen := (hS.fits old' hold').takes.1
      omega
    | none =>
      simp only [wp_bind]
      refine wp_liftE (fun new_row hnew_row => ?_) fun err herr =>
        ⟨rfl, hrefused fun new hnew => ?_, fun name hn => (apply_values_error herr).unique_ne hn⟩
      · have hnum := apply_values_numbers hnew_row hfit.numbers hnv
        refine wp_liftE (fun new_key hkey => ?_) fun err herr =>
          ⟨rfl, hrefused fun new hnew => ?_, fun name hn => (extract_primary_key_error herr).unique_ne hn⟩
        · have hnk := key_hasNaN hkey hnum
          have hbecomes : ∀ new, tbl.Becomes nv old new → new = (new_key, new_row) := fun new hnew => hnew.eq ⟨hnew_row, hkey⟩
          rw [wp_btree_search]
          by_cases hclash : (!Key.eq new_key pk && ((s.trees.tree tbl.rows).entries.find? new_key).isSome) = true
          · rw [if_pos hclash]
            refine ⟨rfl, hrefused fun new hnew hnew' => ?_, fun name hn => by cases hn⟩
            obtain rfl := hbecomes new hnew
            obtain ⟨hne, hsome⟩ := (Bool.and_eq_true_iff ..).1 hclash
            obtain ⟨b, hb⟩ := Option.isSome_iff_exists.1 hsome
            obtain ⟨e, he, hre, -⟩ := hrep.find_some hb
            refine hnew'.key e ⟨he, fun heq => (Key.eq_false_iff hnk hpk).1 hne ?_⟩ hre
            rw [← hr, ← hre, Set.mem_singleton_iff.1 heq]
          · simp only [if_neg hclash, wp_bind]
            -- the new key is free, or it is the row's own
            have hfree : ∀ e ∈ S \ {old}, e.1.rank ≠ new_key.rank := by
              rintro e ⟨he, hne⟩ he'
              rw [Bool.and_eq_true, Key.eq_false_iff hnk hpk] at hclash
              by_cases hsame : new_key.rank = pk.rank
              · exact hne (hS.one e he old hold ((he'.trans hsame).trans hr.symm))
              · have hnone : (s.trees.tree tbl.rows).entries.find? new_key = none := by
                  cases hf : (s.trees.tree tbl.rows).entries.find? new_key with
                  | none => rfl
                  | some b =>
                    rw [hf] at hclash
                    exact absurd ⟨hsame, rfl⟩ hclash
                exact hrep.find_none.1 hnone e he he'
            refine wp_mono (check_all_unique_constraints_spec h.stores hS hnum hpk) ?_ ?_
            · rintro _ s₁ ⟨rfl, hchk⟩
              refine wp_liftE (fun new_bytes hnew_bytes => ?_) fun err herr =>
                ⟨rfl, hrefused fun new hnew hnew' => ?_, fun name hn => (serialize_row_error herr).unique_ne hn⟩
              · have hnew : tbl.New (S \ {old}) (new_key, new_row) := by
                  refine ⟨⟨hkey, ⟨new_bytes, hnew_bytes⟩, fun idx hi => (hchk idx hi).1, hnum⟩, hfree, fun idx hi e he hc => he.2 ?_⟩
                  exact hS.one e he.1 old hold (((hchk idx hi).2 e he.1 hc).trans hr.symm)
                refine wp_mono (wp_and (remove_row_and_indexes_spec hb h.stores hS hold hr.symm) (still_remove_row tbl _ _ _))
                  (fun _ s₂ h₂ => ?_) fun _ _ herr => herr.1.elim
                have hrest : tbl.Sound (S \ {old}) := hS.mono Set.sdiff_subset
                refine wp_mono (wp_and (write_row_and_indexes_spec hb h₂.1.1 hrest hnew (.inr hnew_bytes)) (still_write_row tbl _ _ _ _))
                  (fun _ s₃ h₃ => ?_) fun _ _ herr => herr.1.elim
                have hframe : Frame s₁ s₃ tbl.Owns := h₂.1.2.trans h₃.1.2
                have hnext : s₃.next_auto_increment = s₁.next_auto_increment := h₃.2.trans h₂.2
                have hsound := hrest.insert hnew
                rw [wp_ite]
                refine ⟨fun hchanged => ?_, fun hsame => ?_⟩
                · refine wp_mono (advance_auto_increment_spec hnew.fits) (fun _ s₄ h₄ => ?_) fun _ _ herr => herr.elim
                  refine ⟨old, hold, hr, (new_key, new_row), ⟨hnew_row, hkey⟩, hnew, ⟨?_, hsound⟩, fun t ht => ?_, ?_⟩
                  · rw [h₄.1]
                    exact h₃.1.1
                  · rw [h₄.1]
                    exact hframe t ht
                  · rw [h₄.2, hnext, if_neg (by simpa using hchanged)]
                · refine ⟨old, hold, hr, (new_key, new_row), ⟨hnew_row, hkey⟩, hnew, ⟨h₃.1.1, hsound⟩, hframe, ?_⟩
                  rw [if_pos (by simpa using hsame)]
                  exact hnext
              · obtain rfl := hbecomes new hnew
                obtain ⟨bytes, hbytes⟩ := hnew'.fits.serial
                rw [hbytes] at herr
                cases herr
            · rintro err s₁ ⟨rfl, ⟨rfl, idx, hi, herr⟩ | ⟨idx, hi, rfl, e, he, hc, hne⟩⟩
              · refine ⟨rfl, hrefused fun new hnew hnew' => ?_, fun name hn => by cases hn⟩
                obtain rfl := hbecomes new hnew
                rw [hnew'.fits.values idx hi] at herr
                cases herr
              · have heold : e ≠ old := fun heq => hne (by rw [heq, hr])
                refine ⟨rfl, hrefused fun new hnew hnew' => ?_, fun name hn => ?_⟩
                · obtain rfl := hbecomes new hnew
                  exact hnew'.unique idx hi e ⟨he, heold⟩ hc
                · exact ⟨idx, hi, Option.some.inj hn, old, hold, hr, (new_key, new_row), ⟨hnew_row, hkey⟩, e, he, heold, hc⟩
        · have hrow : new.2 = new_row := Except.ok.inj (hnew.applied.symm.trans hnew_row)
          rw [← hrow, hnew.key] at herr
          cases herr
      · rw [hnew.applied] at herr
        cases herr

/-- **A row is deleted, or nothing is changed.** -/
theorem delete_row_spec (hb : tbl.Bound) (hrep : tbl.Represents s.trees S) (hS : tbl.Sound S) :
    wp (tbl.delete_row pk) (fun err s' => s' = s ∧ err.unique_index = none ∧ ∀ e ∈ S, e.1.rank ≠ pk.rank)
      (fun _ s' => ∃ old ∈ S, old.1.rank = pk.rank ∧ tbl.Represents s'.trees (S \ {old}) ∧ Frame s s' tbl.Owns) s := by
  unfold delete_row
  rw [wp_bind, wp_btree_search]
  cases hfind : (s.trees.tree tbl.rows).entries.find? pk with
  | none => exact ⟨rfl, rfl, hrep.find_none.1 hfind⟩
  | some bytes =>
    obtain ⟨old, hold, hr, hbytes⟩ := hrep.find_some hfind
    simp only [hbytes, wp_bind]
    show wp (tbl.remove_row_and_indexes pk old.2) _ _ s
    refine wp_mono (remove_row_and_indexes_spec hb hrep hS hold hr.symm) (fun _ s₁ h₁ => ?_) fun _ _ h => h.elim
    exact ⟨old, hold, hr, h₁⟩

/-! ### Scans -/

theorem scan_go {predicate : Predicate} : ∀ {l : List (Key × Bytes)},
    (∀ x ∈ l, ∃ row b, deserialize_row tbl.schema x.2 = .ok row ∧ predicate row = some b) →
    ∃ results, scan.go tbl predicate l = .ok results ∧ (results.map ScanResult.primary_key).Sublist (l.map Prod.fst) ∧
      ∀ r, r ∈ results ↔ ∃ bytes, (r.primary_key, bytes) ∈ l ∧ deserialize_row tbl.schema bytes = .ok r.row ∧ predicate r.row = some true
  | [], _ => ⟨[], rfl, List.Sublist.refl _, fun r => by simp⟩
  | (key, bytes) :: l, h => by
    obtain ⟨row, b, hrow, hb⟩ := h (key, bytes) List.mem_cons_self
    obtain ⟨results, hgo, hsub, hmem⟩ := scan_go fun x hx => h x (List.mem_cons_of_mem _ hx)
    refine ⟨if b then ⟨key, row⟩ :: results else results, ?_, ?_, fun r => ?_⟩
    · unfold scan.go
      simp only at hrow
      simp only [hrow, hgo, hb, bind, Except.bind]
      rfl
    · cases b with
      | true => exact hsub.cons_cons key
      | false => exact hsub.cons key
    · have hhead : (∃ bytes', (r.primary_key, bytes') = (key, bytes) ∧ deserialize_row tbl.schema bytes' = .ok r.row ∧
          predicate r.row = some true) ↔ b = true ∧ r = ⟨key, row⟩ := by
        constructor
        · rintro ⟨bytes', heq, hr, hp⟩
          obtain ⟨hk, rfl⟩ := Prod.mk.inj heq
          obtain rfl := Except.ok.inj (hrow.symm.trans hr)
          rw [hb] at hp
          exact ⟨Option.some.inj hp, by rw [← hk]⟩
        · rintro ⟨rfl, rfl⟩
          exact ⟨bytes, rfl, hrow, hb⟩
      have hsplit : (r ∈ if b = true then (⟨key, row⟩ : ScanResult) :: results else results) ↔ (b = true ∧ r = ⟨key, row⟩) ∨ r ∈ results := by
        cases b <;> simp
      rw [hsplit, hmem, ← hhead]
      simp only [List.mem_cons, or_and_right, exists_or]

/-- **A scan returns the rows of the contents that match, each once.** -/
theorem scan_spec (hrep : tbl.Represents s.trees S) {predicate : Predicate} (hp : ∀ e ∈ S, (predicate e.2).isSome = true) :
    ∃ results, tbl.scan predicate s = .ok results s ∧ (results.map ScanResult.primary_key).Nodup ∧
      ∀ r, r ∈ results ↔ r.entry ∈ S ∧ predicate r.row = some true := by
  have hread : ∀ x ∈ (s.trees.tree tbl.rows).entries.entries, ∃ row b, deserialize_row tbl.schema x.2 = .ok row ∧ predicate row = some b := by
    intro x hx
    obtain ⟨row, he, hrow⟩ := hrep.rows x.1 x.2 hx
    obtain ⟨b, hb⟩ := Option.isSome_iff_exists.1 (hp _ he)
    exact ⟨row, b, hrow, hb⟩
  obtain ⟨results, hgo, hsub, hmem⟩ := scan_go hread
  refine ⟨results, ?_, ?_, fun r => ?_⟩
  · show (liftE (scan.go tbl predicate (s.trees.tree tbl.rows).entries.entries) : TableM _) s = _
    rw [hgo]
    rfl
  · refine hsub.nodup ((s.trees.tree tbl.rows).entries.sorted.imp ?_ |>.map _ fun _ _ h => h)
    exact fun h heq => h.ne (congrArg Key.rank heq)
  · rw [hmem]
    constructor
    · rintro ⟨bytes, hm, hr, hpr⟩
      obtain ⟨row, he, hrow⟩ := hrep.rows _ _ hm
      obtain rfl := Except.ok.inj (hr.symm.trans hrow)
      exact ⟨he, hpr⟩
    · rintro ⟨he, hpr⟩
      obtain ⟨bytes, hm, hr⟩ := hrep.stored _ he
      exact ⟨bytes, hm, hr, hpr⟩

end Table

end GSDBEngine
