import GSDBEngine.Proof.Table

/-!
# The calls that change many rows

`update_matched` plans all of its rows, checks them against the table and against each other, and then
replaces one after the other.

* `Table.Planned`: **what has been checked is what every single replacement needs.**
* `Table.plan_spec`, `Table.check_keys_spec`: the checks. `Table.Refused`: **why they fail.**
* `Table.update_matched_stores`, `Table.update_where_stores`, `Table.delete_where_spec`: the calls. Once the first row is written nothing
  stops them.
-/

namespace GSDBEngine

open Eff

namespace Table

variable {tbl : Table} {s : TableState} {S : Contents} {nv : NewValues}

/-! ### Planned updates -/

def PlannedUpdate.old (u : PlannedUpdate) : Key × Row := (u.old_key, u.old_row)

def PlannedUpdate.new (u : PlannedUpdate) : Key × Row := (u.new_key, u.new_row)

/-- One row is replaced. -/
def PlannedUpdate.replace (S : Contents) (u : PlannedUpdate) : Contents := Insert.insert u.new (S \ {u.old})

/-- **What is checked of the planned rows**: each is a row of the table, and what it becomes stays clear of the other rows, and of
what they become. -/
structure Planned (tbl : Table) (S : Contents) (us : List PlannedUpdate) : Prop where
  olds : ∀ u ∈ us, u.old ∈ S
  key : ∀ u ∈ us, tbl.schema.extract_primary_key u.new_row = .ok u.new_key
  values : ∀ u ∈ us, ∀ idx ∈ tbl.indexes, idx.extract_indexed_value u.new_row = .ok (idx.value u.new_row)
  numbers : ∀ u ∈ us, ∀ v ∈ u.new_row, v.isNaN = false
  free : ∀ u ∈ us, ∀ e ∈ S, e ≠ u.old → e.1.rank ≠ u.new_key.rank ∧ ∀ idx ∈ tbl.indexes, ¬ idx.Conflict e.2 u.new_row
  apart : us.Pairwise fun u u' => u.old ≠ u'.old ∧ u.new_key.rank ≠ u'.new_key.rank ∧
    ∀ idx ∈ tbl.indexes, ¬ idx.Conflict u.new_row u'.new_row

/-- A planned row that can be written. -/
theorem Planned.new {u : PlannedUpdate} {us : List PlannedUpdate} {bytes : Bytes} (h : tbl.Planned S (u :: us))
    (hbytes : serialize_row tbl.schema u.new_row = .ok bytes) : tbl.New (S \ {u.old}) u.new where
  fits := ⟨h.key u List.mem_cons_self, ⟨bytes, hbytes⟩, h.values u List.mem_cons_self, h.numbers u List.mem_cons_self⟩
  key e he := (h.free u List.mem_cons_self e he.1 he.2).1
  unique idx hi e he := (h.free u List.mem_cons_self e he.1 he.2).2 idx hi

/-- The rows that are still to come stay planned. -/
theorem Planned.step {u : PlannedUpdate} {us : List PlannedUpdate} (h : tbl.Planned S (u :: us)) : tbl.Planned (u.replace S) us := by
  have hmem : ∀ {u'}, u' ∈ us → u' ∈ u :: us := fun hu => List.mem_cons_of_mem _ hu
  obtain ⟨hhead, htail⟩ := List.pairwise_cons.1 h.apart
  refine ⟨fun u' hu => ?_, fun u' hu => h.key u' (hmem hu), fun u' hu => h.values u' (hmem hu), fun u' hu => h.numbers u' (hmem hu),
    fun u' hu e he hne => ?_, htail⟩
  · exact Set.mem_insert_of_mem _ ⟨h.olds u' (hmem hu), fun heq => (hhead u' hu).1 (Set.mem_singleton_iff.1 heq).symm⟩
  · rcases Set.mem_insert_iff.1 he with rfl | he
    · exact (hhead u' hu).2
    · exact h.free u' (hmem hu) e he.1 hne

/-- **The rows are replaced at once**: what one becomes is not a row that another one was. -/
theorem Planned.replace_all : ∀ {us : List PlannedUpdate} {S : Contents}, tbl.Planned S us →
    us.foldl PlannedUpdate.replace S = (S \ { e | ∃ u ∈ us, e = u.old }) ∪ { e | ∃ u ∈ us, e = u.new }
  | [], S, _ => by simp
  | u :: us, S, h => by
    have hnew : ∀ u' ∈ us, u.new ≠ u'.old := fun u' hu' heq => by
      have hne : u'.old ≠ u.old := fun heq' => ((List.pairwise_cons.1 h.apart).1 u' hu').1 heq'.symm
      refine (h.free u List.mem_cons_self u'.old (h.olds u' (List.mem_cons_of_mem _ hu')) hne).1 ?_
      rw [← heq]
      rfl
    rw [List.foldl_cons, h.step.replace_all]
    ext e
    simp only [PlannedUpdate.replace, Set.mem_union, Set.mem_sdiff, Set.mem_insert_iff, Set.mem_singleton_iff, Set.mem_ofPred_eq,
      List.mem_cons, exists_eq_or_imp, not_or]
    constructor
    · rintro (⟨rfl | ⟨he, hne⟩, hrest⟩ | hmem)
      · exact .inr (.inl rfl)
      · exact .inl ⟨he, hne, hrest⟩
      · exact .inr (.inr hmem)
    · rintro (⟨he, hne, hrest⟩ | rfl | hmem)
      · exact .inl ⟨.inr ⟨he, hne⟩, hrest⟩
      · refine .inl ⟨.inl rfl, ?_⟩
        rintro ⟨u', hu', heq⟩
        exact hnew u' hu' heq
      · exact .inr hmem

/-- The state of a table that holds its contents. -/
structure Holding (tbl : Table) (s : TableState) (S : Contents) : Prop where
  represents : tbl.Represents s.trees S
  sound : tbl.Sound S
  short : Contents.Short S

theorem Holding.storing (h : tbl.Holding s S) : tbl.Storing s S := storing_of_represents h.represents h.sound

theorem Storing.holding (h : tbl.Storing s S) (hshort : Contents.Short S) : tbl.Holding s S := ⟨h.represents hshort, h.sound, hshort⟩

/-- **One row after the other**; it stops at a row that cannot be serialized. -/
theorem replace_rows_spec (hb : tbl.Bound) : ∀ (us : List PlannedUpdate) {s : TableState} {S : Contents}, tbl.Storing s S → tbl.Planned S us →
    wp (us.forM fun u => do
        let new_bytes ← liftE (serialize_row tbl.schema u.new_row)
        tbl.remove_row_and_indexes u.old_key u.old_row
        tbl.write_row_and_indexes u.new_key u.new_row new_bytes)
      (fun err s' => ∃ done u rest, us = done ++ u :: rest ∧ (done = [] → s' = s) ∧ (∀ u' ∈ done, tbl.Fits u'.new) ∧
        serialize_row tbl.schema u.new_row = .error err)
      (fun _ s' => s'.next_auto_increment = s.next_auto_increment ∧ Frame s s' tbl.Owns ∧
        tbl.Storing s' (us.foldl PlannedUpdate.replace S) ∧ ∀ u ∈ us, tbl.Fits u.new) s
  | [], s, S, h, _ => ⟨rfl, Frame.refl _ _, h, fun _ hu => absurd hu List.not_mem_nil⟩
  | u :: us, s, S, h, hplan => by
    show wp (_ >>= fun _ => us.forM _) _ _ s
    rw [wp_bind, wp_bind]
    refine wp_liftE (fun bytes hbytes => ?_) fun err herr => ⟨[], u, us, rfl, fun _ => rfl, fun _ hu => absurd hu List.not_mem_nil, herr⟩
    have hnew := hplan.new hbytes
    rw [wp_bind]
    refine wp_mono (wp_and (remove_row_and_indexes_spec hb h.stores h.sound (hplan.olds u List.mem_cons_self) rfl)
      (still_remove_row tbl u.old_key u.old_row s)) (fun _ s₁ h₁ => ?_) fun _ _ herr => herr.1.elim
    obtain ⟨⟨hrep₁, hframe₁⟩, hnext₁⟩ := h₁
    have hsound₁ : tbl.Sound (S \ {u.old}) := h.sound.mono Set.sdiff_subset
    refine wp_mono (wp_and (write_row_and_indexes_spec hb hrep₁ hsound₁ hnew (.inr hbytes))
      (still_write_row tbl u.new_key u.new_row bytes s₁)) (fun _ s₂ h₂ => ?_) fun _ _ herr => herr.1.elim
    obtain ⟨⟨hrep₂, hframe₂⟩, hnext₂⟩ := h₂
    have hstoring : tbl.Storing s₂ (u.replace S) := ⟨hrep₂, hsound₁.insert hnew⟩
    refine wp_mono (replace_rows_spec hb us hstoring hplan.step) (fun _ s₃ h₃ => ?_) fun err s₃ h₃ => ?_
    · refine ⟨h₃.1.trans (hnext₂.trans hnext₁), (hframe₁.trans hframe₂).trans h₃.2.1, h₃.2.2.1, fun u' hu' => ?_⟩
      rcases List.mem_cons.1 hu' with rfl | hu'
      · exact hnew.fits
      · exact h₃.2.2.2 u' hu'
    · obtain ⟨done, u', rest, rfl, -, hfits, herr⟩ := h₃
      refine ⟨u :: done, u', rest, rfl, fun hnil => (by cases hnil), fun u'' hu'' => ?_, herr⟩
      rcases List.mem_cons.1 hu'' with rfl | hu''
      · exact hnew.fits
      · exact hfits u'' hu''

/-! ### Claims -/

/-- No value of the row has been claimed; `claimed` has one list an index. -/
def Unclaimed (row : Row) (indexes : List IndexBinding) (claimed : List (List Key)) : Prop :=
  ∀ p ∈ indexes.zip claimed, p.1.schema.is_unique = true → is_indexable (p.1.value row) = true → ∀ k ∈ p.2, k.rank ≠ (p.1.value row).rank

/-- The claimed values are values. -/
def Numbers (claimed : List (List Key)) : Prop := ∀ c ∈ claimed, ∀ k ∈ c, k.hasNaN = false

/-- What a row claims of an index. -/
def claims (row : Row) (idx : IndexBinding) : List Key :=
  if idx.schema.is_unique = true ∧ is_indexable (idx.value row) = true then [idx.value row] else []

section claim

variable {row row' : Row} {indexes : List IndexBinding} {claimed : List (List Key)} {idx : IndexBinding}

theorem zip_claims (row : Row) : ∀ (indexes : List IndexBinding) (claimed : List (List Key)),
    indexes.zip (List.zipWith (fun idx c => c ++ claims row idx) indexes claimed) =
      (indexes.zip claimed).map fun p => (p.1, p.2 ++ claims row p.1)
  | [], _ => rfl
  | _ :: _, [] => rfl
  | _ :: indexes, _ :: claimed => congrArg _ (zip_claims row indexes claimed)

theorem exists_claimed (hlen : claimed.length = indexes.length) (hi : idx ∈ indexes) : ∃ c, (idx, c) ∈ indexes.zip claimed := by
  rw [← List.map_fst_zip hlen.ge] at hi
  obtain ⟨p, hp, rfl⟩ := List.mem_map.1 hi
  exact ⟨p.2, hp⟩

theorem mem_claims {k : Key} : k ∈ claims row idx ↔ (idx.schema.is_unique = true ∧ is_indexable (idx.value row) = true) ∧ k = idx.value row := by
  unfold claims
  split
  · rename_i h
    rw [List.mem_singleton]
    exact ⟨fun hk => ⟨h, hk⟩, And.right⟩
  · rename_i h
    exact ⟨fun hk => absurd hk List.not_mem_nil, fun hk => absurd hk.1 h⟩

/-- **Who claims nothing of a row after it** does not conflict with it. -/
theorem unclaimed_claims (hlen : claimed.length = indexes.length)
    (h : Unclaimed row' indexes (List.zipWith (fun idx c => c ++ claims row idx) indexes claimed)) :
    Unclaimed row' indexes claimed ∧ ∀ idx ∈ indexes, ¬ idx.Conflict row row' := by
  have hmem : ∀ {p}, p ∈ indexes.zip claimed → (p.1, p.2 ++ claims row p.1) ∈
      indexes.zip (List.zipWith (fun idx c => c ++ claims row idx) indexes claimed) := fun hp => by
    rw [zip_claims]
    exact List.mem_map_of_mem hp
  refine ⟨fun p hp hu hi k hk => h _ (hmem hp) hu hi k (List.mem_append_left _ hk), fun idx hi hc => ?_⟩
  obtain ⟨c, hc'⟩ := exists_claimed hlen hi
  have hindexable : is_indexable (idx.value row') = true := by
    rw [← Key.is_indexable_of_rank hc.2.2]
    exact hc.2.1
  exact h _ (hmem hc') hc.1 hindexable _ (List.mem_append_right _ (mem_claims.2 ⟨⟨hc.1, hc.2.1⟩, rfl⟩)) hc.2.2

theorem numbers_claims (hrow : ∀ v ∈ row, v.isNaN = false) (h : Numbers claimed) :
    Numbers (List.zipWith (fun idx c => c ++ claims row idx) indexes claimed) := by
  intro c hc k hk
  rw [← List.map_uncurry_zip_eq_zipWith] at hc
  obtain ⟨p, hp, rfl⟩ := List.mem_map.1 hc
  rcases List.mem_append.1 hk with hk | hk
  · exact h p.2 (List.of_mem_zip hp).2 k hk
  · rw [(mem_claims.1 hk).2]
    exact value_hasNaN hrow

/-- **What a row claims**, where none of it was claimed before. -/
theorem claim_ok (hrow : ∀ v ∈ row, v.isNaN = false) : ∀ {indexes : List IndexBinding} {claimed claimed' : List (List Key)},
    claim row indexes claimed = .ok claimed' → claimed.length = indexes.length → Numbers claimed →
    claimed' = List.zipWith (fun idx c => c ++ claims row idx) indexes claimed ∧ Unclaimed row indexes claimed
  | [], claimed, claimed', h, hlen, _ => by
    obtain rfl := List.length_eq_zero_iff.1 hlen
    cases h
    exact ⟨rfl, fun p hp => absurd hp List.not_mem_nil⟩
  | idx :: indexes, [], claimed', _, hlen, _ => by cases hlen
  | idx :: indexes, c :: claimed, claimed', h, hlen, hnum => by
    have ih := @claim_ok hrow indexes claimed
    have hlen' : claimed.length = indexes.length := Nat.succ.inj hlen
    have hnum' : Numbers claimed := fun c' hc => hnum c' (List.mem_cons_of_mem _ hc)
    -- an index under which the row claims nothing
    have hsame : ∀ {rest}, claim row indexes claimed = .ok rest → claimed' = c :: rest →
        ¬ (idx.schema.is_unique = true ∧ is_indexable (idx.value row) = true) →
        claimed' = List.zipWith (fun idx c => c ++ claims row idx) (idx :: indexes) (c :: claimed) ∧
          Unclaimed row (idx :: indexes) (c :: claimed) := by
      rintro rest hrest rfl hnone
      obtain ⟨rfl, hun⟩ := ih hrest hlen' hnum'
      refine ⟨?_, List.forall_mem_cons.2 ⟨fun hu hi => absurd ⟨hu, hi⟩ hnone, hun⟩⟩
      rw [List.zipWith_cons_cons, claims, if_neg hnone, List.append_nil]
    unfold claim at h
    by_cases hu : idx.schema.is_unique = true
    · rw [if_pos hu] at h
      obtain ⟨iv, hiv, h⟩ := except_bind_ok h
      obtain rfl := extract_value hiv
      by_cases hi : is_indexable (idx.value row) = true
      · rw [if_pos hi] at h
        by_cases hany : (c.any fun k => Key.eq k (idx.value row)) = true
        · rw [if_pos hany] at h
          cases h
        · rw [if_neg hany] at h
          obtain ⟨rest, hrest, h⟩ := except_bind_ok h
          obtain rfl := Except.ok.inj h
          obtain ⟨rfl, hun⟩ := ih hrest hlen' hnum'
          have hfree : ∀ k ∈ c, k.rank ≠ (idx.value row).rank := fun k hk hr => by
            refine hany (List.any_eq_true.2 ⟨k, hk, ?_⟩)
            exact (Key.eq_iff (hnum c List.mem_cons_self k hk) (value_hasNaN hrow)).2 hr
          refine ⟨?_, List.forall_mem_cons.2 ⟨fun _ _ => hfree, hun⟩⟩
          rw [List.zipWith_cons_cons, claims, if_pos ⟨hu, hi⟩]
      · rw [if_neg hi] at h
        obtain ⟨rest, hrest, h⟩ := except_bind_ok h
        exact hsame hrest (Except.ok.inj h).symm fun hboth => hi hboth.2
    · rw [if_neg hu] at h
      obtain ⟨rest, hrest, h⟩ := except_bind_ok h
      exact hsame hrest (Except.ok.inj h).symm fun hboth => hu hboth.1

/-- **Why a claim is refused.** -/
theorem claim_error {err : TableErr} (hrow : ∀ v ∈ row, v.isNaN = false) : ∀ {indexes : List IndexBinding} {claimed : List (List Key)},
    claim row indexes claimed = .error err → Numbers claimed →
    (err = .column_out_of_range ∧ ∃ idx ∈ indexes, idx.extract_indexed_value row = .error err) ∨
      ∃ p ∈ indexes.zip claimed, err = .batch_unique p.1.schema.name ∧ p.1.schema.is_unique = true ∧
        ∃ k ∈ p.2, is_indexable k = true ∧ k.rank = (p.1.value row).rank
  | [], _, h, _ => by cases h
  | idx :: indexes, [], h, _ => by cases h
  | idx :: indexes, c :: claimed, h, hnum => by
    have ih := @claim_error err hrow indexes claimed
    have hnum' : Numbers claimed := fun c' hc => hnum c' (List.mem_cons_of_mem _ hc)
    have hrest : claim row indexes claimed = .error err →
        (err = .column_out_of_range ∧ ∃ i ∈ idx :: indexes, i.extract_indexed_value row = .error err) ∨
          ∃ p ∈ (idx :: indexes).zip (c :: claimed), err = .batch_unique p.1.schema.name ∧ p.1.schema.is_unique = true ∧
            ∃ k ∈ p.2, is_indexable k = true ∧ k.rank = (p.1.value row).rank := by
      intro herr
      rcases ih herr hnum' with ⟨hcol, i, hi, hextract⟩ | ⟨p, hp, hall⟩
      · exact .inl ⟨hcol, i, List.mem_cons_of_mem _ hi, hextract⟩
      · exact .inr ⟨p, List.mem_cons_of_mem _ hp, hall⟩
    unfold claim at h
    by_cases hu : idx.schema.is_unique = true
    · rw [if_pos hu] at h
      rcases except_bind_error h with herr | ⟨iv, hiv, h⟩
      · exact .inl ⟨extract_indexed_value_error herr, idx, List.mem_cons_self, herr⟩
      obtain rfl := extract_value hiv
      by_cases hi : is_indexable (idx.value row) = true
      · rw [if_pos hi] at h
        by_cases hany : (c.any fun k => Key.eq k (idx.value row)) = true
        · rw [if_pos hany] at h
          obtain ⟨k, hk, heq⟩ := List.any_eq_true.1 hany
          have hr := (Key.eq_iff (hnum c List.mem_cons_self k hk) (value_hasNaN hrow)).1 heq
          refine .inr ⟨(idx, c), List.mem_cons_self, (Except.error.inj h).symm, hu, k, hk, ?_, hr⟩
          rw [Key.is_indexable_of_rank hr]
          exact hi
        · rw [if_neg hany] at h
          rcases except_bind_error h with herr | ⟨rest, -, h⟩
          · exact hrest herr
          · cases h
      · rw [if_neg hi] at h
        rcases except_bind_error h with herr | ⟨rest, -, h⟩
        · exact hrest herr
        · cases h
    · rw [if_neg hu] at h
      rcases except_bind_error h with herr | ⟨rest, -, h⟩
      · exact hrest herr
      · cases h

end claim

/-! ### Checks -/

/-- A row of the table with its new values, clear of the indexes. -/
structure Drafted (tbl : Table) (S : Contents) (nv : NewValues) (u : PlannedUpdate) : Prop where
  old : u.old ∈ S
  applied : apply_values u.old_row nv = .ok u.new_row
  key : tbl.schema.extract_primary_key u.new_row = .ok u.new_key
  values : ∀ idx ∈ tbl.indexes, idx.extract_indexed_value u.new_row = .ok (idx.value u.new_row)
  numbers : ∀ v ∈ u.new_row, v.isNaN = false
  clear : ∀ idx ∈ tbl.indexes, ∀ e ∈ S, idx.Conflict e.2 u.new_row → e = u.old

theorem Drafted.becomes {u : PlannedUpdate} (h : tbl.Drafted S nv u) : tbl.Becomes nv u.old u.new := ⟨h.applied, h.key⟩

/-- **Why a batch is refused**: its rows cannot all be replaced, and a unique index that is named is one that it would break. -/
structure Refused (tbl : Table) (S : Contents) (nv : NewValues) (ms : List ScanResult) (err : TableErr) : Prop where
  not_replaceable : ¬ ((ms.map ScanResult.entry).Nodup ∧ tbl.Replaceable S nv { e | ∃ m ∈ ms, e = m.entry })
  collides : ∀ name, err.unique_index = some name → ∃ idx ∈ tbl.indexes, idx.schema.name = name ∧
    ∀ next, (TableCall.update_matched ms nv).Collides tbl next S idx

section refused

variable {ms before : List ScanResult} {m m' : ScanResult} {err : TableErr} {new new' : Key × Row} {idx : IndexBinding}

theorem refused_one (hm : m ∈ ms) (hno : ∀ new, tbl.Becomes nv m.entry new → ¬ tbl.New (S \ {m.entry}) new)
    (herr : err.unique_index = none) : tbl.Refused S nv ms err where
  not_replaceable h := by
    obtain ⟨new, hnew, hnew'⟩ := h.2.each _ ⟨m, hm, rfl⟩
    exact hno new hnew hnew'
  collides name hname := by
    rw [herr] at hname
    cases hname

/-- A row of the table is in the way. -/
theorem refused_conflict (hm : m ∈ ms) (hnew : tbl.Becomes nv m.entry new) (hi : idx ∈ tbl.indexes) {e : Key × Row} (he : e ∈ S)
    (hne : e ≠ m.entry) (hc : idx.Conflict e.2 new.2) (herr : err.unique_index = some idx.schema.name) : tbl.Refused S nv ms err where
  not_replaceable h := by
    obtain ⟨new', hbecomes, hnew'⟩ := h.2.each _ ⟨m, hm, rfl⟩
    obtain rfl := hbecomes.eq hnew
    exact hnew'.unique idx hi e ⟨he, hne⟩ hc
  collides name hname := by
    rw [herr] at hname
    exact ⟨idx, hi, Option.some.inj hname, fun _ => ⟨m.entry, ⟨m, hm, rfl⟩, new, hnew, .inl ⟨e, he, hne, hc⟩⟩⟩

/-- What an earlier row becomes is in the way. -/
theorem refused_batch {rest : List ScanResult} (hm' : m' ∈ before) (hnew' : tbl.Becomes nv m'.entry new')
    (hnew : tbl.Becomes nv m.entry new) (hi : idx ∈ tbl.indexes) (hc : idx.Conflict new'.2 new.2)
    (herr : err.unique_index = some idx.schema.name) : tbl.Refused S nv (before ++ m :: rest) err where
  not_replaceable h := by
    have hm : m ∈ before ++ m :: rest := List.mem_append_right _ List.mem_cons_self
    by_cases heq : m'.entry = m.entry
    · have hnodup := h.1
      rw [List.map_append, List.map_cons] at hnodup
      exact (List.nodup_append.1 hnodup).2.2 _ (List.mem_map_of_mem hm') _ List.mem_cons_self heq
    · exact (h.2.apart _ ⟨m', List.mem_append_left _ hm', rfl⟩ _ ⟨m, hm, rfl⟩ heq new' new hnew' hnew).2 idx hi hc
  collides name hname := by
    rw [herr] at hname
    have hm : m ∈ before ++ m :: rest := List.mem_append_right _ List.mem_cons_self
    refine ⟨idx, hi, Option.some.inj hname, fun _ => ⟨m.entry, ⟨m, hm, rfl⟩, new, hnew, .inr ⟨m'.entry, new', ?_, hnew', hc⟩⟩⟩
    show List.Sublist [m'.entry, m.entry] ((before ++ m :: rest).map ScanResult.entry)
    rw [List.map_append, List.map_cons]
    exact (List.singleton_sublist.2 (List.mem_map_of_mem hm')).append (List.singleton_sublist.2 List.mem_cons_self)

end refused

/-- The claimed values are those of rows that came before. -/
def Claimed (tbl : Table) (nv : NewValues) (before : List ScanResult) (claimed : List (List Key)) : Prop :=
  ∀ p ∈ tbl.indexes.zip claimed, ∀ k ∈ p.2, ∃ m ∈ before, ∃ new, tbl.Becomes nv m.entry new ∧ k = p.1.value new.2

theorem Claimed.step {before : List ScanResult} {claimed : List (List Key)} {m : ScanResult} {new : Key × Row}
    (h : tbl.Claimed nv before claimed) (hnew : tbl.Becomes nv m.entry new) :
    tbl.Claimed nv (before ++ [m]) (List.zipWith (fun idx c => c ++ claims new.2 idx) tbl.indexes claimed) := by
  intro p hp k hk
  rw [zip_claims] at hp
  obtain ⟨q, hq, rfl⟩ := List.mem_map.1 hp
  rcases List.mem_append.1 hk with hk | hk
  · obtain ⟨m', hm', hall⟩ := h q hq k hk
    exact ⟨m', List.mem_append_left _ hm', hall⟩
  · exact ⟨m, List.mem_append_right _ List.mem_cons_self, new, hnew, (mem_claims.1 hk).2⟩

/-- **Phase 1.** -/
theorem plan_spec (h : tbl.Storing s S) (hnv : ∀ p ∈ nv, p.2.isNaN = false) :
    ∀ (ms before : List ScanResult) (claimed : List (List Key)), (∀ m ∈ ms, m.entry ∈ S) → claimed.length = tbl.indexes.length →
      Numbers claimed → tbl.Claimed nv before claimed →
      wp (tbl.plan nv claimed ms) (fun err s' => s' = s ∧ tbl.Refused S nv (before ++ ms) err)
        (fun us s' => s' = s ∧ us.map PlannedUpdate.old = ms.map ScanResult.entry ∧ (∀ u ∈ us, tbl.Drafted S nv u) ∧
          (∀ u ∈ us, Unclaimed u.new_row tbl.indexes claimed) ∧
            us.Pairwise fun u u' => ∀ idx ∈ tbl.indexes, ¬ idx.Conflict u.new_row u'.new_row) s
  | [], _, _, _, _, _, _ => ⟨rfl, rfl, fun _ hu => absurd hu List.not_mem_nil, fun _ hu => absurd hu List.not_mem_nil, List.Pairwise.nil⟩
  | m :: ms, before, claimed, hms, hlen, hnum, hclaimed => by
    have ih := plan_spec h hnv ms
    have hm := hms m List.mem_cons_self
    have hfit := h.sound.fits _ hm
    have hmem : m ∈ before ++ m :: ms := List.mem_append_right _ List.mem_cons_self
    unfold plan
    rw [wp_bind]
    refine wp_liftE (fun new_row happly => ?_) fun err herr => ⟨rfl, refused_one hmem (fun new hnew => ?_) (apply_values_error herr).1⟩
    · have hnew := apply_values_numbers happly hfit.numbers hnv
      rw [wp_bind]
      refine wp_liftE (fun new_key hkey => ?_) fun err herr =>
        ⟨rfl, refused_one hmem (fun new hnew => ?_) (extract_primary_key_error herr).1⟩
      · have hbecomes : tbl.Becomes nv m.entry (new_key, new_row) := ⟨happly, hkey⟩
        -- no index can be read at all
        have hvalues : ∀ {idx err}, idx ∈ tbl.indexes → idx.extract_indexed_value new_row = .error err →
            ∀ new, tbl.Becomes nv m.entry new → ¬ tbl.New (S \ {m.entry}) new := by
          intro idx err hi herr new hnew hnew'
          obtain rfl := hnew.eq hbecomes
          rw [hnew'.fits.values idx hi] at herr
          cases herr
        rw [wp_bind]
        refine wp_mono (check_all_unique_constraints_spec h.stores h.sound hnew hfit.key_hasNaN) (fun _ s₁ h₁ => ?_) ?_
        · obtain ⟨rfl, hchk⟩ := h₁
          rw [wp_bind]
          refine wp_liftE (fun claimed' hclaim => ?_) fun err herr => ⟨rfl, ?_⟩
          · obtain ⟨rfl, hun⟩ := claim_ok hnew hclaim hlen hnum
            have hlen' : (List.zipWith (fun idx c => c ++ claims new_row idx) tbl.indexes claimed).length = tbl.indexes.length := by
              rw [List.length_zipWith, hlen, min_self]
            have hafter := ih (before ++ [m]) _ (fun m' hm' => hms m' (List.mem_cons_of_mem _ hm')) hlen' (numbers_claims hnew hnum)
              (hclaimed.step hbecomes)
            rw [List.append_assoc, List.singleton_append] at hafter
            rw [wp_bind]
            refine wp_post hafter fun us s₂ h₂ => ?_
            obtain ⟨rfl, holds, hdraft, hunclaimed, hapart⟩ := h₂
            refine ⟨rfl, congrArg (List.cons m.entry) holds, fun u hu => ?_, fun u hu => ?_, List.pairwise_cons.2 ⟨fun u hu => ?_, hapart⟩⟩
            · rcases List.mem_cons.1 hu with rfl | hu
              · refine ⟨hm, happly, hkey, fun idx hi => (hchk idx hi).1, hnew, fun idx hi e he hc => ?_⟩
                exact h.sound.one e he _ hm ((hchk idx hi).2 e he hc)
              · exact hdraft u hu
            · rcases List.mem_cons.1 hu with rfl | hu
              · exact hun
              · exact (unclaimed_claims hlen (hunclaimed u hu)).1
            · exact (unclaimed_claims hlen (hunclaimed u hu)).2
          · rcases claim_error hnew herr hnum with ⟨rfl, idx, hi, herr⟩ | ⟨p, hp, rfl, hu, k, hk, hix, hr⟩
            · exact refused_one hmem (hvalues hi herr) rfl
            · obtain ⟨m', hm', new', hnew', rfl⟩ := hclaimed p hp k hk
              exact refused_batch hm' hnew' hbecomes (List.of_mem_zip hp).1 ⟨hu, hix, hr⟩ rfl
        · rintro err s₁ ⟨rfl, ⟨rfl, idx, hi, herr⟩ | ⟨idx, hi, rfl, e, he, hc, hne⟩⟩
          · exact ⟨rfl, refused_one hmem (hvalues hi herr) rfl⟩
          · exact ⟨rfl, refused_conflict hmem hbecomes hi he (fun heq => hne (by rw [heq]; rfl)) hc rfl⟩
      · have hrow : new.2 = new_row := Except.ok.inj (hnew.applied.symm.trans happly)
        rw [← hrow, hnew.key] at herr
        cases herr
    · have happly := hnew.applied
      have herr' : apply_values m.entry.2 nv = .error err := herr
      rw [happly] at herr'
      cases herr'

/-- **Phase 1b.** -/
theorem check_keys_spec : ∀ (us : List PlannedUpdate) (final_keys : List Key), (∀ k ∈ final_keys, k.hasNaN = false) →
    (∀ u ∈ us, u.new_key.hasNaN = false ∧ u.old_key.hasNaN = false) →
    wp (tbl.check_keys final_keys us)
      (fun err s' => s' = s ∧ err.unique_index = none ∧
        ((∃ u ∈ us, u.new_key.rank ≠ u.old_key.rank ∧ ((s.trees.tree tbl.rows).entries.find? u.new_key).isSome = true) ∨
          (∃ u ∈ us, ∃ k ∈ final_keys, k.rank = u.new_key.rank) ∨ ¬ us.Pairwise fun u u' => u.new_key.rank ≠ u'.new_key.rank))
      (fun _ s' => s' = s ∧ (∀ u ∈ us, (u.new_key.rank = u.old_key.rank ∨ (s.trees.tree tbl.rows).entries.find? u.new_key = none) ∧
          ∀ k ∈ final_keys, k.rank ≠ u.new_key.rank) ∧ us.Pairwise fun u u' => u.new_key.rank ≠ u'.new_key.rank) s
  | [], _, _, _ => ⟨rfl, fun _ hu => absurd hu List.not_mem_nil, List.Pairwise.nil⟩
  | u :: us, final_keys, hfinal, hus => by
    obtain ⟨hnew, hold⟩ := hus u List.mem_cons_self
    unfold check_keys
    rw [wp_bind, wp_btree_search]
    dsimp only
    split
    · rename_i hexists
      rw [Bool.and_eq_true, Key.eq_false_iff hnew hold] at hexists
      exact ⟨rfl, rfl, .inl ⟨u, List.mem_cons_self, hexists⟩⟩
    · rename_i hexists
      split
      · rename_i hseen
        obtain ⟨k, hk, heq⟩ := List.any_eq_true.1 hseen
        exact ⟨rfl, rfl, .inr (.inl ⟨u, List.mem_cons_self, k, hk, (Key.eq_iff (hfinal k hk) hnew).1 heq⟩)⟩
      · rename_i hseen
        have hfree : ∀ k ∈ final_keys, k.rank ≠ u.new_key.rank := fun k hk hr =>
          hseen (List.any_eq_true.2 ⟨k, hk, (Key.eq_iff (hfinal k hk) hnew).2 hr⟩)
        have hnone : u.new_key.rank = u.old_key.rank ∨ (s.trees.tree tbl.rows).entries.find? u.new_key = none := by
          by_cases hr : u.new_key.rank = u.old_key.rank
          · exact .inl hr
          · refine .inr (Option.isNone_iff_eq_none.1 ?_)
            rw [Bool.and_eq_true, Key.eq_false_iff hnew hold] at hexists
            by_contra hsome
            exact hexists ⟨hr, by rwa [← Option.not_isSome, Bool.not_eq_true', Bool.not_eq_false] at hsome⟩
        have hfinal' : ∀ k ∈ final_keys ++ [u.new_key], k.hasNaN = false := fun k hk => by
          rcases List.mem_append.1 hk with hk | hk
          · exact hfinal k hk
          · obtain rfl := List.mem_singleton.1 hk
            exact hnew
        refine wp_mono (check_keys_spec us _ hfinal' fun u' hu' => hus u' (List.mem_cons_of_mem _ hu')) (fun _ s' h' => ?_)
          fun err s' h' => ?_
        · obtain ⟨rfl, hall, hapart⟩ := h'
          refine ⟨rfl, fun u' hu' => ?_, List.pairwise_cons.2 ⟨fun u' hu' => ?_, hapart⟩⟩
          · rcases List.mem_cons.1 hu' with rfl | hu'
            · exact ⟨hnone, hfree⟩
            · exact ⟨(hall u' hu').1, fun k hk => (hall u' hu').2 k (List.mem_append_left _ hk)⟩
          · exact (hall u' hu').2 _ (List.mem_append_right _ List.mem_cons_self)
        · refine ⟨h'.1, h'.2.1, ?_⟩
          rcases h'.2.2 with ⟨u', hu', hclash⟩ | ⟨u', hu', k, hk, hr⟩ | hnot
          · exact .inl ⟨u', List.mem_cons_of_mem _ hu', hclash⟩
          · rcases List.mem_append.1 hk with hk | hk
            · exact .inr (.inl ⟨u', List.mem_cons_of_mem _ hu', k, hk, hr⟩)
            · obtain rfl := List.mem_singleton.1 hk
              exact .inr (.inr fun hapart => (List.pairwise_cons.1 hapart).1 u' hu' hr)
          · exact .inr (.inr fun hapart => hnot (List.pairwise_cons.1 hapart).2)

/-- **What both phases check.** -/
theorem planned_of_checks {us : List PlannedUpdate} (h : tbl.Storing s S)
    (hdraft : ∀ u ∈ us, tbl.Drafted S nv u) (hapart : us.Pairwise fun u u' => ∀ idx ∈ tbl.indexes, ¬ idx.Conflict u.new_row u'.new_row)
    (hkeys : ∀ u ∈ us, u.new_key.rank = u.old_key.rank ∨ (s.trees.tree tbl.rows).entries.find? u.new_key = none)
    (hdistinct : us.Pairwise fun u u' => u.new_key.rank ≠ u'.new_key.rank) : tbl.Planned S us where
  olds u hu := (hdraft u hu).old
  key u hu := (hdraft u hu).key
  values u hu := (hdraft u hu).values
  numbers u hu := (hdraft u hu).numbers
  free u hu e he hne := by
    refine ⟨fun hr => ?_, fun idx hi hc => hne ((hdraft u hu).clear idx hi e he hc)⟩
    rcases hkeys u hu with hold | hnone
    · exact hne (h.sound.one e he u.old (hdraft u hu).old (hr.trans hold))
    · exact h.stores.find_none.1 hnone e he hr
  apart := by
    refine (hapart.and hdistinct).imp_of_mem fun {u u'} hu hu' hboth => ⟨fun heq => hboth.2 ?_, hboth.2, hboth.1⟩
    have hnew := (hdraft u' hu').becomes
    rw [← heq] at hnew
    exact congrArg (fun e => e.1.rank) ((hdraft u hu).becomes.eq hnew)

/-! ### The calls -/

/-- The counter past the new key of a row, if that is another one. -/
def PlannedUpdate.advance (tbl : Table) (next : UInt32) (u : PlannedUpdate) : UInt32 :=
  if Key.eq u.new_key u.old_key then next else tbl.advanced next u.new_key

theorem advance_all_spec : ∀ (us : List PlannedUpdate) {s : TableState}, (∀ u ∈ us, tbl.Fits u.new) →
    wp (us.forM fun u => if Key.eq u.new_key u.old_key then pure () else tbl.advance_auto_increment u.new_key) (fun _ _ => False)
      (fun _ s' => s'.trees = s.trees ∧ s'.next_auto_increment = us.foldl (PlannedUpdate.advance tbl) s.next_auto_increment) s
  | [], s, _ => ⟨rfl, rfl⟩
  | u :: us, s, h => by
    show wp (_ >>= fun _ => us.forM _) _ _ s
    rw [wp_bind]
    have hone : wp (if Key.eq u.new_key u.old_key then pure () else tbl.advance_auto_increment u.new_key) (fun _ _ => False)
        (fun _ s' => s'.trees = s.trees ∧ s'.next_auto_increment = PlannedUpdate.advance tbl s.next_auto_increment u) s := by
      unfold PlannedUpdate.advance
      split
      · exact ⟨rfl, rfl⟩
      · exact advance_auto_increment_spec (h u List.mem_cons_self)
    refine wp_post hone fun _ s₁ h₁ => ?_
    refine wp_post (advance_all_spec us fun u' hu' => h u' (List.mem_cons_of_mem _ hu')) fun _ s₂ h₂ => ?_
    rw [List.foldl_cons, ← h₁.2]
    exact ⟨h₂.1.trans h₁.1, h₂.2⟩

/-- **The planned rows of a call**: what the matched rows become. -/
structure Batch (tbl : Table) (S : Contents) (nv : NewValues) (ms : List ScanResult) (us : List PlannedUpdate) : Prop where
  olds : us.map PlannedUpdate.old = ms.map ScanResult.entry
  drafted : ∀ u ∈ us, tbl.Drafted S nv u
  planned : tbl.Planned S us

/-- What the matched rows are. -/
theorem Batch.matched {ms : List ScanResult} {us : List PlannedUpdate} (h : tbl.Batch S nv ms us) :
    { e | ∃ u ∈ us, e = u.old } = { e | ∃ m ∈ ms, e = m.entry } := by
  have hmem : ∀ e, e ∈ us.map PlannedUpdate.old ↔ e ∈ ms.map ScanResult.entry := fun e => by rw [h.olds]
  ext e
  have he := hmem e
  rw [List.mem_map, List.mem_map] at he
  simp only [Set.mem_ofPred_eq, eq_comm (a := e)]
  exact he

/-- **The contents after a batch.** -/
theorem Batch.effect {ms : List ScanResult} {us : List PlannedUpdate} (h : tbl.Batch S nv ms us) :
    us.foldl PlannedUpdate.replace S = (S \ { e | ∃ m ∈ ms, e = m.entry }) ∪ { e | ∃ old, (∃ m ∈ ms, old = m.entry) ∧ tbl.Becomes nv old e } := by
  rw [h.planned.replace_all, h.matched]
  congr 1
  ext e
  constructor
  · rintro ⟨u, hu, rfl⟩
    refine ⟨u.old, ?_, (h.drafted u hu).becomes⟩
    have hold : u.old ∈ { e | ∃ u ∈ us, e = u.old } := ⟨u, hu, rfl⟩
    rwa [h.matched] at hold
  · rintro ⟨old, hold, hnew⟩
    have hold' : old ∈ { e | ∃ m ∈ ms, e = m.entry } := hold
    rw [← h.matched] at hold'
    obtain ⟨u, hu, rfl⟩ := hold'
    exact ⟨u, hu, hnew.eq (h.drafted u hu).becomes⟩

theorem Batch.mem_matched {ms : List ScanResult} {us : List PlannedUpdate} {u : PlannedUpdate}
    (holds : us.map PlannedUpdate.old = ms.map ScanResult.entry) (hu : u ∈ us) : ∃ m ∈ ms, u.old = m.entry := by
  have hmem := List.mem_map_of_mem (f := PlannedUpdate.old) hu
  rw [holds] at hmem
  obtain ⟨m, hm, heq⟩ := List.mem_map.1 hmem
  exact ⟨m, hm, heq.symm⟩

/-- **A row that cannot be written refuses the batch.** -/
theorem refused_row {ms : List ScanResult} {us : List PlannedUpdate} {u : PlannedUpdate} {err : TableErr}
    (holds : us.map PlannedUpdate.old = ms.map ScanResult.entry) (hu : u ∈ us) (hdraft : tbl.Drafted S nv u)
    (hno : ¬ tbl.New (S \ {u.old}) u.new) (herr : err.unique_index = none) : tbl.Refused S nv ms err := by
  obtain ⟨m, hm, heq⟩ := Batch.mem_matched holds hu
  refine refused_one hm (fun new hnew hnew' => hno ?_) herr
  rw [← heq] at hnew hnew'
  rwa [hnew.eq hdraft.becomes] at hnew'

/-- **The matched rows are replaced, or nothing is changed.** All rows get the same values, so that either all can be serialized or not
the first one. -/
theorem update_matched_stores (hb : tbl.Bound) (h : tbl.Storing s S) (hnv : ∀ p ∈ nv, p.2.isNaN = false)
    {ms : List ScanResult} (hms : ∀ m ∈ ms, m.entry ∈ S) :
    wp (tbl.update_matched ms nv) (fun err s' => s' = s ∧ tbl.Refused S nv ms err)
      (fun _ s' => Frame s s' tbl.Owns ∧ ∃ us, tbl.Batch S nv ms us ∧ (∀ u ∈ us, tbl.Fits u.new) ∧
        tbl.Storing s' (us.foldl PlannedUpdate.replace S) ∧
        s'.next_auto_increment = us.foldl (PlannedUpdate.advance tbl) s.next_auto_increment) s := by
  unfold update_matched
  have hempty : ∀ {c}, c ∈ List.replicate tbl.indexes.length ([] : List Key) → c = [] := List.eq_of_mem_replicate
  have hnumbers : Numbers (List.replicate tbl.indexes.length []) := fun c hc k hk => by
    rw [hempty hc] at hk
    exact absurd hk List.not_mem_nil
  have hclaimed : tbl.Claimed nv [] (List.replicate tbl.indexes.length []) := fun p hp k hk => by
    rw [hempty (List.of_mem_zip hp).2] at hk
    exact absurd hk List.not_mem_nil
  rw [wp_bind]
  refine wp_mono (plan_spec h hnv ms [] _ hms List.length_replicate hnumbers hclaimed) (fun us s₁ h₁ => ?_) fun _ _ herr => herr
  obtain ⟨rfl, holds, hdraft, -, hapart⟩ := h₁
  have hkeyNaN : ∀ u ∈ us, u.new_key.hasNaN = false ∧ u.old_key.hasNaN = false := fun u hu =>
    ⟨key_hasNaN (hdraft u hu).key (hdraft u hu).numbers, (h.sound.fits _ (hdraft u hu).old).key_hasNaN⟩
  rw [wp_bind]
  refine wp_mono (check_keys_spec us [] (fun _ hk => absurd hk List.not_mem_nil) hkeyNaN) (fun _ s₂ h₂ => ?_) fun err s₂ h₂ => ?_
  · obtain ⟨rfl, hkeys, hdistinct⟩ := h₂
    have hbatch : tbl.Batch S nv ms us := ⟨holds, hdraft, planned_of_checks h hdraft hapart (fun u hu => (hkeys u hu).1) hdistinct⟩
    rw [wp_bind]
    refine wp_mono (replace_rows_spec hb us h hbatch.planned) (fun _ s₃ h₃ => ?_) fun err s₃ h₃ => ?_
    · obtain ⟨hnext, hframe, hstoring, hfits⟩ := h₃
      rw [wp_bind]
      refine wp_mono (advance_all_spec us hfits) (fun _ s₄ h₄ => ?_) fun _ _ herr => herr.elim
      refine ⟨fun t ht => by rw [h₄.1]; exact hframe t ht, us, hbatch, hfits, ⟨?_, hstoring.sound⟩, ?_⟩
      · rw [h₄.1]
        exact hstoring.stores
      · rw [h₄.2, hnext]
    · obtain ⟨done, u, rest, rfl, hsame, hfits, herr⟩ := h₃
      have hu : u ∈ done ++ u :: rest := List.mem_append_right _ List.mem_cons_self
      have hno : ∀ bytes, serialize_row tbl.schema u.new_row ≠ .ok bytes := fun bytes hbytes => by
        rw [hbytes] at herr
        cases herr
      refine ⟨hsame ?_, refused_row holds hu (hdraft u hu) (fun hnew => ?_) (serialize_row_error herr).1⟩
      · cases done with
        | nil => rfl
        | cons first done =>
          have hfirst := hdraft first List.mem_cons_self
          obtain ⟨bytes, hbytes⟩ := (hfits first List.mem_cons_self).serial
          obtain ⟨bytes', hbytes'⟩ := hfirst.becomes.serial (hdraft u hu).becomes (h.sound.fits _ (hdraft u hu).old) hbytes
          exact absurd hbytes' (hno bytes')
      · obtain ⟨bytes, hbytes⟩ := hnew.fits.serial
        exact hno bytes hbytes
  · obtain ⟨rfl, herr, ⟨u, hu, hne, hsome⟩ | ⟨u, hu, k, hk, -⟩ | hnot⟩ := h₂
    · refine ⟨rfl, refused_row holds hu (hdraft u hu) (fun hnew => ?_) herr⟩
      obtain ⟨bytes, hbytes⟩ := Option.isSome_iff_exists.1 hsome
      obtain ⟨e, he, hr, -⟩ := h.stores.find_some hbytes
      refine hnew.key e ⟨he, fun heq => hne ?_⟩ hr
      rw [Set.mem_singleton_iff.1 heq] at hr
      exact hr.symm
    · exact absurd hk List.not_mem_nil
    · refine ⟨rfl, ⟨fun hall => hnot ?_, fun name hname => ?_⟩⟩
      · have hnodup := hall.1
        rw [← holds] at hnodup
        refine (List.pairwise_map.1 hnodup).imp_of_mem fun {u u'} hu hu' hne => ?_
        obtain ⟨m, hm, heq⟩ := Batch.mem_matched holds hu
        obtain ⟨m', hm', heq'⟩ := Batch.mem_matched holds hu'
        exact (hall.2.apart _ ⟨m, hm, heq⟩ _ ⟨m', hm', heq'⟩ hne _ _ (hdraft u hu).becomes (hdraft u' hu').becomes).1
      · rw [herr] at hname
        cases hname

/-! ### Calls with a predicate -/

theorem scan_go_ok {predicate : Predicate} : ∀ {l : List (Key × Bytes)} {results : List ScanResult}, scan.go tbl predicate l = .ok results →
    (results.map ScanResult.primary_key).Sublist (l.map Prod.fst) ∧
      (∀ x ∈ l, ∃ row, deserialize_row tbl.schema x.2 = .ok row ∧ (predicate row).isSome = true) ∧
      ∀ r, r ∈ results ↔ predicate r.row = some true ∧ ∃ bytes, (r.primary_key, bytes) ∈ l ∧ deserialize_row tbl.schema bytes = .ok r.row
  | [], results, h => by
    cases h
    refine ⟨List.Sublist.refl _, fun _ hx => absurd hx List.not_mem_nil, fun r => ⟨fun hr => absurd hr List.not_mem_nil, ?_⟩⟩
    rintro ⟨-, _, hmem, -⟩
    exact absurd hmem List.not_mem_nil
  | (key, bytes) :: l, results, h => by
    unfold scan.go at h
    obtain ⟨row, hrow, h⟩ := except_bind_ok h
    cases hp : predicate row with
    | none =>
      rw [hp] at h
      cases h
    | some found =>
      rw [hp] at h
      obtain ⟨rest, hrest, h⟩ := except_bind_ok h
      obtain rfl := Except.ok.inj h
      obtain ⟨hsub, htotal, hall⟩ := scan_go_ok hrest
      have htotal' : ∀ x ∈ (key, bytes) :: l, ∃ row, deserialize_row tbl.schema x.2 = .ok row ∧ (predicate row).isSome = true :=
        List.forall_mem_cons.2 ⟨⟨row, hrow, by rw [hp]; rfl⟩, htotal⟩
      -- the first row of the list, or one behind it
      have hcons : ∀ r : ScanResult, (predicate r.row = some true ∧
          ∃ b, (r.primary_key, b) ∈ (key, bytes) :: l ∧ deserialize_row tbl.schema b = .ok r.row) ↔ (r = ⟨key, row⟩ ∧ found = true) ∨ r ∈ rest := by
        intro r
        rw [hall r]
        constructor
        · rintro ⟨hfound, b, hb, hread⟩
          rcases List.mem_cons.1 hb with heq | hb
          · obtain ⟨hkey, rfl⟩ := Prod.mk.inj heq
            rw [hrow] at hread
            obtain rfl := Except.ok.inj hread
            rw [hp] at hfound
            exact .inl ⟨by rw [← hkey], Option.some.inj hfound⟩
          · exact .inr ⟨hfound, b, hb, hread⟩
        · rintro (⟨rfl, rfl⟩ | ⟨hfound, b, hb, hread⟩)
          · exact ⟨hp, bytes, List.mem_cons_self, hrow⟩
          · exact ⟨hfound, b, List.mem_cons_of_mem _ hb, hread⟩
      cases found with
      | false =>
        refine ⟨hsub.cons key, htotal', fun r => Iff.trans ?_ (hcons r).symm⟩
        simp
      | true =>
        refine ⟨hsub.cons_cons key, htotal', fun r => Iff.trans ?_ (hcons r).symm⟩
        simp

theorem scan_go_error {predicate : Predicate} {err : TableErr} : ∀ {l : List (Key × Bytes)}, scan.go tbl predicate l = .error err →
    (∀ x ∈ l, ∃ row, deserialize_row tbl.schema x.2 = .ok row) → err = .predicate
  | [], h, _ => by cases h
  | (key, bytes) :: l, h, hread => by
    obtain ⟨row, hrow⟩ := hread _ List.mem_cons_self
    unfold scan.go at h
    rcases except_bind_error h with herr | ⟨row', -, h⟩
    · rw [hrow] at herr
      cases herr
    · cases hp : predicate row' with
      | none =>
        rw [hp] at h
        exact (Except.error.inj h).symm
      | some found =>
        rw [hp] at h
        rcases except_bind_error h with herr | ⟨rest, -, h⟩
        · exact scan_go_error herr fun x hx => hread x (List.mem_cons_of_mem _ hx)
        · cases h

/-- **What a scan returns** are the rows that match, each once; a predicate that throws makes it throw. -/
theorem scan_rows (h : tbl.Represents s.trees S) {predicate : Predicate} :
    wp (tbl.scan predicate) (fun err s' => s' = s ∧ err = .predicate ∧ ¬ ∀ e ∈ S, (predicate e.2).isSome = true)
      (fun ms s' => s' = s ∧ (∀ e ∈ S, (predicate e.2).isSome = true) ∧
        (∀ r : ScanResult, r ∈ ms ↔ r.entry ∈ S ∧ predicate r.row = some true) ∧ (ms.map ScanResult.entry).Nodup) s := by
  unfold scan
  rw [wp_bind]
  show wp (liftE (scan.go tbl predicate (s.trees.tree tbl.rows).entries.entries)) _ _ s
  refine wp_liftE (fun ms hms => ?_) fun err herr => ⟨rfl, ?_, fun htotal => ?_⟩
  · obtain ⟨hsub, htotal, hall⟩ := scan_go_ok hms
    refine ⟨rfl, fun e he => ?_, fun r => (hall r).trans ⟨?_, ?_⟩, ?_⟩
    · obtain ⟨bytes, hmem, hread⟩ := h.stored e he
      obtain ⟨row, hread', hsome⟩ := htotal _ hmem
      rw [hread] at hread'
      rwa [Except.ok.inj hread']
    · rintro ⟨hfound, bytes, hmem, hread⟩
      obtain ⟨row, hrow, hread'⟩ := h.rows _ _ hmem
      rw [hread] at hread'
      obtain rfl := Except.ok.inj hread'
      exact ⟨hrow, hfound⟩
    · rintro ⟨he, hfound⟩
      obtain ⟨bytes, hmem, hread⟩ := h.stored _ he
      exact ⟨hfound, bytes, hmem, hread⟩
    · have hkeys : (ms.map ScanResult.primary_key).Nodup := by
        refine hsub.nodup ((s.trees.tree tbl.rows).entries.sorted.imp ?_ |>.map _ fun _ _ h => h)
        exact fun h heq => h.ne (congrArg Key.rank heq)
      have hmap : ms.map ScanResult.primary_key = (ms.map ScanResult.entry).map Prod.fst := by
        rw [List.map_map]
        rfl
      rw [hmap] at hkeys
      exact hkeys.of_map
  · refine scan_go_error herr fun x hx => ?_
    obtain ⟨row, -, hread⟩ := h.rows _ _ hx
    exact ⟨row, hread⟩
  · obtain ⟨results, hscan, -, -⟩ := scan_spec h htotal
    have hgo : (liftE (scan.go tbl predicate (s.trees.tree tbl.rows).entries.entries) : TableM _) s = .ok results s := hscan
    rw [herr] at hgo
    cases hgo

/-- The rows that are found are those that a predicate selects. -/
theorem matched_where {predicate : Predicate} {ms : List ScanResult}
    (hms : ∀ r : ScanResult, r ∈ ms ↔ r.entry ∈ S ∧ predicate r.row = some true) :
    { e | ∃ m ∈ ms, e = m.entry } = { e | e ∈ S ∧ predicate e.2 = some true } := by
  ext e
  refine ⟨?_, fun he => ⟨⟨e.1, e.2⟩, (hms _).2 he, rfl⟩⟩
  rintro ⟨m, hm, rfl⟩
  exact (hms m).1 hm

/-- **The rows go**, each once. -/
theorem remove_rows_spec (hb : tbl.Bound) : ∀ (ms : List ScanResult) {s : TableState} {S : Contents}, tbl.Holding s S →
    (∀ m ∈ ms, m.entry ∈ S) → (ms.map ScanResult.entry).Nodup →
    wp (ms.forM fun r => tbl.remove_row_and_indexes r.primary_key r.row) (fun _ _ => False)
      (fun _ s' => s'.next_auto_increment = s.next_auto_increment ∧ Frame s s' tbl.Owns ∧
        tbl.Holding s' (S \ { e | ∃ m ∈ ms, m.entry = e })) s
  | [], s, S, h, _, _ => by
    refine ⟨rfl, Frame.refl _ _, ?_⟩
    have hnone : S \ { e | ∃ m ∈ ([] : List ScanResult), m.entry = e } = S := by
      ext e
      simp
    rw [hnone]
    exact h
  | m :: ms, s, S, h, hms, hnodup => by
    rw [List.map_cons, List.nodup_cons] at hnodup
    show wp (_ >>= fun _ => ms.forM _) _ _ s
    rw [wp_bind]
    refine wp_mono (wp_and (remove_row_and_indexes_spec hb h.represents h.sound (hms m List.mem_cons_self) rfl)
      (still_remove_row tbl m.primary_key m.row s)) (fun _ s₁ h₁ => ?_) fun _ _ herr => herr.1.elim
    obtain ⟨⟨hrep, hframe⟩, hnext⟩ := h₁
    have hholding : tbl.Holding s₁ (S \ {m.entry}) := ⟨hrep, h.sound.mono Set.sdiff_subset, fun e he => h.short e he.1⟩
    have hrest : ∀ m' ∈ ms, m'.entry ∈ S \ {m.entry} := fun m' hm' =>
      ⟨hms m' (List.mem_cons_of_mem _ hm'), fun heq => hnodup.1 (List.mem_map.2 ⟨m', hm', Set.mem_singleton_iff.1 heq⟩)⟩
    refine wp_post (remove_rows_spec hb ms hholding hrest hnodup.2) fun _ s₂ h₂ => ?_
    refine ⟨h₂.1.trans hnext, hframe.trans h₂.2.1, ?_⟩
    have hall : (S \ {m.entry}) \ { e | ∃ m' ∈ ms, m'.entry = e } = S \ { e | ∃ m' ∈ m :: ms, m'.entry = e } := by
      ext e
      simp only [Set.mem_sdiff, Set.mem_singleton_iff, Set.mem_ofPred_eq, List.mem_cons, exists_eq_or_imp, not_or, and_assoc]
      exact and_congr_right fun _ => and_congr_left fun _ => ⟨fun hne heq => hne heq.symm, fun hne heq => hne heq.symm⟩
    rw [← hall]
    exact h₂.2.2

theorem update_where_stores (hb : tbl.Bound) (hrep : tbl.Represents s.trees S) (hS : tbl.Sound S) (hnv : ∀ p ∈ nv, p.2.isNaN = false)
    {predicate : Predicate} :
    wp (tbl.update_where predicate nv)
      (fun err s' => s' = s ∧ ((err = .predicate ∧ ¬ ∀ e ∈ S, (predicate e.2).isSome = true) ∨
        ∃ ms : List ScanResult, (∀ r, r ∈ ms ↔ r.entry ∈ S ∧ predicate r.row = some true) ∧ (ms.map ScanResult.entry).Nodup ∧
          tbl.Refused S nv ms err))
      (fun _ s' => Frame s s' tbl.Owns ∧ (∀ e ∈ S, (predicate e.2).isSome = true) ∧ ∃ ms us, tbl.Batch S nv ms us ∧
        (∀ r : ScanResult, r ∈ ms ↔ r.entry ∈ S ∧ predicate r.row = some true) ∧ (∀ u ∈ us, tbl.Fits u.new) ∧
        tbl.Storing s' (us.foldl PlannedUpdate.replace S) ∧
        s'.next_auto_increment = us.foldl (PlannedUpdate.advance tbl) s.next_auto_increment) s := by
  unfold update_where
  rw [wp_bind]
  refine wp_mono (scan_rows hrep) (fun ms s₁ h₁ => ?_) fun err _ herr => ⟨herr.1, .inl herr.2⟩
  obtain ⟨rfl, htotal, hms, hnodup⟩ := h₁
  refine wp_mono (update_matched_stores hb (storing_of_represents hrep hS) hnv fun m hm => ((hms m).1 hm).1) (fun _ s₂ h₂ => ?_)
    fun err s₂ h₂ => ?_
  · obtain ⟨hframe, us, hbatch, hfits, hstoring, hnext⟩ := h₂
    exact ⟨hframe, htotal, ms, us, hbatch, hms, hfits, hstoring, hnext⟩
  · exact ⟨h₂.1, .inr ⟨ms, hms, hnodup, h₂.2⟩⟩

/-- **The rows that match go**, or nothing is changed. -/
theorem delete_where_spec (hb : tbl.Bound) (h : tbl.Holding s S) {predicate : Predicate} :
    wp (tbl.delete_where predicate) (fun err s' => s' = s ∧ err = .predicate ∧ ¬ ∀ e ∈ S, (predicate e.2).isSome = true)
      (fun _ s' => s'.next_auto_increment = s.next_auto_increment ∧ Frame s s' tbl.Owns ∧ (∀ e ∈ S, (predicate e.2).isSome = true) ∧
        tbl.Holding s' (S \ { e | e ∈ S ∧ predicate e.2 = some true })) s := by
  unfold delete_where
  rw [wp_bind]
  refine wp_post (scan_rows h.represents) fun ms s₁ h₁ => ?_
  obtain ⟨rfl, htotal, hms, hnodup⟩ := h₁
  rw [wp_bind]
  refine wp_mono (remove_rows_spec hb ms h (fun m hm => ((hms m).1 hm).1) hnodup) (fun _ s₂ h₂ => ?_) fun _ _ herr => herr.elim
  have hset : { e | ∃ m ∈ ms, m.entry = e } = { e | e ∈ S ∧ predicate e.2 = some true } := by
    simp only [← matched_where hms, eq_comm]
  rw [hset] at h₂
  exact ⟨h₂.1, h₂.2.1, htotal, h₂.2.2⟩

end Table

end GSDBEngine
