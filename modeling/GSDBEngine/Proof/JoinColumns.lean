import GSDBEngine.Spec.Access

/-!
# The columns of a JOIN

* `printed_first`: **the projection takes the first position there is.** `grouped_first`, `compared_first`: so do the other places, unless a name
  is ambiguous, which is an error there.
* `agree_iff`: all places agree exactly on the names that are not ambiguous.
-/

namespace GSDBEngine

variable {ref : ColumnRef} {left_schema right_schema : TableSchema} {left_alias right_alias : Bytes}

/-! ### The projection -/

/-- `SELECT ref`, by a position that may be missing. -/
structure PrintsAt (f : Row → Except ExecErr Bytes) (position : Option ℕ) : Prop where
  missing : position = none → ∀ row, ∃ e, f row = .error e
  there : ∀ idx, position = some idx → ∀ row, f row = (Row.get row idx).map value_to_string

theorem project_column_first : PrintsAt (fun row => project_column ref row left_schema (some right_schema) left_alias right_alias)
    (first_position ref left_schema right_schema left_alias right_alias) := by
  have hget : ∀ (row : Row) (idx : ℕ), (do let v ← row.get idx; pure (value_to_string v) : Except ExecErr Bytes) =
      (Row.get row idx).map value_to_string := by
    intro row idx
    cases Row.get row idx <;> rfl
  refine ⟨fun h row => ?_, fun idx h row => ?_⟩
  · unfold first_position at h
    unfold project_column
    by_cases hqualified : ref.table_name ≠ []
    · rw [if_pos hqualified] at h ⊢
      by_cases hleft : table_name_matches ref.table_name left_schema left_alias = true
      · rw [if_pos hleft] at h ⊢
        rw [h]
        exact ⟨_, rfl⟩
      · rw [if_neg hleft] at h ⊢
        by_cases hright : table_name_matches ref.table_name right_schema right_alias = true
        · rw [if_pos hright] at h
          rw [Option.any_some, if_pos hright, Option.bind_some, h]
          exact ⟨_, rfl⟩
        · rw [Option.any_some, if_neg hright]
          exact ⟨_, rfl⟩
    · rw [if_neg hqualified] at h ⊢
      rw [Option.bind_some, h]
      exact ⟨_, rfl⟩
  · unfold first_position at h
    unfold project_column
    by_cases hqualified : ref.table_name ≠ []
    · rw [if_pos hqualified] at h ⊢
      by_cases hleft : table_name_matches ref.table_name left_schema left_alias = true
      · rw [if_pos hleft] at h ⊢
        rw [h]
        exact hget row idx
      · rw [if_neg hleft] at h ⊢
        by_cases hright : table_name_matches ref.table_name right_schema right_alias = true
        · rw [if_pos hright] at h
          rw [Option.any_some, if_pos hright, Option.bind_some, h]
          exact hget row idx
        · rw [if_neg hright] at h
          cases h
    · rw [if_neg hqualified] at h ⊢
      rw [Option.bind_some, h]
      exact hget row idx

/-- **What is printed is the column at the first position**; without one there is an error. -/
theorem printed_first :
    (first_position ref left_schema right_schema left_alias right_alias = none →
      ∀ row, ∃ e, printed ref left_schema right_schema left_alias right_alias row = .error e) ∧
    ∀ idx, first_position ref left_schema right_schema left_alias right_alias = some idx →
      ∀ row, printed ref left_schema right_schema left_alias right_alias row = (Row.get row idx).map fun v => [value_to_string v] := by
  have hrow : ∀ row, printed ref left_schema right_schema left_alias right_alias row =
      project_column ref row left_schema (some right_schema) left_alias right_alias >>= fun text => pure [text] := by
    intro row
    show List.mapM _ [_] = _
    rw [List.mapM_cons]
    rfl
  have hcolumn := @project_column_first ref left_schema right_schema left_alias right_alias
  refine ⟨fun h row => ?_, fun idx h row => ?_⟩
  · obtain ⟨e, he⟩ := hcolumn.missing h row
    refine ⟨e, ?_⟩
    rw [hrow, he]
    rfl
  · rw [hrow, hcolumn.there idx h row]
    cases Row.get row idx <;> rfl

/-! ### The other places -/

theorem grouped_ambiguous (h : Ambiguous ref left_schema right_schema) :
    ∃ e, grouped ref left_schema right_schema left_alias right_alias = .error e := by
  obtain ⟨htable, hleft, hright⟩ := h
  have hboth : ((left_schema.column_index ref.column_name).isSome &&
      ((right_schema.column_index ref.column_name).map (left_schema.columns.length + ·)).isSome) = true := by
    rw [hleft, Option.isSome_map, hright]
    rfl
  unfold grouped resolve_column_join
  rw [if_neg (not_not.2 htable), if_pos hboth]
  exact ⟨_, rfl⟩

/-- An unambiguous name is looked up where the projection looks it up. -/
theorem not_both (h : ¬ Ambiguous ref left_schema right_schema) (htable : ¬ ref.table_name ≠ []) :
    ¬ ((left_schema.column_index ref.column_name).isSome &&
      ((right_schema.column_index ref.column_name).map (left_schema.columns.length + ·)).isSome) = true := by
  intro hboth
  rw [Bool.and_eq_true, Option.isSome_map] at hboth
  exact h ⟨not_not.1 htable, hboth.1, hboth.2⟩

theorem grouped_first (h : ¬ Ambiguous ref left_schema right_schema) :
    (first_position ref left_schema right_schema left_alias right_alias = none →
      ∃ e, grouped ref left_schema right_schema left_alias right_alias = .error e) ∧
    ∀ idx, first_position ref left_schema right_schema left_alias right_alias = some idx →
      grouped ref left_schema right_schema left_alias right_alias = .ok idx := by
  have hunqualified := not_both h
  unfold first_position grouped resolve_column_join
  by_cases hqualified : ref.table_name ≠ []
  · simp only [if_pos hqualified]
    by_cases hleft : table_name_matches ref.table_name left_schema left_alias = true
    · simp only [if_pos hleft]
      cases left_schema.column_index ref.column_name with
      | none => exact ⟨fun _ => ⟨_, rfl⟩, fun idx h => absurd h.symm (Option.some_ne_none idx)⟩
      | some i => exact ⟨fun h => absurd h (Option.some_ne_none i), fun idx h => congrArg Except.ok (Option.some.inj h)⟩
    · simp only [if_neg hleft]
      by_cases hright : table_name_matches ref.table_name right_schema right_alias = true
      · simp only [if_pos hright]
        cases (right_schema.column_index ref.column_name).map (left_schema.columns.length + ·) with
        | none => exact ⟨fun _ => ⟨_, rfl⟩, fun idx h => absurd h.symm (Option.some_ne_none idx)⟩
        | some i => exact ⟨fun h => absurd h (Option.some_ne_none i), fun idx h => congrArg Except.ok (Option.some.inj h)⟩
      · simp only [if_neg hright]
        exact ⟨fun _ => ⟨_, rfl⟩, fun idx h => absurd h.symm (Option.some_ne_none idx)⟩
  · simp only [if_neg hqualified, if_neg (hunqualified hqualified)]
    cases left_schema.column_index ref.column_name <|> (right_schema.column_index ref.column_name).map (left_schema.columns.length + ·) with
    | none => exact ⟨fun _ => ⟨_, rfl⟩, fun idx h => absurd h.symm (Option.some_ne_none idx)⟩
    | some i => exact ⟨fun h => absurd h (Option.some_ne_none i), fun idx h => congrArg Except.ok (Option.some.inj h)⟩

/-- In WHERE the same position is found, or the same ambiguity. -/
theorem try_resolve_first (h : ¬ Ambiguous ref left_schema right_schema) :
    try_resolve_column_join ref left_schema right_schema left_alias right_alias =
      .ok (first_position ref left_schema right_schema left_alias right_alias) := by
  have hunqualified := not_both h
  unfold first_position try_resolve_column_join
  by_cases hqualified : ref.table_name ≠ []
  · simp only [if_pos hqualified]
    split_ifs <;> rfl
  · simp only [if_neg hqualified, if_neg (hunqualified hqualified)]
    rfl

theorem compared_first (h : ¬ Ambiguous ref left_schema right_schema) (row : Row) :
    (first_position ref left_schema right_schema left_alias right_alias = none →
      ∃ e, compared ref left_schema right_schema left_alias right_alias row = .error e) ∧
    ∀ idx, first_position ref left_schema right_schema left_alias right_alias = some idx →
      compared ref left_schema right_schema left_alias right_alias row = row.get idx := by
  have htry : (Scope.mk left_schema (some right_schema) left_alias right_alias).try_resolve ref =
      .ok (first_position ref left_schema right_schema left_alias right_alias) := try_resolve_first h
  unfold compared resolve_value
  rw [htry]
  refine ⟨fun hnone => ?_, fun idx hsome => ?_⟩
  · rw [hnone]
    exact ⟨_, rfl⟩
  · rw [hsome]
    rfl

/-- **All places agree on a name exactly if it is not an unqualified one of both tables**: the projection takes the left one, and the others
raise an error. -/
theorem agree_iff (ref : ColumnRef) (left_schema right_schema : TableSchema) (left_alias right_alias : Bytes) :
    Agree ref left_schema right_schema left_alias right_alias ↔ ¬ Ambiguous ref left_schema right_schema := by
  obtain ⟨hmissing, hthere⟩ := @printed_first ref left_schema right_schema left_alias right_alias
  constructor
  · rintro hagree hambiguous
    obtain ⟨e, he⟩ : ∃ e, grouped ref left_schema right_schema left_alias right_alias = .error e := grouped_ambiguous hambiguous
    obtain ⟨htable, hleft, -⟩ := hambiguous
    rcases hagree with ⟨idx, hpicked⟩ | hrejected
    · rw [hpicked.grouped] at he
      cases he
    · -- the left column is printed of a row that has it
      obtain ⟨idx, hidx⟩ := Option.isSome_iff_exists.1 hleft
      have hfirst : first_position ref left_schema right_schema left_alias right_alias = some idx := by
        unfold first_position
        rw [if_neg (not_not.2 htable), hidx]
        rfl
      obtain ⟨e', he'⟩ := hrejected.printed (List.replicate (idx + 1) .null)
      have hget : Row.get (List.replicate (idx + 1) .null) idx = .ok .null := by
        unfold Row.get
        rw [List.getElem?_replicate, if_pos (Nat.lt_succ_self idx)]
        rfl
      rw [hthere idx hfirst, hget] at he'
      cases he'
  · intro h
    cases hfirst : first_position ref left_schema right_schema left_alias right_alias with
    | none => exact .inr ⟨(grouped_first h).1 hfirst, fun row => (compared_first h row).1 hfirst, hmissing hfirst⟩
    | some idx => exact .inl ⟨idx, (grouped_first h).2 idx hfirst, fun row => (compared_first h row).2 idx hfirst, hthere idx hfirst⟩

/-- A table of one INT column `a`. -/
def table_of_a (name : Bytes) : TableSchema where
  name := name
  columns :=
    [{ name := [97], type := .INT, max_length := 0, is_nullable := true, is_primary_key := false, auto_increment := false,
       has_default := false, default_value := .null, no_default := fun _ => rfl }]
  root_page := 1
  primary_key_indices := []
  checks := []
  foreign_keys := []
  create_sql := []

/-- `SELECT a` of two tables with an `a` prints the left one, where `ORDER BY a` is ambiguous. -/
theorem left_a_printed : ¬ ∀ ref left_schema right_schema left_alias right_alias, Agree ref left_schema right_schema left_alias right_alias := by
  intro h
  have hprinted : printed ⟨[], [97]⟩ (table_of_a [116]) (table_of_a [117]) [] [] [.int 1, .int 2] = .ok [[49]] := rfl
  have hgrouped : grouped ⟨[], [97]⟩ (table_of_a [116]) (table_of_a [117]) [] [] = .error (.ambiguous_column [97] [116] [117]) := rfl
  rcases h ⟨[], [97]⟩ (table_of_a [116]) (table_of_a [117]) [] [] with ⟨idx, hpicked⟩ | hrejected
  · rw [hpicked.grouped] at hgrouped
    cases hgrouped
  · obtain ⟨e, he⟩ := hrejected.printed [.int 1, .int 2]
    rw [hprinted] at he
    cases he

end GSDBEngine
