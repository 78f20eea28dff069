import GSDBEngine.Proof.Where
import GSDBEngine.Proof.Table

/-!
# The rows of a join

The two loops compute the join whose ON clause is the variant's `==`. It differs from the comparison of
WHERE on two NULLs, and on an INT and a FLOAT of one value.

* `join_left_eq`, `join_right_eq`: either loop computes `sql_join_on`.
* `nested_loop_join_iff`: **the rows are those of the JOIN exactly if no two join values are both NULL, or an
  INT and a FLOAT that compare equal.**
* `null_joins_null`: two rows whose join columns are NULL.
-/

namespace GSDBEngine

variable {li ri lw rw : ℕ} {type : JoinType} {lr rr : ScanResult} {left right : List ScanResult} {l r : Value}

/-! ### `==` and `=` -/

theorem Value.eq_index (h : l.eq r = true) : l.index = r.index := by
  cases l <;> cases r <;> first | rfl | cases h

theorem compare_values_same (hl : l ≠ .null) (hi : l.index = r.index) : compare_values l .EQ r = l.eq r := by
  cases l <;> cases r <;> first | exact absurd rfl hl | rfl | cases hi

/-- **Where the two comparisons agree.** -/
theorem eq_iff_comparable : l.eq r = compare_values l .EQ r ↔ Comparable l r := by
  by_cases hi : l.index = r.index
  · by_cases hl : l = .null
    · subst hl
      obtain rfl : r = .null := by
        cases r <;> first | rfl | cases hi
      exact ⟨nofun, fun h => absurd ⟨rfl, rfl⟩ h.1⟩
    · rw [compare_values_same hl hi]
      exact ⟨fun _ => ⟨fun h => hl h.1, fun h => absurd hi h⟩, fun _ => rfl⟩
  · have hne : l.eq r = false := Bool.eq_false_iff.2 fun h => hi (Value.eq_index h)
    rw [hne]
    exact ⟨fun h => ⟨fun hn => hi (by rw [hn.1, hn.2]), fun _ => h.symm⟩, fun h => (h.2 hi).symm⟩

/-! ### The loops -/

/-- The ON clause of the loops. -/
def same_value (left_col_idx right_col_idx : ℕ) (l r : Row) : Bool := (l.getD left_col_idx .null).eq (r.getD right_col_idx .null)

theorem Row.get_ok {row : Row} {i : ℕ} (h : i < row.length) : Row.get row i = .ok (row.getD i .null) := by
  unfold Row.get
  rw [List.getElem?_eq_getElem h, List.getD_eq_getElem?_getD, List.getElem?_eq_getElem h]
  rfl

theorem joins_ok (hl : li < lr.row.length) (hr : ri < rr.row.length) : joins li ri lr rr = .ok (same_value li ri lr.row rr.row) := by
  unfold joins
  rw [Row.get_ok hl, Row.get_ok hr]
  rfl

/-- The rows of the results. -/
abbrev rows_of (results : List ScanResult) : Multiset Row := results.map ScanResult.row

theorem match_right_eq (hl : li < lr.row.length) : ∀ {right : List ScanResult}, (∀ rr ∈ right, ri < rr.row.length) →
    ∃ out, match_right li ri lr right = .ok out ∧
      (out.map JoinedRow.row : Multiset Row) = ((rows_of right).filter fun b => same_value li ri lr.row b = true).map (lr.row ++ ·)
  | [], _ => ⟨[], rfl, rfl⟩
  | rr :: right, hr => by
    obtain ⟨out, hout, hrows⟩ := match_right_eq hl fun rr h => hr rr (List.mem_cons_of_mem _ h)
    refine ⟨if same_value li ri lr.row rr.row then combine lr rr :: out else out, ?_, ?_⟩
    · unfold match_right
      rw [joins_ok hl (hr rr List.mem_cons_self), hout]
      rfl
    · show _ = ((rr.row ::ₘ rows_of right).filter _).map _
      by_cases hp : same_value li ri lr.row rr.row = true
      · rw [if_pos hp, Multiset.filter_cons_of_pos (p := fun b => same_value li ri lr.row b = true) _ hp, Multiset.map_cons, ← hrows]
        rfl
      · rw [if_neg hp, Multiset.filter_cons_of_neg (p := fun b => same_value li ri lr.row b = true) _ hp, ← hrows]

theorem match_left_eq (hr : ri < rr.row.length) : ∀ {left : List ScanResult}, (∀ lr ∈ left, li < lr.row.length) →
    ∃ out, match_left li ri rr left = .ok out ∧
      (out.map JoinedRow.row : Multiset Row) = ((rows_of left).filter fun a => same_value li ri a rr.row = true).map (· ++ rr.row)
  | [], _ => ⟨[], rfl, rfl⟩
  | lr :: left, hl => by
    obtain ⟨out, hout, hrows⟩ := match_left_eq hr fun lr h => hl lr (List.mem_cons_of_mem _ h)
    refine ⟨if same_value li ri lr.row rr.row then combine lr rr :: out else out, ?_, ?_⟩
    · unfold match_left
      rw [joins_ok (hl lr List.mem_cons_self) hr, hout]
      rfl
    · show _ = ((lr.row ::ₘ rows_of left).filter _).map _
      by_cases hp : same_value li ri lr.row rr.row = true
      · rw [if_pos hp, Multiset.filter_cons_of_pos (p := fun a => same_value li ri a rr.row = true) _ hp, Multiset.map_cons, ← hrows]
        rfl
      · rw [if_neg hp, Multiset.filter_cons_of_neg (p := fun a => same_value li ri a rr.row = true) _ hp, ← hrows]

theorem isEmpty_iff {out : List JoinedRow} {s : Multiset Row} {p : Row → Bool} {f : Row → Row}
    (h : (out.map JoinedRow.row : Multiset Row) = (s.filter fun b => p b = true).map f) :
    out.isEmpty = true ↔ ∀ b ∈ s, p b = false := by
  have hcard : out.length = (s.filter fun b => p b = true).card := by
    have := congrArg Multiset.card h
    rwa [Multiset.card_map, Multiset.coe_card, List.length_map] at this
  rw [List.isEmpty_iff_length_eq_zero, hcard, Multiset.card_eq_zero, Multiset.filter_eq_nil]
  simp only [Bool.not_eq_true]

/-- **INNER and LEFT.** -/
theorem join_left_eq (htype : type ≠ .RIGHT) (hr : ∀ rr ∈ right, ri < rr.row.length) : ∀ {left : List ScanResult},
    (∀ lr ∈ left, li < lr.row.length ∧ lr.row.length = lw) → ∃ out, join_left li ri type lw rw right left = .ok out ∧
      (out.map JoinedRow.row : Multiset Row) = sql_join_on (same_value li ri) type lw rw (rows_of left) (rows_of right)
  | [], _ => by
    refine ⟨[], rfl, ?_⟩
    unfold sql_join_on
    rw [decide_eq_false htype]
    exact OuterJoin.output_zero_left.symm
  | lr :: left, hl => by
    obtain ⟨rest, hrest, hrows⟩ := join_left_eq htype hr fun lr h => hl lr (List.mem_cons_of_mem _ h)
    obtain ⟨hli, hlw⟩ := hl lr List.mem_cons_self
    obtain ⟨matched, hmatched, hpairs⟩ := match_right_eq hli hr
    have hempty := isEmpty_iff hpairs
    have hpad : (lr.row.rightpad (lw + rw) .null).take (lw + rw) = lr.row ++ List.replicate rw .null := by
      rw [List.rightpad, hlw, Nat.add_sub_cancel_left, List.take_of_length_le]
      rw [List.length_append, List.length_replicate, hlw]
    refine ⟨if matched.isEmpty && type = .LEFT then
      ⟨(lr.row.rightpad (lw + rw) .null).take (lw + rw), lr.primary_key⟩ :: rest else matched ++ rest, ?_, ?_⟩
    · unfold join_left
      rw [hmatched, hrest]
      simp only [bind, Except.bind]
      split <;> rfl
    · unfold sql_join_on at hrows ⊢
      rw [decide_eq_false htype] at hrows ⊢
      show _ = OuterJoin.output _ _ _ _ _ false (lr.row ::ₘ rows_of left) (rows_of right)
      rw [OuterJoin.output_cons_left, ← hpairs, ← hrows]
      by_cases hpadded : (matched.isEmpty && type = .LEFT) = true
      · rw [if_pos hpadded, hpad]
        obtain ⟨he, ht⟩ := Bool.and_eq_true_iff.1 hpadded
        rw [if_pos ⟨ht, hempty.1 he⟩, List.isEmpty_iff.1 he]
        rfl
      · rw [if_neg hpadded, if_neg fun h => hpadded (Bool.and_eq_true_iff.2 ⟨hempty.2 h.2, h.1⟩), add_zero, Multiset.coe_add,
          List.map_append]

/-- **RIGHT.** -/
theorem join_right_eq (hl : ∀ lr ∈ left, li < lr.row.length) : ∀ {right : List ScanResult}, (∀ rr ∈ right, ri < rr.row.length) →
    ∃ out, join_right li ri lw left right = .ok out ∧
      (out.map JoinedRow.row : Multiset Row) = sql_join_on (same_value li ri) .RIGHT lw rw (rows_of left) (rows_of right)
  | [], _ => ⟨[], rfl, OuterJoin.output_zero_right.symm⟩
  | rr :: right, hr => by
    obtain ⟨rest, hrest, hrows⟩ := join_right_eq hl fun rr h => hr rr (List.mem_cons_of_mem _ h)
    obtain ⟨matched, hmatched, hpairs⟩ := match_left_eq (hr rr List.mem_cons_self) hl
    have hempty := isEmpty_iff hpairs
    refine ⟨if matched.isEmpty then ⟨List.replicate lw .null ++ rr.row, []⟩ :: rest else matched ++ rest, ?_, ?_⟩
    · unfold join_right
      rw [hmatched, hrest]
      simp only [bind, Except.bind]
      split <;> rfl
    · have hrest' : (rest.map JoinedRow.row : Multiset Row) = OuterJoin.output _ _ _ _ false _ (rows_of left) (rows_of right) := hrows
      show _ = OuterJoin.output _ _ _ _ false _ (rows_of left) (rr.row ::ₘ rows_of right)
      rw [OuterJoin.output_cons_right, ← hpairs, ← hrest']
      by_cases he : matched.isEmpty = true
      · rw [if_pos he, if_pos ⟨rfl, hempty.1 he⟩, List.isEmpty_iff.1 he]
        rfl
      · rw [if_neg he, if_neg fun h => he (hempty.2 h.2), add_zero, List.map_append, ← Multiset.coe_add]

/-! ### The whole -/

/-- A row read from a table is not all NULL. -/
theorem TableSchema.Holds.ne_nulls {schema : TableSchema} {row : Row} (h : schema.Holds row) (n : ℕ) : row ≠ List.replicate n .null := by
  obtain ⟨v, key, hkey⟩ := h.key
  obtain ⟨hmap, hvals⟩ := extract_primary_key_go hkey
  rintro rfl
  cases hi : schema.primary_key_indices with
  | nil => rw [hi] at hmap; cases hmap
  | cons i is =>
    obtain ⟨w, hw, hnull⟩ := hvals i (by rw [hi]; exact List.mem_cons_self)
    obtain rfl := List.eq_of_mem_replicate (List.mem_of_getElem? hw)
    cases hnull

theorem resolve_column_lt {ref : ColumnRef} {schema : TableSchema} {table_alias : Bytes} {i : ℕ}
    (h : resolve_column ref schema table_alias = .ok i) : i < schema.columns.length := by
  unfold resolve_column at h
  split at h
  · cases h
  · cases hcol : schema.column_index ref.column_name with
    | none => rw [hcol] at h; cases h
    | some j =>
      rw [hcol] at h
      obtain rfl := Except.ok.inj h
      exact (List.findIdx?_eq_some_iff_findIdx_eq.1 hcol).1

variable {left_schema : TableSchema} {right_table : Table} {join : JoinClause} {left_alias right_alias : Bytes} {s : TableState}
  {S : Contents}

/-- The rows have the width of the join. -/
theorem sql_join_width {partner : Row → Row → Bool} {L R : Multiset Row} (hL : ∀ l ∈ L, l.length = lw) (hR : ∀ r ∈ R, r.length = rw) :
    ∀ row ∈ sql_join_on partner type lw rw L R, row.length = lw + rw := by
  intro row hrow
  unfold sql_join_on OuterJoin.output at hrow
  rw [Multiset.mem_add, Multiset.mem_add, OuterJoin.mem_inner] at hrow
  rcases hrow with (⟨l, hl, r, hr, -, rfl⟩ | hrow) | hrow
  · rw [List.length_append, hL l hl, hR r hr]
  · split at hrow
    · obtain ⟨l, hl, rfl⟩ := Multiset.mem_map.1 hrow
      rw [List.length_append, List.length_replicate, hL l (Multiset.mem_of_mem_filter hl)]
    · exact absurd hrow (Multiset.notMem_zero _)
  · split at hrow
    · obtain ⟨r, hr, rfl⟩ := Multiset.mem_map.1 hrow
      rw [List.length_append, List.length_replicate, hR r (Multiset.mem_of_mem_filter hr)]
    · exact absurd hrow (Multiset.notMem_zero _)

/-- The scan without a predicate. -/
theorem scan_all_spec (hrep : right_table.Represents s.trees S) : ∃ results, right_table.scan (fun _ => some true) s = .ok results s ∧
    (results.map ScanResult.primary_key).Nodup ∧ ∀ rr, rr ∈ results ↔ rr.entry ∈ S ∧ some true = some true :=
  Table.scan_spec hrep fun _ _ => rfl

/-- **The join of `==`.** -/
theorem nested_loop_join_eq (hl : resolve_column join.left_col left_schema left_alias = .ok li)
    (hr : resolve_column join.right_col right_table.schema right_alias = .ok ri)
    (hleft : ∀ lr ∈ left, left_schema.Holds lr.row) (hrep : right_table.Represents s.trees S)
    (hS : ∀ e ∈ S, right_table.schema.Holds e.2) (hnodup : right.Nodup) (hright : ∀ rr, rr ∈ right ↔ rr.entry ∈ S) :
    ∃ out, nested_loop_join left left_schema right_table right_table.schema join left_alias right_alias s = .ok out ∧
      (out.map JoinedRow.row : Multiset Row) = sql_join_on (same_value li ri) join.type left_schema.columns.length
        right_table.schema.columns.length (rows_of left) (rows_of right) := by
  obtain ⟨results, hscan, hkeys, hmem⟩ := scan_all_spec hrep
  have hperm : results.Perm right := (List.perm_ext_iff_of_nodup (List.Nodup.of_map _ hkeys) hnodup).2 fun rr => by
    rw [hmem, hright, and_iff_left rfl]
  have hrows : rows_of results = rows_of right := Quot.sound (hperm.map _)
  have hwidth : ∀ rr ∈ results, ri < rr.row.length := fun rr h => by
    have hw : rr.row.length = _ := (hS _ ((hmem rr).1 h).1).width
    rw [hw]
    exact resolve_column_lt hr
  have hli : ∀ lr ∈ left, li < lr.row.length ∧ lr.row.length = left_schema.columns.length := fun lr h =>
    ⟨by rw [(hleft lr h).width]; exact resolve_column_lt hl, (hleft lr h).width⟩
  unfold nested_loop_join
  simp only [hl, hr, hscan, bind, Except.bind]
  rw [← hrows]
  by_cases htype : join.type = .RIGHT
  · rw [if_pos htype, htype]
    exact join_right_eq (fun lr h => (hli lr h).1) hwidth
  · rw [if_neg htype]
    exact join_left_eq htype hwidth hli

/-- **The join is that of SQL exactly if every two join values are comparable.** -/
theorem nested_loop_join_iff (hl : resolve_column join.left_col left_schema left_alias = .ok li)
    (hr : resolve_column join.right_col right_table.schema right_alias = .ok ri)
    (hleft : ∀ lr ∈ left, left_schema.Holds lr.row) (hrep : right_table.Represents s.trees S)
    (hS : ∀ e ∈ S, right_table.schema.Holds e.2) (hnodup : right.Nodup) (hright : ∀ rr, rr ∈ right ↔ rr.entry ∈ S) :
    (∃ out, nested_loop_join left left_schema right_table right_table.schema join left_alias right_alias s = .ok out ∧
      (out.map JoinedRow.row : Multiset Row) = sql_join li ri join.type left_schema.columns.length
        right_table.schema.columns.length (rows_of left) (rows_of right) ∧
      ∀ row ∈ out, row.row.length = left_schema.columns.length + right_table.schema.columns.length) ↔
    ∀ lr ∈ left, ∀ e ∈ S, Comparable (lr.row.getD li .null) (e.2.getD ri .null) := by
  obtain ⟨out, hout, hrows⟩ := nested_loop_join_eq hl hr hleft hrep hS hnodup hright
  have hL : ∀ l ∈ rows_of left, left_schema.Holds l := fun l h => by
    obtain ⟨lr, hlr, rfl⟩ := List.mem_map.1 (Multiset.mem_coe.1 h)
    exact hleft lr hlr
  have hR : ∀ r ∈ rows_of right, right_table.schema.Holds r := fun r h => by
    obtain ⟨rr, hrr, rfl⟩ := List.mem_map.1 (Multiset.mem_coe.1 h)
    exact hS _ ((hright rr).1 hrr)
  have hwidth : ∀ row ∈ out, row.row.length = left_schema.columns.length + right_table.schema.columns.length := by
    intro row h
    have hm : row.row ∈ (out.map JoinedRow.row : Multiset Row) := Multiset.mem_coe.2 (List.mem_map_of_mem h)
    rw [hrows] at hm
    exact sql_join_width (fun l h => (hL l h).width) (fun r h => (hR r h).width) row.row hm
  -- pairs of rows of one width are told apart, and a padded row has a side of NULLs
  have hinj : sql_join_on (same_value li ri) join.type left_schema.columns.length right_table.schema.columns.length (rows_of left)
      (rows_of right) = sql_join li ri join.type left_schema.columns.length right_table.schema.columns.length (rows_of left)
      (rows_of right) ↔ ∀ l ∈ rows_of left, ∀ r ∈ rows_of right, same_value li ri l r = on_clause li ri l r := OuterJoin.output_inj
    (fun l hl r _ l' hl' r' _ h => List.append_inj h ((hL l hl).width.trans (hL l' hl').width.symm))
    (fun l hl r hr l' hl' h => (hR r hr).ne_nulls _ (List.append_inj h ((hL l hl).width.trans (hL l' hl').width.symm)).2)
    (fun l hl r _ r' _ h => (hL l hl).ne_nulls _ (List.append_inj h (by rw [(hL l hl).width, List.length_replicate])).1)
  have hiff : (∀ l ∈ rows_of left, ∀ r ∈ rows_of right, same_value li ri l r = on_clause li ri l r) ↔
      ∀ lr ∈ left, ∀ e ∈ S, Comparable (lr.row.getD li .null) (e.2.getD ri .null) := by
    refine ⟨fun h lr hlr e he => ?_, fun h l hl r hr => ?_⟩
    · have hmem : (⟨e.1, e.2⟩ : ScanResult) ∈ right := (hright _).2 he
      exact eq_iff_comparable.1 (h lr.row (List.mem_map_of_mem hlr) e.2 (List.mem_map_of_mem (f := ScanResult.row) hmem))
    · obtain ⟨lr, hlr, rfl⟩ := List.mem_map.1 (Multiset.mem_coe.1 hl)
      obtain ⟨rr, hrr, rfl⟩ := List.mem_map.1 (Multiset.mem_coe.1 hr)
      exact eq_iff_comparable.2 (h lr hlr rr.entry ((hright rr).1 hrr))
  rw [← hiff, ← hinj]
  constructor
  · rintro ⟨out', hout', hrows', -⟩
    obtain rfl := Except.ok.inj (hout.symm.trans hout')
    exact hrows.symm.trans hrows'
  · exact fun h => ⟨out, hout, hrows.trans h, hwidth⟩

/-! ### Two NULLs -/

/-- The table of `nullable_scope`. -/
def nullable_table : Table := ⟨nullable_scope.schema, []⟩

/-- Its one row, with a NULL. -/
def null_row : Key × Row := ([.int 7], [.int 7, .null])

def null_trees : Trees where
  tree _ := ⟨⟨[(null_row.1, [2, 7, 0, 0, 0])], List.pairwise_singleton ..⟩, ⟨1, by decide⟩⟩
  roots _ := ⟨1, by decide⟩

def null_state : TableState := ⟨null_trees, 1, fun _ => 1, 1⟩

theorem null_represents : nullable_table.Represents null_trees {null_row} where
  rows k bytes h := by
    obtain ⟨rfl, rfl⟩ := Prod.mk.inj (List.mem_singleton.1 h)
    exact ⟨null_row.2, rfl, rfl⟩
  stored e h := by
    obtain rfl : e = null_row := h
    exact ⟨_, List.mem_singleton.2 rfl, rfl⟩
  indexes idx h := absurd h List.not_mem_nil

/-- `t l ... JOIN t r ON l.a = r.a`. -/
def on_a (type : JoinType) : JoinClause := ⟨type, [116], [114], ⟨[], [97]⟩, ⟨[], [97]⟩⟩

theorem nested_loop_join_iff_left :
    (∃ out, nested_loop_join [⟨[.int 3], [.int 3, .int 5]⟩] nullable_scope.schema nullable_table nullable_table.schema (on_a .LEFT)
        [108] [114] null_state = .ok out ∧
      (out.map JoinedRow.row : Multiset Row) = sql_join 1 1 .LEFT 2 2 (rows_of [⟨[.int 3], [.int 3, .int 5]⟩])
        (rows_of [⟨null_row.1, null_row.2⟩]) ∧
      ∀ row ∈ out, row.row.length = 2 + 2) ↔
    ∀ lr ∈ [(⟨[.int 3], [.int 3, .int 5]⟩ : ScanResult)], ∀ e ∈ ({null_row} : Contents), Comparable (lr.row.getD 1 .null) (e.2.getD 1 .null) := by
  refine nested_loop_join_iff (S := {null_row}) rfl rfl ?_ null_represents ?_ (List.nodup_singleton _) ?_
  · intro lr h
    obtain rfl := List.mem_singleton.1 h
    exact ⟨rfl, _, _, rfl⟩
  · rintro e rfl
    exact ⟨rfl, _, _, rfl⟩
  · rintro ⟨k, row⟩
    rw [List.mem_singleton, ScanResult.mk.injEq, Set.mem_singleton_iff, ScanResult.entry, null_row, Prod.mk.injEq]

/-- NULL joins NULL, where `l.a = r.a` is not TRUE. -/
theorem null_joins_null :
    nested_loop_join [⟨null_row.1, null_row.2⟩] nullable_scope.schema nullable_table nullable_table.schema (on_a .INNER) [108] [114]
        null_state = .ok [⟨[.int 7, .null, .int 7, .null], null_row.1⟩] ∧
      sql_join 1 1 .INNER 2 2 {null_row.2} {null_row.2} = 0 := ⟨rfl, rfl⟩

end GSDBEngine
