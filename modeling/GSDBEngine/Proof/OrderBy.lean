import GSDBEngine.Spec.Select

/-!
# The comparator of ORDER BY

In ascending order the comparator is the order of the values with the NULLs behind them, a strict weak order but for NaN. In
descending order it is the negation, which **says of equal values that each is less than the other**.

* `strictWeak_iff`: the comparator is a strict weak order exactly where the values are `Sortable`.
* `order_by_iff`: both sorts keep the promise of ORDER BY **exactly where the values are `Sortable`**: descending, where all are NULL.
-/

namespace GSDBEngine

variable {α : Type} {ascending : Bool} {v w n : Value} {vals : List Value} {key : α → Value} {vec : List α}

/-! ### The comparison of values -/

theorem value_less_than_same (h : v.index = w.index) : value_less_than v w = (!v.isNull && v.lt w) := by
  cases v <;> cases w <;> simp_all [value_less_than, Value.index, Value.isNull]

theorem value_less_than_self : value_less_than v v = false := by
  cases v with
  | float x => simp [value_less_than, Value.index, Value.lt, Single.lt]
  | varchar x =>
    rw [value_less_than_same rfl]
    have h := (Value.lt_iff (.varchar x) (.varchar x) rfl rfl).not.2 (lt_irrefl _)
    simp [h]
  | _ => simp [value_less_than, Value.index, Value.lt]

/-- A NaN is neither below nor above anything. -/
theorem value_less_than_nan (hn : n.isNaN = true) : value_less_than n v = false ∧ value_less_than v n = false := by
  cases n with
  | float x =>
    have hx : x.isNaN = true := hn
    cases v <;> simp [value_less_than, Value.index, Value.lt, Single.lt, hx]
  | _ => cases hn

theorem isNull_iff : v.isNull = true ↔ v = .null := by cases v <;> simp [Value.isNull]

theorem isNull_eq_false : v.isNull = false ↔ v ≠ .null := by cases v <;> simp [Value.isNull]

/-- Two values of the column, neither of them NULL. -/
theorem OneType.index_eq (h : OneType vals) (hv : v ∈ vals) (hw : w ∈ vals) (hvn : v ≠ .null) (hwn : w ≠ .null) :
    v.index = w.index := by
  obtain ⟨type, h⟩ := h
  have h₁ := (h v hv).resolve_left hvn
  have h₂ := (h w hw).resolve_left hwn
  rw [h₁, h₂]

/-! ### The comparator -/

theorem order_by_less_null (hv : v = .null) : order_by_less ascending v w = false := by
  subst hv
  cases w <;> rfl

theorem order_by_less_of_null (hv : v ≠ .null) (hw : w = .null) : order_by_less ascending v w = true := by
  subst hw
  cases v <;> first | rfl | exact absurd rfl hv

theorem order_by_less_of_ne (hv : v ≠ .null) (hw : w ≠ .null) :
    order_by_less ascending v w = if ascending then value_less_than v w else !value_less_than v w := by
  rw [← isNull_eq_false] at hv hw
  simp [order_by_less, hv, hw]

/-- Descending, a value is less than itself. -/
theorem order_by_less_descending_self (hv : v ≠ .null) : order_by_less false v v = true := by
  rw [order_by_less_of_ne hv hv, value_less_than_self]
  rfl

/-- Ascending and without NaN: the order of the values, NULL last. -/
theorem order_by_less_ascending (h : OneType vals) (hnan : ∀ v ∈ vals, v.isNaN = false) (hv : v ∈ vals) (hw : w ∈ vals) :
    order_by_less true v w = true ↔ toLex (v.isNull, v.rank) < toLex (w.isNull, w.rank) := by
  by_cases hvn : v = .null
  · rw [order_by_less_null hvn, Prod.Lex.toLex_lt_toLex]
    subst hvn
    cases hwn : w.isNull
    · simp [Value.isNull]
    · simp [Value.isNull, isNull_iff.1 hwn]
  · have hv0 : v.isNull = false := isNull_eq_false.2 hvn
    by_cases hwn : w = .null
    · rw [order_by_less_of_null hvn hwn, Prod.Lex.toLex_lt_toLex]
      subst hwn
      simp [Value.isNull]
    · have hw0 : w.isNull = false := isNull_eq_false.2 hwn
      rw [order_by_less_of_ne hvn hwn, if_pos rfl, value_less_than_same (h.index_eq hv hw hvn hwn), Prod.Lex.toLex_lt_toLex]
      simp [hv0, hw0, Value.lt_iff v w (hnan v hv) (hnan w hw)]

/-- Where no value is below another only NULL matters. -/
theorem order_by_less_incomparable (h : ∀ v ∈ vals, ∀ w ∈ vals, value_less_than v w = false) (hv : v ∈ vals) (hw : w ∈ vals) :
    order_by_less true v w = true ↔ v.isNull < w.isNull := by
  by_cases hvn : v = .null
  · rw [order_by_less_null hvn]
    subst hvn
    cases w <;> simp [Value.isNull]
  · have hv0 : v.isNull = false := isNull_eq_false.2 hvn
    by_cases hwn : w = .null
    · rw [order_by_less_of_null hvn hwn]
      subst hwn
      simp [Value.isNull]
    · have hw0 : w.isNull = false := isNull_eq_false.2 hwn
      rw [order_by_less_of_ne hvn hwn, if_pos rfl, h v hv w hw]
      simp [hv0, hw0]

/-- **A strict weak order**, as `std::stable_sort` requires. -/
theorem strictWeak_iff (h : OneType vals) : StableSort.StrictWeak (order_by_less ascending) vals ↔ Sortable ascending vals := by
  constructor
  · intro hsw
    by_contra hsort
    obtain ⟨hsome, hasc⟩ := not_or.1 hsort
    simp only [not_forall] at hsome
    obtain ⟨v, hv, hvn⟩ := hsome
    cases ascending with
    | false =>
      have hself := hsw.irrefl v hv
      rw [order_by_less_descending_self hvn] at hself
      cases hself
    | true =>
      simp only [true_and, Classical.not_imp, not_forall, Bool.not_eq_false] at hasc
      obtain ⟨⟨n, hn, hnan⟩, a, ha, b, hb, hab⟩ := hasc
      -- the NaN is incomparable to both, and they are not to each other
      have hne : ∀ x, x ∈ vals → x = .null → value_less_than a x = false ∧ value_less_than x b = false := by
        rintro x - rfl
        exact ⟨by cases a <;> rfl, by cases b <;> rfl⟩
      have han : a ≠ .null := fun h => by rw [(hne a ha h).2] at hab; cases hab
      have hbn : b ≠ .null := fun h => by rw [(hne b hb h).1] at hab; cases hab
      have hnn : n ≠ .null := by rintro rfl; cases hnan
      have hless : ∀ x, x ≠ .null → order_by_less true x n = false ∧ order_by_less true n x = false := fun x hx => by
        rw [order_by_less_of_ne hx hnn, order_by_less_of_ne hnn hx]
        exact ⟨(value_less_than_nan hnan).2, (value_less_than_nan hnan).1⟩
      have habf := hsw.incomp a ha n hn b hb (hless a han).1 (hless a han).2 (hless b hbn).2 (hless b hbn).1
      rw [order_by_less_of_ne han hbn, if_pos rfl, hab] at habf
      cases habf
  · rintro (hnull | ⟨rfl, hcmp⟩)
    · refine StableSort.StrictWeak.of_rank (fun _ => 0) fun v hv w _ => ?_
      rw [order_by_less_null (hnull v hv)]
      simp
    · by_cases hnan : ∃ v ∈ vals, v.isNaN = true
      · exact .of_rank Value.isNull fun v hv w hw => order_by_less_incomparable (hcmp hnan) hv hw
      · have hno : ∀ v ∈ vals, v.isNaN = false := fun v hv => by
          by_contra hv'
          exact hnan ⟨v, hv, by simpa using hv'⟩
        exact .of_rank (fun v => toLex (v.isNull, v.rank)) fun v hv w hw => order_by_less_ascending h hno hv hw

/-! ### The sorts -/

/-- Values equal to one value: none is below another. -/
theorem value_less_than_of_eq {u : Value} (hv : v.eq u = true) (hw : w.eq u = true) : value_less_than v w = false := by
  have hindex : v.index = u.index ∧ w.index = u.index := by
    cases u <;> cases v <;> cases w <;> simp_all [Value.eq, Value.index]
  have hnan : v.isNaN = false ∧ w.isNaN = false ∧ u.isNaN = false := by
    cases u <;> cases v <;> cases w <;> simp_all [Value.eq, Value.isNaN, Single.eq]
  rw [value_less_than_same (hindex.1.trans hindex.2.symm)]
  have hrank : v.rank = w.rank :=
    ((Value.eq_iff v u hnan.1 hnan.2.2).1 hv).trans ((Value.eq_iff w u hnan.2.1 hnan.2.2).1 hw).symm
  have hlt := (Value.lt_iff v w hnan.1 hnan.2.1).not.2 (by rw [hrank]; exact lt_irrefl _)
  simp [Bool.not_eq_true _ ▸ hlt]

theorem eq_null_iff : v.eq .null = true ↔ v = .null := by cases v <;> simp [Value.eq]

/-- The sort keeps what ORDER BY promises. -/
theorem ordered_sort (h : OneType (vec.map key)) (hsort : Sortable ascending (vec.map key)) :
    OrderedBy ascending key vec (StableSort.sort (fun a b => order_by_less ascending (key a) (key b)) vec) := by
  have hperm : (StableSort.sort (fun a b => order_by_less ascending (key a) (key b)) vec).Perm vec := StableSort.sort_perm vec
  have hsorted := StableSort.sort_sorted ((strictWeak_iff h).2 hsort).comap
  refine ⟨hperm, hsorted.imp fun {a b} hba ha => ?_, hsorted.imp_of_mem fun {a b} ha hb hba han hbn => ?_, fun v => ?_⟩
  · by_contra hb
    rw [isNull_iff] at ha hb
    rw [order_by_less_of_null hb ha] at hba
    cases hba
  · rw [isNull_eq_false] at han hbn
    rcases hsort with hnull | ⟨rfl, -⟩
    · exact absurd (hnull _ (List.mem_map_of_mem (hperm.subset ha))) han
    · rw [order_by_less_of_ne hbn han] at hba
      simpa using hba
  · refine StableSort.sort_filter fun a ha b hb hav hbv => ?_
    by_cases han : key a = .null
    · exact order_by_less_null han
    · have hbn : key b ≠ .null := by
        intro hbn
        rw [hbn] at hbv
        cases v <;> first | exact han (eq_null_iff.1 hav) | cases hbv
      rcases hsort with hnull | ⟨rfl, -⟩
      · exact absurd (hnull _ (List.mem_map_of_mem ha)) han
      · rw [order_by_less_of_ne han hbn, if_pos rfl]
        exact value_less_than_of_eq hav hbv

/-- Where every row has the column. -/
theorem sort_by_column_eq {col_idx : ℕ} {get_row : α → Row} (hrow : ∀ a ∈ vec, col_idx < (get_row a).length) :
    sort_by_column col_idx ascending get_row vec =
      .ok (StableSort.sort (fun a b => order_by_less ascending (sort_key col_idx get_row a) (sort_key col_idx get_row b)) vec) := by
  have hall : (vec.forM fun a => discard ((get_row a).get col_idx) : Except ExecErr Unit) = .ok () := by
    induction vec with
    | nil => rfl
    | cons a vec ih =>
      obtain ⟨v, ha⟩ : ∃ v, (get_row a).get col_idx = .ok v := by
        rw [Row.get, List.getElem?_eq_getElem (hrow a List.mem_cons_self)]
        exact ⟨_, rfl⟩
      show (discard ((get_row a).get col_idx) >>= fun _ => vec.forM fun a => discard ((get_row a).get col_idx)) = _
      rw [ha]
      exact ih fun b hb => hrow b (List.mem_cons_of_mem _ hb)
  unfold sort_by_column
  split
  · rw [hall]
    rfl
  · rfl

/-- **ORDER BY**, on the rows of a SELECT and on those of its groups, keeps its promise exactly where the values are sortable. -/
theorem order_by_iff (ascending : Bool) :
    (∀ (α : Type) (col_idx : ℕ) (get_row : α → Row) (vec : List α), (∀ a ∈ vec, col_idx < (get_row a).length) →
      OneType (vec.map (sort_key col_idx get_row)) →
      ((StableSort.StrictWeak (order_by_less ascending) (vec.map (sort_key col_idx get_row)) ∧
        ∃ sorted, sort_by_column col_idx ascending get_row vec = .ok sorted ∧
          OrderedBy ascending (sort_key col_idx get_row) vec sorted) ↔
        Sortable ascending (vec.map (sort_key col_idx get_row)))) ∧
    ∀ output_rows : List (Value × List Bytes), OneType (output_rows.map Prod.fst) →
      ((StableSort.StrictWeak (order_by_less ascending) (output_rows.map Prod.fst) ∧
        OrderedBy ascending Prod.fst output_rows (sort_groups ascending output_rows)) ↔
        Sortable ascending (output_rows.map Prod.fst)) := by
  refine ⟨fun α col_idx get_row vec hrow htype => ⟨fun h => (strictWeak_iff htype).1 h.1, fun h => ?_⟩,
    fun output_rows htype => ⟨fun h => (strictWeak_iff htype).1 h.1, fun h => ?_⟩⟩
  · exact ⟨(strictWeak_iff htype).2 h, _, sort_by_column_eq hrow, ordered_sort htype h⟩
  · exact ⟨(strictWeak_iff htype).2 h, ordered_sort htype h⟩

/-- Five and seven, ascending, with a NULL. -/
theorem order_by_iff_ascending :
    (StableSort.StrictWeak (order_by_less true) [.int 7, .null, .int 5] ∧
      ∃ sorted, sort_by_column 0 true id [[.int 7], [.null], [.int 5]] = .ok sorted ∧
        OrderedBy true (sort_key 0 id) [[.int 7], [.null], [.int 5]] sorted) ∧
    (StableSort.StrictWeak (order_by_less true) [.int 7, .null] ∧
      OrderedBy true Prod.fst [(.int 7, []), (.null, [])] (sort_groups true [(.int 7, []), (.null, [])])) := by
  have h := order_by_iff true
  have hsort : ∀ vals : List Value, (∀ v ∈ vals, v.isNaN = false) → Sortable true vals := by
    rintro vals hv
    refine .inr ⟨rfl, ?_⟩
    rintro ⟨v, hmem, hnan⟩
    rw [hv v hmem] at hnan
    cases hnan
  exact ⟨(h.1 Row 0 id [[.int 7], [.null], [.int 5]] (by decide) ⟨1, by decide⟩).2 (hsort _ (by decide)),
    (h.2 [(.int 7, []), (.null, [])] ⟨1, by decide⟩).2 (hsort _ (by decide))⟩

/-- **Two rows with one value, descending**: each of them is less than the other, and than itself. -/
theorem order_by_descending_ties :
    OneType [.int 1, .int 1] ∧ order_by_less false (.int 1) (.int 1) = true ∧
      ¬ StableSort.StrictWeak (order_by_less false) [.int 1, .int 1] := by
  refine ⟨⟨1, by decide⟩, by decide, fun h => ?_⟩
  have hself := h.irrefl (.int 1) List.mem_cons_self
  exact absurd hself (by decide)

end GSDBEngine
