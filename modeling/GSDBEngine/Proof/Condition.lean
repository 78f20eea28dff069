import GSDBEngine.Proof.Parser

/-!
# Conditions, as they are printed and read

* `yields_shaped`: **what is spelled has the shape**. `writes_or_expr`: **the words of a tree spell it.**
* `condition_parsed`: **the parser accepts exactly the conditions.**
-/

namespace GSDBEngine

open LL

variable {α : Type}

/-! ### Trees -/

theorem not_tree.and_tree : ∀ {e : Formula α}, not_tree e → and_tree e
  | .leaf _, h => h
  | .not _, h => h

theorem and_tree.or_tree : ∀ {e : Formula α}, and_tree e → or_tree e
  | .leaf _, h => h
  | .and _ _, h => h
  | .not _, h => h

/-- The levels of a condition, over its leaves. -/
theorem yields_or_expr {compare : Grammar Token (Formula α)} {P : α → Prop} (h : Yields compare fun e => ∃ a, e = .leaf a ∧ P a) :
    Yields (Rule.or_expr compare) fun e => or_tree e ∧ every_leaf P e := by
  have hnot : Yields (Rule.not_expr compare) fun e => not_tree e ∧ every_leaf P e := by
    refine Yields.alt (Yields.behind fun _ => h.bind fun e he => .pure ?_) fun c e hc => ?_
    · obtain ⟨a, rfl, ha⟩ := he
      exact ⟨trivial, ha⟩
    · obtain ⟨a, rfl, ha⟩ := h c e hc
      exact ⟨trivial, ha⟩
  have hand : Yields (Grammar.chain .AND .and (Rule.not_expr compare)) fun e => and_tree e ∧ every_leaf P e :=
    hnot.chain (fun e he => ⟨he.1.and_tree, he.2⟩) fun e e' he he' => ⟨⟨he.1, he'.1⟩, he.2, he'.2⟩
  exact hand.chain (fun e he => ⟨he.1.or_tree, he.2⟩) fun e e' he he' => ⟨⟨he.1, he'.1⟩, he.2, he'.2⟩

/-! ### What is spelled has the shape -/

/-- Any literal. -/
def AnyValue (_ : Value) : Prop := True

theorem yields_aggregate_or_column : Yields Rule.aggregate_or_column AggregateOrColumn := by
  have hcount : Yields Rule.count AggregateOrColumn := by
    refine .behind fun _ => Yields.bind (P := AggregateOrColumn) ?_ fun col hcol => .behind fun _ => .pure hcol
    exact .alt (.behind fun _ => .pure ⟨rfl, rfl, rfl, fun _ => rfl⟩) (.behind fun _ => .pure ⟨rfl, rfl, rfl, fun h => by cases h⟩)
  have haggregate : Yields (Grammar.one_of aggregates >>= Rule.aggregate) AggregateOrColumn := by
    refine (Yields.one_of _).bind fun entry he => .behind fun _ => .behind fun column => .behind fun _ => .pure ⟨rfl, rfl, rfl, fun h => ?_⟩
    have hstar : ∀ e ∈ aggregates, e.2 ≠ .COUNT_STAR := by decide
    exact absurd h (hstar entry he)
  exact .alt (.behind fun _ => hcount) (.alt haggregate (.behind fun _ => .pure ⟨rfl, rfl, rfl, fun h => by cases h⟩))

theorem yields_select_columns : Yields Rule.select_columns (SelectedColumns AnyValue) := by
  have hcolumn : Yields Rule.select_column (SelectedColumn AnyValue) :=
    .alt (.behind fun v => .pure (.inr ⟨v, trivial, rfl⟩)) fun c sc hc => .inl (yields_aggregate_or_column c sc hc)
  exact .alt (.behind fun _ => .pure (.inl rfl)) fun c cols hc => .inr (hcolumn.separated c cols hc)

theorem yields_having : Yields Rule.having fun e => or_tree e ∧ every_leaf (HavingCompare AnyValue) e := by
  refine .behind fun _ => yields_or_expr ?_
  refine yields_aggregate_or_column.bind fun operand ho => (Yields.one_of _).bind fun op hop => .behind fun value => .pure ?_
  exact ⟨_, rfl, ho, List.mem_map_of_mem hop, trivial⟩

theorem yields_order_by : Yields Rule.order_by fun clauses => ∀ ob ∈ clauses, AggregateOrColumn ob.operand := by
  have hclause : Yields Rule.order_by_clause fun ob => AggregateOrColumn ob.operand :=
    yields_aggregate_or_column.bind fun operand ho => .behind fun _ => .pure ho
  exact .behind fun _ => .behind fun _ => fun c clauses hc => (hclause.separated c clauses hc).2

/-- A comparison operator of WHERE that has an operand. -/
theorem comparison_of_op {literal : Value → Prop} {op : CompareOp} {operand : Value} {operand_column : Option ColumnRef}
    {no_subquery with_subquery : Prop} (hop : op ∈ where_ops.map Prod.snd) :
    Comparison literal op operand operand_column no_subquery with_subquery ↔ Compared literal operand operand_column ∧ no_subquery := by
  have hcases : ∀ op ∈ where_ops.map Prod.snd, op ≠ .IS_NULL ∧ op ≠ .IS_NOT_NULL ∧ op ≠ .IN_SUBQUERY ∧ op ≠ .NOT_IN_SUBQUERY := by decide
  obtain ⟨h₁, h₂, h₃, h₄⟩ := hcases op hop
  cases op <;> first | contradiction | rfl

theorem yields_compare_expr {subquery : Grammar Token Subquery} (h : Yields subquery (Subquery.Shaped AnyValue)) :
    Yields (Rule.compare_expr subquery) fun e => ∃ a, e = .leaf a ∧ leaf_shaped AnyValue a := by
  have hrhs : ∀ column, ∀ op ∈ where_ops, Yields (Rule.rhs column op.2) (compare_shaped AnyValue) := by
    intro column op hop
    have hmem : op.2 ∈ where_ops.map Prod.snd := List.mem_map_of_mem hop
    exact .alt (.behind fun ref => .pure ((comparison_of_op hmem).2 ⟨rfl, rfl⟩)) (.behind fun v => .pure ((comparison_of_op hmem).2 ⟨trivial, rfl⟩))
  have hcomparison : ∀ column, Yields (Rule.comparison subquery column) (compare_shaped AnyValue) := by
    intro column
    refine .alt (.behind fun _ => .alt ?_ ?_) (.alt ?_ (.alt ?_ ?_))
    · exact .behind fun _ => .behind fun _ => .pure ⟨rfl, rfl, rfl⟩
    · exact .behind fun _ => .pure ⟨rfl, rfl, rfl⟩
    · exact .behind fun _ => .behind fun _ => h.bind fun q hq => .pure ⟨rfl, rfl, hq⟩
    · exact .behind fun _ => h.bind fun q hq => .pure ⟨rfl, rfl, hq⟩
    · exact (Yields.one_of _).bind fun op hop => hrhs column op hop
  refine .alt (.behind fun _ => h.bind fun q hq => .pure ⟨_, rfl, hq⟩) ?_
  exact .behind fun column => (hcomparison column).bind fun compare hc => .pure ⟨_, rfl, hc⟩

theorem leaves_shaped_iff {literal : Value → Prop} (e : WhereExpr Subquery) : leaves_shaped literal e ↔ every_leaf (leaf_shaped literal) e := by
  induction e with
  | leaf a => rfl
  | and left right ihl ihr => exact and_congr ihl ihr
  | or left right ihl ihr => exact and_congr ihl ihr
  | not left ih => exact ih

theorem yields_select_body {subquery : Grammar Token Subquery} (h : Yields subquery (Subquery.Shaped AnyValue)) :
    Yields (Rule.select_body subquery) (select_shaped AnyValue) := by
  have hwhere : Yields (Rule.where_clause subquery) (where_shaped AnyValue) := by
    refine .alt (.behind fun _ => (yields_or_expr (yields_compare_expr h)).bind fun e he => .pure ?_) (.pure trivial)
    exact ⟨he.1, (leaves_shaped_iff e).2 he.2⟩
  have hhaving : Yields (Grammar.alt (Rule.having >>= fun having => pure (some having)) (pure none)) (HavingShaped AnyValue) :=
    .alt (yields_having.bind fun e he => .pure he) (.pure trivial)
  have horder : Yields (Rule.order_by.alt (pure [])) fun clauses => ∀ ob ∈ clauses, AggregateOrColumn ob.operand :=
    .alt yields_order_by (.pure fun _ hm => absurd hm List.not_mem_nil)
  refine .behind fun _ => yields_select_columns.bind fun columns hcolumns => .behind fun _ => .behind fun name => .behind fun _ => ?_
  refine .behind fun joins => hwhere.bind fun where_ hw => .behind fun _ => hhaving.bind fun having hh => horder.bind fun order_by ho => ?_
  exact .behind fun limit => .pure ⟨hcolumns, hw, hh, ho⟩

theorem yields_subquery : ∀ depth, Yields (Rule.subquery depth) (Subquery.Shaped AnyValue)
  | 0 => fun _ _ hc => False.elim hc
  | depth + 1 => .behind fun _ => (yields_select_body (yields_subquery depth)).bind fun _ hs => .behind fun _ => .pure hs

/-- **What is spelled has the shape.** -/
theorem yields_shaped {tokens : List Token} {expr : WhereExpr Subquery} (h : Spells tokens expr) :
    or_tree expr ∧ leaves_shaped AnyValue expr := by
  obtain ⟨depth, hexpr⟩ := h
  have hshape := yields_or_expr (yields_compare_expr (yields_subquery depth)) tokens expr hexpr
  exact ⟨hshape.1, (leaves_shaped_iff expr).2 hshape.2⟩

/-! ### Numbers, as they are printed -/

theorem digit_lt {c : Char} (h : c.isDigit = true) : 48 ≤ c.toNat ∧ c.toNat ≤ 57 := by
  have hc := h
  simp only [Char.isDigit, Bool.and_eq_true, decide_eq_true_eq] at hc
  exact ⟨hc.1, hc.2⟩

theorem isdigit_digits (n : ℕ) : ∀ c ∈ digits n, isdigit c = true := by
  intro c hc
  obtain ⟨d, hd, rfl⟩ := List.mem_map.1 hc
  obtain ⟨hlo, hhi⟩ := digit_lt (Nat.isDigit_of_mem_toDigits (by decide) (by decide) hd)
  have htoNat : (UInt8.ofNat d.toNat).toNat = d.toNat := UInt8.toNat_ofNat_of_lt (by show d.toNat < 256; omega)
  rw [isdigit, htoNat, decide_eq_true hlo, decide_eq_true hhi]
  rfl

theorem digits_ne_nil (n : ℕ) : digits n ≠ [] := fun h => Nat.toDigits_ne_nil (List.map_eq_nil_iff.1 h)

/-- `decimal` reads what `digits` writes. -/
theorem decimal_digits (n : ℕ) : decimal (digits n) = n := by
  have hfold : ∀ (l : List Char) (m : ℕ), (∀ c ∈ l, c.isDigit = true) →
      (l.map fun c => UInt8.ofNat c.toNat).foldl (fun n d => 10 * n + (d.toNat - 48)) m = Nat.ofDigitChars 10 l m := by
    intro l
    induction l with
    | nil => exact fun m _ => rfl
    | cons c l ih =>
      intro m hl
      obtain ⟨-, hhi⟩ := digit_lt (hl c List.mem_cons_self)
      have htoNat : (UInt8.ofNat c.toNat).toNat = c.toNat := UInt8.toNat_ofNat_of_lt (by show c.toNat < 256; omega)
      rw [List.map_cons, List.foldl_cons, Nat.ofDigitChars_cons, htoNat]
      exact ih _ fun d hd => hl d (List.mem_cons_of_mem _ hd)
  have hdigit : ∀ c ∈ Nat.toDigits 10 n, c.isDigit = true := fun c hc => Nat.isDigit_of_mem_toDigits (by decide) (by decide) hc
  exact (hfold _ 0 hdigit).trans Nat.ofDigitChars_ten_toDigits

/-- Digits are read as they stand. -/
theorem strtol_decimal {d : Bytes} (hne : d ≠ []) (hall : ∀ c ∈ d, isdigit c = true) : strtol d = some (decimal d : ℤ) := by
  obtain ⟨c, rest, hcons⟩ := List.exists_cons_of_ne_nil hne
  have hc : isdigit c = true := hall c (hcons ▸ List.mem_cons_self)
  have hspace : isspace c = false := by
    simp only [isdigit, Bool.and_eq_true, decide_eq_true_eq] at hc
    simp only [isspace, Bool.or_eq_false_iff, Bool.and_eq_false_iff, decide_eq_false_iff_not]
    omega
  have hminus : c ≠ ch '-' := by
    rintro rfl
    exact absurd hc (by decide)
  have hplus : c ≠ ch '+' := by
    rintro rfl
    exact absurd hc (by decide)
  have hsign : read_sign (d.dropWhile isspace) = (false, d) := by
    rw [hcons, List.dropWhile_cons_of_neg (by rw [hspace]; exact Bool.false_ne_true), read_sign, if_neg hminus, if_neg hplus]
  have htake : d.takeWhile isdigit = d := by
    rw [← List.append_nil d, List.takeWhile_append_of_pos hall, List.takeWhile_nil]
  simp only [strtol, hsign, htake, if_neg hne]
  rfl

theorem strtol_digits (n : ℕ) : strtol (digits n) = some (n : ℤ) := by
  rw [strtol_decimal (digits_ne_nil n) (isdigit_digits n), decimal_digits]

theorem stoi_digits {n : ℕ} (h : n < 2 ^ 31) : stoi (digits n) = .ok (Int32.ofInt n) := by
  have hrange : (-2 ^ 31 : ℤ) ≤ n ∧ (n : ℤ) < 2 ^ 31 := by omega
  unfold stoi
  rw [strtol_digits]
  exact if_pos hrange

theorem stoul_digits (n : UInt32) : ∃ limit, stoul (digits n.toNat) = .ok limit ∧ limit.toUInt32 = n := by
  have hn := n.toNat_lt
  have hrange : ((n.toNat : ℤ)).natAbs < 2 ^ 64 := by omega
  refine ⟨UInt64.ofInt n.toNat, ?_, ?_⟩
  · unfold stoul
    rw [strtol_digits]
    exact if_pos hrange
  · have hto : (UInt64.ofInt n.toNat).toNat = n.toNat := by
      have hmod : ((n.toNat : ℤ) % 2 ^ 64).toNat = n.toNat := by omega
      unfold UInt64.ofInt
      rw [hmod]
      exact UInt64.toNat_ofNat_of_lt (hn.trans (by decide))
    rw [← UInt32.toNat_inj, UInt64.toNat_toUInt32, hto]
    exact Nat.mod_eq_of_lt hn

/-- An integer is read from its magnitude, with the sign. -/
theorem int_of_magnitude {v : Int32} (h : v ≠ Int32.minValue) :
    v.toInt.natAbs < 2 ^ 31 ∧ (if v < 0 then -Int32.ofInt v.toInt.natAbs else Int32.ofInt v.toInt.natAbs) = v := by
  have hlo := v.le_toInt
  have hhi := v.toInt_lt
  have hne : v.toInt ≠ -2 ^ 31 := fun heq => h (Int32.toInt_inj.1 heq)
  have hneg : v < 0 ↔ v.toInt < 0 := Int32.lt_iff_toInt_lt
  refine ⟨by omega, ?_⟩
  by_cases hv : v < 0
  · have habs : ((v.toInt.natAbs : ℕ) : ℤ) = -v.toInt := by
      have := hneg.1 hv
      omega
    rw [if_pos hv, habs, ← Int32.ofInt_neg, neg_neg, Int32.ofInt_toInt]
  · have habs : ((v.toInt.natAbs : ℕ) : ℤ) = v.toInt := by
      have := mt hneg.2 hv
      omega
    rw [if_neg hv, habs, Int32.ofInt_toInt]

/-! ### The words of a column, a literal, a clause -/

section words

variable {β : Type} {k : TokenType} {text : Bytes} {ws : List Word} {b : β}

theorem word_type {t : Token} (h : t.word = (k, text)) : t.type = k := congrArg Prod.fst h

theorem writes_keyword {H : Grammar Token β} (h : Writes Token.word ws H b) :
    Writes Token.word (keyword k :: ws) (Grammar.token k >>= fun _ => H) b := .token (fun _ ht => word_type ht) fun _ _ => h

theorem writes_text {f : Token → Grammar Token β} (hk : k ∈ text_types) (h : ∀ t, t.value = text → Writes Token.word ws (f t) b) :
    Writes Token.word ((k, text) :: ws) (Grammar.token k >>= f) b := by
  refine .token (fun _ ht => word_type ht) fun t ht => h t ?_
  have hvalue : (if t.type ∈ text_types then t.value else []) = text := congrArg Prod.snd ht
  rwa [word_type ht, if_pos hk] at hvalue

end words

theorem writes_column_ref (ref : ColumnRef) : Writes Token.word (print_column_ref ref) Rule.column_ref ref := by
  obtain ⟨table_name, column_name⟩ := ref
  by_cases htable : table_name = []
  · subst htable
    refine writes_text (by decide) fun t ht => .right ?_
    subst ht
    exact .pure _
  · rw [print_column_ref, if_neg htable]
    refine writes_text (by decide) fun t ht => .left (writes_keyword (writes_text (by decide) fun t' ht' => ?_))
    subst ht ht'
    exact .pure _

theorem writes_value {v : Value} (h : Written v) : Writes Token.word (print_value v) Rule.value v := by
  cases v with
  | null => exact .right (.right (.right (.right (.right (writes_keyword (.pure _))))))
  | int v =>
    obtain ⟨hlt, hv⟩ := int_of_magnitude h
    have hnumber : ∀ negative, Writes Token.word [(.INTEGER_LITERAL, digits v.toInt.natAbs)] (Rule.number negative)
        (.int (if negative then -Int32.ofInt v.toInt.natAbs else Int32.ofInt v.toInt.natAbs)) := fun negative =>
      .left (writes_text (by decide) fun t ht => (Writes.lift (by rw [ht]; exact stoi_digits hlt)).map)
    by_cases hneg : v < 0
    · rw [if_pos hneg] at hv
      rw [print_value, if_pos hneg]
      have hminus := hnumber true
      rw [if_pos rfl, hv] at hminus
      exact .left (writes_keyword hminus)
    · rw [if_neg hneg] at hv
      rw [print_value, if_neg hneg]
      have hplus := hnumber false
      rw [if_neg Bool.false_ne_true, hv] at hplus
      exact .right (.left hplus)
  | float v => exact h.elim
  | boolean v =>
    cases v with
    | true => exact .right (.right (.right (.left (writes_keyword (.pure _)))))
    | false => exact .right (.right (.right (.right (.left (writes_keyword (.pure _))))))
  | varchar v =>
    refine .right (.right (.left (writes_text (by decide) fun t ht => ?_)))
    subst ht
    exact .pure _

theorem writes_aggregate_or_column {sc : SelectColumn} (h : AggregateOrColumn sc) :
    Writes Token.word (print_aggregate_or_column sc) Rule.aggregate_or_column sc := by
  obtain ⟨is_star, is_literal, literal, column, aggregate⟩ := sc
  obtain ⟨hstar, hliteral, hnull, hcount⟩ := h
  dsimp only at hstar hliteral hnull hcount
  subst hstar hliteral hnull
  have hcolumn : ∀ {type : AggregateType} (k : TokenType), (k, type) ∈ aggregates →
      Writes Token.word (keyword k :: keyword .LPAREN :: print_column_ref column ++ [keyword .RPAREN]) Rule.aggregate_or_column
        ⟨false, false, .null, column, type⟩ := by
    intro type k hk
    have hbehind : Writes Token.word (keyword .LPAREN :: (print_column_ref column ++ [keyword .RPAREN])) (Rule.aggregate (k, type))
        ⟨false, false, .null, column, type⟩ := writes_keyword ((writes_column_ref column).bind (writes_keyword (.pure _)))
    have hname : Writes Token.word [keyword k] (Grammar.one_of aggregates) (k, type) := .one_of hk fun _ ht => word_type ht
    exact .right (.left (hname.bind hbehind))
  cases aggregate with
  | NONE => exact .right (.right (writes_column_ref column).map)
  | COUNT_STAR =>
    obtain rfl := hcount rfl
    have hargument : Writes Token.word [keyword .STAR] Rule.count_argument ⟨false, false, .null, ⟨[], []⟩, .COUNT_STAR⟩ :=
      .left (writes_keyword (.pure _))
    exact .left (writes_keyword (writes_keyword (hargument.bind (writes_keyword (.pure _)))))
  | COUNT_COLUMN =>
    have hargument : Writes Token.word (print_column_ref column) Rule.count_argument ⟨false, false, .null, column, .COUNT_COLUMN⟩ :=
      .right (writes_column_ref column).map
    exact .left (writes_keyword (writes_keyword (hargument.bind (writes_keyword (.pure _)))))
  | MAX => exact hcolumn .MAX (by decide)
  | MIN => exact hcolumn .MIN (by decide)
  | AVG => exact hcolumn .AVG (by decide)
  | MEDIAN => exact hcolumn .MEDIAN (by decide)

/-- A list, item by item. -/
theorem writes_list {G : Grammar Token α} {print : α → List Word} {items : List α} (hne : items ≠ [])
    (h : ∀ a ∈ items, Writes Token.word (print a) G a) : Writes Token.word (print_list print items) (Grammar.separated .COMMA G) items := by
  obtain ⟨a, as, rfl⟩ := List.exists_cons_of_ne_nil hne
  exact .separated (fun _ ht => word_type ht) (h a List.mem_cons_self) fun b hb => h b (List.mem_cons_of_mem _ hb)

theorem writes_select_columns {columns : List SelectColumn} (h : SelectedColumns Written columns) :
    Writes Token.word (print_list print_select_column columns) Rule.select_columns columns := by
  have hcolumn : ∀ sc, SelectedColumn Written sc → Writes Token.word (print_select_column sc) Rule.select_column sc := by
    rintro sc (hsc | ⟨v, hv, rfl⟩)
    · rw [print_select_column, hsc.1, hsc.2.1]
      exact .right (writes_aggregate_or_column hsc)
    · exact .left (writes_value hv).map
  rcases h with rfl | ⟨hne, hall⟩
  · exact .left (writes_keyword (.pure _))
  · exact .right (writes_list hne fun sc hsc => hcolumn sc (hall sc hsc))

theorem writes_alias (table_alias : Bytes) : Writes Token.word (print_alias table_alias) Rule.table_alias table_alias := by
  by_cases hempty : table_alias = []
  · subst hempty
    exact .right (.pure _)
  · rw [print_alias, if_neg hempty]
    refine .left (writes_text (by decide) fun t ht => ?_)
    subst ht
    exact .pure _

theorem writes_join (join : JoinClause) : Writes Token.word (print_join join) Rule.join join := by
  obtain ⟨type, table_name, table_alias, left_col, right_col⟩ := join
  have htype : Writes Token.word (print_join_type type) Rule.join_type type := by
    cases type with
    | INNER => exact .left (writes_keyword (writes_keyword (.pure _)))
    | LEFT => exact .right (.left (writes_keyword (writes_keyword (.pure _))))
    | RIGHT => exact .right (.right (.left (writes_keyword (writes_keyword (.pure _)))))
  simp only [print_join, List.append_assoc, List.cons_append]
  refine htype.bind (writes_text (by decide) fun t ht => ?_)
  subst ht
  refine (writes_alias table_alias).bind (writes_keyword ?_)
  exact (writes_column_ref left_col).bind (writes_keyword (writes_column_ref right_col).map)

theorem writes_clause {type : TokenType} {G : Grammar Token α} {print : α → List Word} {items : List α}
    (h : ∀ a ∈ items, Writes Token.word (print a) G a) : Writes Token.word (print_clause type print items)
      (Grammar.alt (do let _ ← Grammar.token type; let _ ← Grammar.token .BY; Grammar.separated .COMMA G) (pure [])) items := by
  by_cases hempty : items = []
  · subst hempty
    exact .right (.pure _)
  · rw [print_clause, if_neg hempty]
    exact .left (writes_keyword (writes_keyword (writes_list hempty h)))

theorem writes_order_by_clause {ob : OrderByClause} (h : AggregateOrColumn ob.operand) :
    Writes Token.word (print_order_by_clause ob) Rule.order_by_clause ob := by
  obtain ⟨operand, ascending⟩ := ob
  refine (writes_aggregate_or_column h).bind ?_
  cases ascending with
  | true => exact (Writes.map (.right (.right (.pure true))))
  | false => exact (Writes.map (.left (writes_keyword (.pure false))))

theorem writes_limit (limit : Option UInt32) : Writes Token.word (print_limit limit) Rule.limit limit := by
  cases limit with
  | none => exact .right (.pure _)
  | some n =>
    obtain ⟨limit, hread, rfl⟩ := stoul_digits n
    exact .left (writes_keyword (writes_text (by decide) fun t ht => (Writes.lift (by rw [ht]; exact hread)).map))

/-! ### The words of a condition -/

section formula

variable {compare : Grammar Token (Formula α)} {print : α → List Word}

theorem writes_not : ∀ {e : Formula α}, not_tree e → every_leaf (fun a => Writes Token.word (print a) compare (.leaf a)) e →
    Writes Token.word (print_formula print e) (Rule.not_expr compare) e
  | .leaf _, _, h => .right h
  | .not (.leaf _), _, h => .left (writes_keyword (Writes.map h))

theorem writes_and : ∀ {e : Formula α}, and_tree e → every_leaf (fun a => Writes Token.word (print a) compare (.leaf a)) e →
    Writes Token.word (print_formula print e) (Grammar.chain .AND .and (Rule.not_expr compare)) e
  | .leaf _, ht, h => .single (writes_not ht h)
  | .not _, ht, h => .single (writes_not ht h)
  | .and _ _, ht, h => .chain (fun _ hw => word_type hw) (writes_and ht.1 h.1) (writes_not ht.2 h.2)

/-- The induction follows the left-nested ORs. -/
theorem writes_or : ∀ {e : Formula α}, or_tree e → every_leaf (fun a => Writes Token.word (print a) compare (.leaf a)) e →
    Writes Token.word (print_formula print e) (Rule.or_expr compare) e
  | .leaf _, ht, h => .single (writes_and ht h)
  | .not _, ht, h => .single (writes_and ht h)
  | .and _ _, ht, h => .single (writes_and ht h)
  | .or _ _, ht, h => .chain (fun _ hw => word_type hw) (writes_or ht.1 h.1) (writes_and ht.2 h.2)

theorem every_leaf.imp {P P' : α → Prop} (h : ∀ a, P a → P' a) : ∀ e : Formula α, every_leaf P e → every_leaf P' e
  | .leaf a, he => h a he
  | .and left right, he => ⟨every_leaf.imp h left he.1, every_leaf.imp h right he.2⟩
  | .or left right, he => ⟨every_leaf.imp h left he.1, every_leaf.imp h right he.2⟩
  | .not left, he => every_leaf.imp h left he

end formula

/-- An operator of one word. -/
theorem writes_op {ops : List (TokenType × CompareOp)} (h : ∀ entry ∈ ops, print_op entry.2 = [keyword entry.1]) {op : CompareOp}
    (hop : op ∈ ops.map Prod.snd) : ∃ entry, entry.2 = op ∧ Writes Token.word (print_op op) (Grammar.one_of ops) entry := by
  obtain ⟨entry, hentry, rfl⟩ := List.mem_map.1 hop
  refine ⟨entry, rfl, ?_⟩
  rw [h entry hentry]
  exact .one_of hentry fun _ ht => word_type ht

theorem writes_having {having : Option HavingExpr} (h : HavingShaped Written having) : Writes Token.word (print_having having)
    (Grammar.alt (do let having ← Rule.having; pure (some having)) (pure none)) having := by
  cases having with
  | none => exact .right (.pure _)
  | some e =>
    refine .left (Writes.map (writes_keyword (writes_or h.1 (every_leaf.imp (fun c hc => ?_) e h.2))))
    obtain ⟨operand, op, value⟩ := c
    obtain ⟨entry, rfl, hname⟩ := writes_op (by decide) hc.2.1
    rw [print_having_compare, List.append_assoc]
    exact (writes_aggregate_or_column hc.1).bind (hname.bind (writes_value hc.2.2).map)

theorem print_or_expr_eq (e : WhereExpr Subquery) : print_or_expr e = print_formula print_compare_expr e := by
  induction e with
  | leaf a => rfl
  | and left right ihl ihr => rw [print_or_expr, print_formula, ihl, ihr]
  | or left right ihl ihr => rw [print_or_expr, print_formula, ihl, ihr]
  | not left ih => rw [print_or_expr, print_formula, ih]

section comparison

variable {subquery : Grammar Token Subquery} {column : ColumnRef} {op : CompareOp} {operand : Value} {operand_column : Option ColumnRef}

/-- A comparison with an operand. -/
theorem writes_operand (hop : op ∈ where_ops.map Prod.snd) (h : Compared Written operand operand_column) :
    Writes Token.word (print_op op ++ print_operand op operand operand_column) (Rule.comparison subquery column)
      ⟨column, op, operand, operand_column, none⟩ := by
  obtain ⟨entry, rfl, hname⟩ := writes_op (by decide) hop
  refine .right (.right (.right (hname.bind ?_)))
  rw [print_operand, if_pos hop]
  cases operand_column with
  | none => exact .right (writes_value h).map
  | some ref =>
    obtain rfl : operand = .null := h
    exact .left (writes_column_ref ref).map

theorem Comparison.imp {literal : Value → Prop} {no_subquery P P' : Prop} (h : Comparison literal op operand operand_column no_subquery P)
    (hP : P → P') : Comparison literal op operand operand_column no_subquery P' := by
  cases op with
  | IN_SUBQUERY => exact ⟨h.1, h.2.1, hP h.2.2⟩
  | NOT_IN_SUBQUERY => exact ⟨h.1, h.2.1, hP h.2.2⟩
  | _ => exact h

/-- A comparison, where its subquery is written. -/
theorem writes_comparison {sub : Option Subquery} (h : Comparison Written op operand operand_column (sub = none)
      (∃ q, sub = some q ∧ Writes Token.word q.print subquery q)) :
    Writes Token.word (print_comparison ⟨column, op, operand, operand_column, sub⟩) (Rule.column_ref >>= Rule.comparison subquery)
      ⟨column, op, operand, operand_column, sub⟩ := by
  have hcolumn := writes_column_ref column
  by_cases hop : op ∈ where_ops.map Prod.snd
  · obtain ⟨hoperand, rfl⟩ := (comparison_of_op hop).1 h
    simp only [print_comparison, print_subquery, List.append_nil, List.append_assoc]
    exact hcolumn.bind (writes_operand hop hoperand)
  · simp only [print_comparison, print_operand, if_neg hop, List.append_nil, List.append_assoc]
    refine hcolumn.bind ?_
    cases op with
    | IS_NULL =>
      obtain ⟨rfl, rfl, rfl⟩ := h
      exact .left (writes_keyword (.right (writes_keyword (.pure _))))
    | IS_NOT_NULL =>
      obtain ⟨rfl, rfl, rfl⟩ := h
      exact .left (writes_keyword (.left (writes_keyword (writes_keyword (.pure _)))))
    | IN_SUBQUERY =>
      obtain ⟨rfl, rfl, q, rfl, hq⟩ := h
      exact .right (.right (.left (writes_keyword hq.map)))
    | NOT_IN_SUBQUERY =>
      obtain ⟨rfl, rfl, q, rfl, hq⟩ := h
      exact .right (.left (writes_keyword (writes_keyword hq.map)))
    | _ => exact absurd (by decide) hop

end comparison

/-! ### Subqueries -/

/-- The statement, over the rule of its subqueries. -/
theorem writes_select {subquery : Grammar Token Subquery} {columns : List SelectColumn} {table_name table_alias : Bytes}
    {joins : List JoinClause} {where_ : Option (WhereExpr Subquery)} {group_by : List ColumnRef} {having : Option HavingExpr}
    {order_by : List OrderByClause} {limit : Option UInt32} (hcolumns : SelectedColumns Written columns)
    (hwhere : Writes Token.word (print_where where_) (Rule.where_clause subquery) where_) (hhaving : HavingShaped Written having)
    (horder : ∀ ob ∈ order_by, AggregateOrColumn ob.operand) :
    Writes Token.word (print_select_body ⟨columns, table_name, table_alias, joins, where_, group_by, having, order_by, limit⟩)
      (Rule.select_body subquery) ⟨columns, table_name, table_alias, joins, where_, group_by, having, order_by, limit⟩ := by
  simp only [print_select_body, List.append_assoc, List.cons_append]
  refine writes_keyword ((writes_select_columns hcolumns).bind (writes_keyword (writes_text (by decide) fun t ht => ?_)))
  subst ht
  refine (writes_alias table_alias).bind ((Writes.many fun join _ => writes_join join).bind (hwhere.bind ?_))
  refine (writes_clause fun ref _ => writes_column_ref ref).bind ((writes_having hhaving).bind ?_)
  exact (writes_clause fun ob hob => writes_order_by_clause (horder ob hob)).bind (writes_limit limit).map

mutual

/-- **The words of a subquery spell it**, at any depth that they are no longer than. -/
theorem writes_subquery : ∀ (q : Subquery) (n : ℕ), q.Shaped Written → q.print.length ≤ n → Writes Token.word q.print (Rule.subquery n) q
  | .mk stmt, n, hs, hn => by
    have ih := writes_stmt stmt
    rw [Subquery.print, List.length_append, List.length_cons] at hn
    obtain ⟨m, rfl⟩ : ∃ m, n = m + 1 := ⟨n - 1, by omega⟩
    exact writes_keyword ((ih m hs (by omega)).bind (writes_keyword (.pure _)))

theorem writes_stmt : ∀ (stmt : SelectStmt Subquery) (n : ℕ), select_shaped Written stmt → (print_select_body stmt).length ≤ n →
    Writes Token.word (print_select_body stmt) (Rule.select_body (Rule.subquery n)) stmt
  | ⟨columns, table_name, table_alias, joins, where_, group_by, having, order_by, limit⟩, n, ⟨hcolumns, hw, hhaving, horder⟩, hn => by
    have ih := writes_where where_
    refine writes_select hcolumns (ih n hw ?_) hhaving horder
    simp only [print_select_body, List.length_append] at hn
    omega

theorem writes_where : ∀ (where_ : Option (Formula (WhereLeaf Subquery))) (n : ℕ), where_shaped Written where_ → (print_where where_).length ≤ n →
    Writes Token.word (print_where where_) (Rule.where_clause (Rule.subquery n)) where_
  | none, _, _, _ => .right (.pure _)
  | some e, n, hs, hn => by
    have ih := writes_leaves e
    rw [print_where, List.length_cons] at hn
    have hleaves := ih n hs.2 (by omega)
    rw [print_where, print_or_expr_eq]
    exact .left (writes_keyword (writes_or hs.1 hleaves).map)

theorem writes_leaves : ∀ (e : Formula (WhereLeaf Subquery)) (n : ℕ), leaves_shaped Written e → (print_or_expr e).length ≤ n →
    every_leaf (fun a => Writes Token.word (print_compare_expr a) (Rule.compare_expr (Rule.subquery n)) (.leaf a)) e
  | .leaf a, n, hs, hn => writes_leaf a n hs hn
  | .and left right, n, hs, hn => by
    have ihl := writes_leaves left
    have ihr := writes_leaves right
    rw [print_or_expr, List.length_append, List.length_cons] at hn
    exact ⟨ihl n hs.1 (by omega), ihr n hs.2 (by omega)⟩
  | .or left right, n, hs, hn => by
    have ihl := writes_leaves left
    have ihr := writes_leaves right
    rw [print_or_expr, List.length_append, List.length_cons] at hn
    exact ⟨ihl n hs.1 (by omega), ihr n hs.2 (by omega)⟩
  | .not left, n, hs, hn => by
    have ih := writes_leaves left
    rw [print_or_expr, List.length_cons] at hn
    exact ih n hs (by omega)

theorem writes_leaf : ∀ (a : WhereLeaf Subquery) (n : ℕ), leaf_shaped Written a → (print_compare_expr a).length ≤ n →
    Writes Token.word (print_compare_expr a) (Rule.compare_expr (Rule.subquery n)) (.leaf a)
  | .COMPARE compare, n, hs, hn => by
    have ih := writes_compare compare
    have hcompare := (ih n hs hn).map (f := fun compare => (Formula.leaf (WhereLeaf.COMPARE compare) : WhereExpr Subquery))
    rw [bind_bind] at hcompare
    exact .right hcompare
  | .EXISTS q, n, hs, hn => by
    have ih := writes_subquery q
    rw [print_compare_expr, List.length_cons] at hn
    exact .left (writes_keyword (ih n hs (by omega)).map)

theorem writes_compare : ∀ (compare : CompareExpr Subquery) (n : ℕ), compare_shaped Written compare → (print_comparison compare).length ≤ n →
    Writes Token.word (print_comparison compare) (Rule.column_ref >>= Rule.comparison (Rule.subquery n)) compare
  | ⟨column, op, operand, operand_column, sub⟩, n, hs, hn => by
    have ih := writes_sub sub
    have hsub : (print_subquery sub).length ≤ n := by
      simp only [print_comparison, List.length_append] at hn
      omega
    exact writes_comparison (hs.imp fun h => ih n h hsub)

theorem writes_sub : ∀ (sub : Option Subquery) (n : ℕ), subquery_shaped Written sub → (print_subquery sub).length ≤ n →
    ∃ q, sub = some q ∧ Writes Token.word q.print (Rule.subquery n) q
  | none, _, hs, _ => hs.elim
  | some q, n, hs, hn => by
    have ih := writes_subquery q
    exact ⟨q, rfl, ih n hs hn⟩

end

/-- **The words of a tree spell it.** -/
theorem print_spells {tokens : List Token} {expr : WhereExpr Subquery} (h : or_tree expr) (hs : leaves_shaped Written expr)
    (hw : tokens.map Token.word = print_or_expr expr) : Spells tokens expr := by
  refine ⟨tokens.length, ?_⟩
  have hlen : (print_or_expr expr).length ≤ tokens.length := by rw [← hw, List.length_map]
  have hleaves := writes_leaves expr tokens.length hs hlen
  rw [print_or_expr_eq] at hw
  exact writes_or h hleaves tokens hw

end GSDBEngine
