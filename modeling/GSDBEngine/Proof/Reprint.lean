import GSDBEngine.Proof.Condition

/-!
# What is read, printed back

* `reprint`: **a tree prints as the tokens it was read from**, up to what it does not keep.
* `condition_parsed`: **the parser accepts exactly the conditions.**
-/

namespace GSDBEngine

open LL

variable {α β : Type} {G G' : Grammar Token α} {print : α → List Word} {ws : List Word} {k : TokenType}

theorem Respelled.append {c c' : List Token} {ws ws' : List Word} (h : Respelled c ws) (h' : Respelled c' ws') :
    Respelled (c ++ c') (ws ++ ws') := by
  induction h with
  | nil => exact h'
  | same _ ih => exact .same ih
  | number read _ ih =>
    rw [List.append_assoc, List.append_assoc]
    exact .number read ih
  | limit read _ ih => exact .limit read ih
  | join bare _ ih => exact .join bare ih
  | asc ascending _ ih => exact .asc ascending ih
  | unnamed empty _ ih => exact .unnamed empty ih
  | no_table empty qualified _ ih => exact .no_table empty qualified ih

/-! ### Grammars that tell the words of their results -/

/-- A result prints as `ws`, and then as the tokens. -/
def Tells (ws : List Word) (G : Grammar Token α) (print : α → List Word) : Prop :=
  ∀ c a, G c a → ∃ ws', print a = ws ++ ws' ∧ Respelled c ws'

namespace Tells

theorem pure {a : α} (h : print a = ws) : Tells ws (Pure.pure a) print := by
  rintro c b ⟨rfl, rfl⟩
  exact ⟨[], by rw [h, List.append_nil], .nil⟩

theorem alt (h : Tells ws G print) (h' : Tells ws G' print) : Tells ws (G.alt G') print := fun c a hc => hc.elim (h c a) (h' c a)

/-- With what is known of the first result. -/
theorem bind_of {P : α → Prop} {print' : β → List Word} {H : α → Grammar Token β} (h : Tells [] G print) (hP : Yields G P)
    (hH : ∀ a, P a → Tells (ws ++ print a) (H a) print') : Tells ws (G >>= H) print' := by
  rintro c b ⟨a, c₁, c₂, rfl, h₁, h₂⟩
  obtain ⟨ws₁, hprint, hc₁⟩ := h c₁ a h₁
  obtain ⟨ws₂, hprint', hc₂⟩ := hH a (hP c₁ a h₁) c₂ b h₂
  refine ⟨ws₁ ++ ws₂, ?_, hc₁.append hc₂⟩
  rw [hprint', hprint, List.nil_append, List.append_assoc]

theorem bind {print' : β → List Word} {H : α → Grammar Token β} (h : Tells [] G print) (hH : ∀ a, Tells (ws ++ print a) (H a) print') :
    Tells ws (G >>= H) print' := h.bind_of (Yields.any G) fun a _ => hH a

/-- Behind words of its own. -/
theorem behind {print' : α → List Word} (h : Tells [] G print) (hprint : ∀ a, print' a = ws ++ print a) : Tells ws G print' := by
  intro c a hc
  obtain ⟨ws', htell, hc'⟩ := h c a hc
  exact ⟨ws', by rw [hprint, htell, List.nil_append], hc'⟩

/-- The last step changes the result. -/
theorem map {print' : β → List Word} {f : α → β} (h : Tells [] G print) (hf : ∀ a, print' (f a) = ws ++ print a) :
    Tells ws (G >>= fun a => Pure.pure (f a)) print' := h.bind fun a => .pure (hf a)

/-- A token tells words of its own. -/
theorem tokens {print : β → List Word} {f : Token → Grammar Token β} (word : Token → List Word)
    (hword : ∀ t, t.type = k → ∀ c ws, Respelled c ws → Respelled (t :: c) (word t ++ ws)) (h : ∀ t, Tells (ws ++ word t) (f t) print) :
    Tells ws (Grammar.token k >>= f) print := by
  intro c b hc
  obtain ⟨t, c, rfl, ht, hbehind⟩ := token_bind_iff.1 hc
  obtain ⟨ws', hprint, hc'⟩ := h t c b hbehind
  refine ⟨word t ++ ws', ?_, hword t ht c ws' hc'⟩
  rw [hprint, List.append_assoc]

theorem keyword {print : β → List Word} {H : Grammar Token β} (hk : k ∉ text_types) (h : Tells (ws ++ [GSDBEngine.keyword k]) H print) :
    Tells ws (Grammar.token k >>= fun _ => H) print := by
  refine tokens (fun _ => [GSDBEngine.keyword k]) (fun t ht c ws hc => ?_) fun _ => h
  have hword : t.word = GSDBEngine.keyword k := by rw [Token.word, ht, if_neg hk, GSDBEngine.keyword]
  rw [← hword]
  exact .same hc

theorem text {print : β → List Word} {f : Token → Grammar Token β} (hk : k ∈ text_types)
    (h : ∀ t, Tells (ws ++ [(k, t.value)]) (f t) print) : Tells ws (Grammar.token k >>= f) print := by
  refine tokens (fun t => [(k, t.value)]) (fun t ht c ws hc => ?_) h
  have hword : t.word = (k, t.value) := by rw [Token.word, ht, if_pos hk]
  rw [← hword]
  exact .same hc

theorem one_of {table : List (TokenType × β)} {print : TokenType × β → List Word}
    (h : ∀ e ∈ table, e.1 ∉ text_types ∧ print e = [GSDBEngine.keyword e.1]) : Tells [] (Grammar.one_of table) print := by
  rintro c e ⟨he, t, rfl, ht⟩
  obtain ⟨hk, hprint⟩ := h e he
  have hword : t.word = GSDBEngine.keyword e.1 := by rw [Token.word, show t.type = e.1 from ht, if_neg hk, GSDBEngine.keyword]
  refine ⟨[t.word], by rw [hprint, hword, List.nil_append], .same .nil⟩

theorem many (h : Tells [] G print) : Tells [] (Grammar.Many G) fun as => as.flatMap print := by
  intro c as hc
  induction hc with
  | nil => exact ⟨[], rfl, .nil⟩
  | @cons c c' a as first rest ih =>
    obtain ⟨ws₁, hprint, hc₁⟩ := h c a first
    obtain ⟨ws₂, hprint', hc₂⟩ := ih
    have hall : (a :: as).flatMap print = ws₁ ++ ws₂ := by
      rw [List.flatMap_cons]
      exact congrArg₂ HAppend.hAppend hprint hprint'
    exact ⟨ws₁ ++ ws₂, hall, hc₁.append hc₂⟩

theorem separated (h : Tells [] G print) : Tells [] (G.separated .COMMA) (print_list print) := by
  have hother : Tells [] (Grammar.token .COMMA >>= fun _ => G) fun a => GSDBEngine.keyword .COMMA :: print a :=
    keyword (by decide) (h.behind fun _ => rfl)
  exact h.bind fun first => hother.many.map fun others => rfl

end Tells

/-! ### Columns and clauses -/

theorem tells_column_ref : Tells [] Rule.column_ref print_column_ref := by
  intro c ref hc
  obtain ⟨t, c, rfl, ht, hc | hc⟩ := token_bind_iff.1 hc
  · obtain ⟨dot, c, rfl, hdot, hc⟩ := token_bind_iff.1 hc
    obtain ⟨name, c, rfl, hname, rfl, rfl⟩ := token_bind_iff.1 hc
    have hword : name.word = (.IDENTIFIER, name.value) := by
      rw [Token.word, show name.type = .IDENTIFIER from hname]
      rfl
    by_cases hempty : t.value = []
    · refine ⟨[name.word], ?_, .no_table hempty hdot (.same .nil)⟩
      rw [print_column_ref, if_pos hempty, hword, List.nil_append]
    · refine ⟨[t.word, dot.word, name.word], ?_, .same (.same (.same .nil))⟩
      rw [print_column_ref, if_neg hempty, hword, Token.word, Token.word, show t.type = .IDENTIFIER from ht, show dot.type = .DOT from hdot]
      rfl
  · obtain ⟨rfl, rfl⟩ := hc
    refine ⟨[t.word], ?_, .same .nil⟩
    rw [print_column_ref, if_pos rfl, Token.word, show t.type = .IDENTIFIER from ht]
    rfl

theorem tells_value : Tells [] Rule.value print_value := by
  intro c v hc
  have hnumber := Respelled.number hc .nil
  rw [List.append_nil, List.append_nil] at hnumber
  exact ⟨print_value v, rfl, hnumber⟩

theorem tells_aggregate_or_column : Tells [] Rule.aggregate_or_column print_aggregate_or_column := by
  have hcount : Tells [keyword .COUNT] Rule.count print_aggregate_or_column := by
    have hargument : Tells [] Rule.count_argument fun col =>
        if col.aggregate = .COUNT_STAR then [keyword .STAR] else print_column_ref col.column :=
      .alt (.keyword (by decide) (.pure rfl)) (tells_column_ref.map fun _ => rfl)
    have hcounted : Yields Rule.count_argument fun col => col.aggregate = .COUNT_STAR ∨ col.aggregate = .COUNT_COLUMN :=
      .alt (.behind fun _ => .pure (.inl rfl)) (.behind fun _ => .pure (.inr rfl))
    refine .keyword (by decide) (hargument.bind_of hcounted fun col hcol => .keyword (by decide) (.pure ?_))
    rcases hcol with hcol | hcol
    · rw [print_aggregate_or_column, hcol]
      rfl
    · rw [print_aggregate_or_column, hcol]
      rfl
  have haggregate : Tells [] (Grammar.one_of aggregates >>= Rule.aggregate) print_aggregate_or_column := by
    have hname : Tells [] (Grammar.one_of aggregates) fun entry => [keyword entry.1] := .one_of fun entry hentry => ⟨by revert entry; decide, rfl⟩
    refine hname.bind_of (Yields.one_of _) fun entry hentry => .keyword (by decide) ?_
    have hprint : ∀ entry ∈ aggregates, ∀ column, print_aggregate_or_column { new_column with column := column, aggregate := entry.2 } =
        keyword entry.1 :: keyword .LPAREN :: print_column_ref column ++ [keyword .RPAREN] := by
      intro entry hentry column
      simp only [aggregates, List.mem_cons, List.not_mem_nil, or_false] at hentry
      rcases hentry with rfl | rfl | rfl | rfl <;> rfl
    exact tells_column_ref.bind fun column => .keyword (by decide) (.pure (hprint entry hentry column))
  exact .alt (.keyword (by decide) hcount) (.alt haggregate (tells_column_ref.map fun _ => rfl))

theorem tells_select_columns : Tells [] Rule.select_columns (print_list print_select_column) := by
  have hcolumn : Tells [] Rule.select_column print_select_column := by
    refine .alt (tells_value.map fun v => rfl) fun c sc hc => ?_
    obtain ⟨hstar, hliteral, -⟩ := yields_aggregate_or_column c sc hc
    rw [print_select_column, hstar, hliteral]
    exact tells_aggregate_or_column c sc hc
  exact .alt (.keyword (by decide) (.pure rfl)) hcolumn.separated

theorem tells_alias : Tells [] Rule.table_alias print_alias := by
  refine .alt (fun c a hc => ?_) (.pure rfl)
  obtain ⟨t, c, rfl, ht, rfl, rfl⟩ := token_bind_iff.1 hc
  by_cases hempty : t.value = []
  · exact ⟨[], by rw [print_alias, if_pos hempty]; rfl, .unnamed hempty .nil⟩
  · refine ⟨[t.word], ?_, .same .nil⟩
    rw [print_alias, if_neg hempty, Token.word, show t.type = .IDENTIFIER from ht]
    rfl

theorem tells_join : Tells [] Rule.join print_join := by
  have htype : Tells [] Rule.join_type print_join_type := by
    refine .alt ?_ (.alt ?_ (.alt ?_ ?_))
    · exact .keyword (by decide) (.keyword (by decide) (.pure rfl))
    · exact .keyword (by decide) (.keyword (by decide) (.pure rfl))
    · exact .keyword (by decide) (.keyword (by decide) (.pure rfl))
    · exact .tokens (fun _ => [keyword .INNER, keyword .JOIN]) (fun t ht c ws hc => .join ht hc) fun _ => .pure rfl
  refine htype.bind fun type => .text (by decide) fun name => tells_alias.bind fun table_alias => .keyword (by decide) ?_
  refine tells_column_ref.bind fun left_col => .keyword (by decide) (tells_column_ref.map fun right_col => ?_)
  simp only [print_join, List.nil_append, List.append_assoc, List.cons_append]

theorem tells_clause {item : Grammar Token α} (hk : k ∉ text_types) (h : Tells [] item print) :
    Tells [] (Grammar.alt (Grammar.token k >>= fun _ => Grammar.token .BY >>= fun _ => Grammar.separated .COMMA item) (pure []))
      (print_clause k print) := by
  refine .alt (.keyword hk (.keyword (by decide) fun c items hc => ?_)) (.pure rfl)
  have hne : items ≠ [] := ((Yields.any item).separated c items hc).1
  obtain ⟨ws', hprint, hc'⟩ := h.separated c items hc
  refine ⟨ws', ?_, hc'⟩
  rw [print_clause, if_neg hne, hprint]
  rfl

theorem tells_order_by : Tells [] (Rule.order_by.alt (pure [])) (print_clause .ORDER print_order_by_clause) := by
  have hascending : Tells [] Rule.ascending fun ascending => if ascending then [] else [keyword .DESC] := by
    refine .alt (.keyword (by decide) (.pure rfl)) (.alt (.tokens (fun _ => []) (fun t ht c ws hc => .asc ht hc) fun _ => .pure rfl) (.pure rfl))
  have hclause : Tells [] Rule.order_by_clause print_order_by_clause :=
    tells_aggregate_or_column.bind fun operand => hascending.map fun ascending => rfl
  exact tells_clause (by decide) hclause

theorem tells_group_by : Tells [] (Rule.group_by.alt (pure [])) (print_clause .GROUP print_column_ref) :=
  tells_clause (by decide) tells_column_ref

theorem tells_limit : Tells [] Rule.limit print_limit := by
  refine .alt (.keyword (by decide) fun c limit hc => ?_) (.pure rfl)
  obtain ⟨t, c, rfl, -, hc⟩ := token_bind_iff.1 hc
  obtain ⟨n, ⟨rfl, hread⟩, rfl⟩ := bind_pure_iff.1 hc
  exact ⟨_, rfl, .limit hread .nil⟩

/-! ### Conditions -/

/-- A chain, from the left. -/
theorem tells_chain {node : α → α → α} (hk : k ∉ text_types) (hnode : ∀ a b, print (node a b) = print a ++ keyword k :: print b)
    (h : Tells [] G print) : Tells [] (G.chain k node) print := by
  have hother : Tells [] (Grammar.token k >>= fun _ => G) fun a => keyword k :: print a := .keyword hk (h.behind fun _ => rfl)
  refine h.bind fun left => hother.many.map fun rights => ?_
  have hfold : ∀ (rights : List α) (left : α), print (rights.foldl node left) = print left ++ rights.flatMap fun a => keyword k :: print a := by
    intro rights
    induction rights with
    | nil => exact fun left => (List.append_nil _).symm
    | cons a rights ih =>
      intro left
      rw [List.foldl_cons, ih, hnode, List.flatMap_cons, List.append_assoc]
  exact hfold rights left

theorem tells_or_expr {print : α → List Word} {compare : Grammar Token (Formula α)} (h : Tells [] compare (print_formula print)) :
    Tells [] (Rule.or_expr compare) (print_formula print) := by
  have hnot : Tells [] (Rule.not_expr compare) (print_formula print) := .alt (.keyword (by decide) (h.map fun _ => rfl)) h
  exact tells_chain (by decide) (fun _ _ => rfl) (tells_chain (by decide) (fun _ _ => rfl) hnot)

theorem tells_op {ops : List (TokenType × CompareOp)} (h : ∀ entry ∈ ops, entry.1 ∉ text_types ∧ print_op entry.2 = [keyword entry.1]) :
    Tells [] (Grammar.one_of ops) fun entry => print_op entry.2 := .one_of h

theorem tells_having : Tells [] (Grammar.alt (Rule.having >>= fun having => pure (some having)) (pure none)) print_having := by
  have hcompare : Tells [] Rule.having_compare_expr (print_formula print_having_compare) :=
    tells_aggregate_or_column.bind fun operand => (tells_op (by decide)).bind fun op => tells_value.map fun value => rfl
  have hhaving : Tells [] Rule.having fun e => keyword .HAVING :: print_formula print_having_compare e :=
    .keyword (by decide) ((tells_or_expr hcompare).behind fun _ => rfl)
  exact .alt (hhaving.map fun _ => rfl) (.pure rfl)

/-! ### Subqueries -/

section where_

variable {subquery : Grammar Token Subquery}

theorem tells_compare_expr (h : Tells [] subquery Subquery.print) : Tells [] (Rule.compare_expr subquery) print_or_expr := by
  have hrhs : ∀ column, ∀ op ∈ where_ops, Tells (print_column_ref column ++ print_op op.2) (Rule.rhs column op.2) print_comparison := by
    intro column op hop
    have hmem : op.2 ∈ where_ops.map Prod.snd := List.mem_map_of_mem hop
    have hprint : ∀ operand operand_column, print_comparison ⟨column, op.2, operand, operand_column, none⟩ =
        print_column_ref column ++ print_op op.2 ++ (operand_column.map print_column_ref).getD (print_value operand) := by
      intro operand operand_column
      rw [print_comparison, print_operand, if_pos hmem, print_subquery, List.append_nil]
    exact .alt (tells_column_ref.map fun ref => hprint .null (some ref)) (tells_value.map fun v => hprint v none)
  have hshort : ∀ column op sub, op ∉ where_ops.map Prod.snd →
      print_comparison ⟨column, op, .null, none, sub⟩ = print_column_ref column ++ (print_op op ++ print_subquery sub) := by
    intro column op sub hop
    rw [print_comparison, print_operand, if_neg hop, List.append_nil, List.append_assoc]
  have hcomparison : ∀ column, Tells (print_column_ref column) (Rule.comparison subquery column) print_comparison := by
    intro column
    refine .alt (.keyword (by decide) (.alt ?_ ?_)) (.alt ?_ (.alt ?_ ?_))
    · refine .keyword (by decide) (.keyword (by decide) (.pure ?_))
      rw [hshort _ _ _ (by decide), List.append_assoc, List.append_assoc]
      rfl
    · refine .keyword (by decide) (.pure ?_)
      rw [hshort _ _ _ (by decide), List.append_assoc]
      rfl
    · refine .keyword (by decide) (.keyword (by decide) (h.map fun q => ?_))
      rw [hshort _ _ _ (by decide), List.append_assoc, List.append_assoc]
      rfl
    · refine .keyword (by decide) (h.map fun q => ?_)
      rw [hshort _ _ _ (by decide), List.append_assoc]
      rfl
    · exact (tells_op (by decide)).bind_of (Yields.one_of _) fun op hop => hrhs column op hop
  have hleaf : Tells [] (Rule.column_ref >>= fun column => Rule.comparison subquery column) print_comparison :=
    tells_column_ref.bind fun column => hcomparison column
  have hcompare : Tells [] (Rule.column_ref >>= fun column => Rule.comparison subquery column >>= fun compare =>
      pure (.leaf (.COMPARE compare))) print_or_expr := by
    rw [← bind_bind]
    exact hleaf.map fun _ => rfl
  exact .alt (.keyword (by decide) (h.map fun _ => rfl)) hcompare

/-- The words of a condition are those of its leaves. -/
theorem tells_condition (h : Tells [] subquery Subquery.print) : Tells [] (Rule.or_expr (Rule.compare_expr subquery)) print_or_expr := by
  have hprint : print_or_expr = print_formula print_compare_expr := funext print_or_expr_eq
  have hcompare := tells_compare_expr h
  rw [hprint] at hcompare ⊢
  exact tells_or_expr hcompare

theorem tells_select_body (h : Tells [] subquery Subquery.print) : Tells [] (Rule.select_body subquery) print_select_body := by
  have hwhere : Tells [] (Rule.where_clause subquery) print_where := .alt (.keyword (by decide) ((tells_condition h).map fun _ => rfl)) (.pure rfl)
  refine .keyword (by decide) (tells_select_columns.bind fun columns => .keyword (by decide) (.text (by decide) fun name => ?_))
  refine tells_alias.bind fun table_alias => tells_join.many.bind fun joins => hwhere.bind fun where_ => tells_group_by.bind fun group_by => ?_
  refine tells_having.bind fun having => tells_order_by.bind fun order_by => tells_limit.map fun limit => ?_
  simp only [print_select_body, List.nil_append, List.append_assoc, List.cons_append]

theorem tells_subquery : ∀ depth, Tells [] (Rule.subquery depth) Subquery.print
  | 0 => fun _ _ hc => False.elim hc
  | depth + 1 => by
    have ih := tells_select_body (tells_subquery depth)
    exact .keyword (by decide) (ih.bind fun stmt => .keyword (by decide) (.pure rfl))

end where_

/-- **A tree prints as the tokens it was read from.** -/
theorem reprint {tokens : List Token} {expr : WhereExpr Subquery} (h : Spells tokens expr) : Respelled tokens (print_or_expr expr) := by
  obtain ⟨depth, hexpr⟩ := h
  obtain ⟨ws, hprint, htokens⟩ := tells_condition (tells_subquery depth) tokens expr hexpr
  rw [hprint]
  exact htokens

/-! ### The parser -/

/-- **The parser accepts exactly the conditions.** The printed tokens of a tree are one of its spellings; a spelling is read as its tree, up to
where it ends; and what is read has the shape, and prints as the tokens that were taken, up to what a tree does not keep. -/
theorem condition_parsed :
    (∀ (tokens : List Token) (expr : WhereExpr Subquery), or_tree expr → leaves_shaped Written expr →
      tokens.map Token.word = print_or_expr expr → Spells tokens expr) ∧
    (∀ (tokens rest : List Token) (expr : WhereExpr Subquery), Spells tokens expr → next rest ∉ [TokenType.AND, .OR, .DOT] →
      parse_condition (tokens ++ rest) = .ok expr rest) ∧
    ∀ (tokens rest : List Token) (expr : WhereExpr Subquery), parse_condition tokens = .ok expr rest →
      or_tree expr ∧ leaves_shaped AnyValue expr ∧
        ∃ taken, tokens = taken ++ rest ∧ Spells taken expr ∧ Respelled taken (print_or_expr expr) := by
  refine ⟨fun tokens expr h hs hw => print_spells h hs hw, fun tokens rest expr h hrest => ?_, fun tokens rest expr h => ?_⟩
  · have hstop : Stops [TokenType.AND, .OR, .DOT] rest := hrest
    exact condition_complete h (hstop.mono (by decide))
  · obtain ⟨taken, htokens, hspells⟩ := condition_sound h
    obtain ⟨htree, hleaves⟩ := yields_shaped hspells
    exact ⟨htree, hleaves, taken, htokens, hspells, reprint hspells⟩

/-- `a > 1.5` is read as a tree with a FLOAT, and `a = 007` as one that prints otherwise. -/
theorem float_and_zeros :
    parse_condition [⟨.IDENTIFIER, bytes "a", 1, 1⟩, ⟨.GT, bytes ">", 1, 3⟩, ⟨.FLOAT_LITERAL, bytes "1.5", 1, 5⟩] =
      .ok (.leaf (.COMPARE ⟨⟨[], bytes "a"⟩, .GT, .float ⟨0x3FC00000⟩, none, none⟩)) [] ∧
    ¬ leaves_shaped Written (.leaf (.COMPARE ⟨⟨[], bytes "a"⟩, .GT, .float ⟨0x3FC00000⟩, none, none⟩)) ∧
    parse_condition [⟨.IDENTIFIER, bytes "a", 1, 1⟩, ⟨.EQ, bytes "=", 1, 3⟩, ⟨.INTEGER_LITERAL, bytes "007", 1, 5⟩] =
      .ok (.leaf (.COMPARE ⟨⟨[], bytes "a"⟩, .EQ, .int 7, none, none⟩)) [] ∧
    [Token.word ⟨.IDENTIFIER, bytes "a", 1, 1⟩, Token.word ⟨.EQ, bytes "=", 1, 3⟩, Token.word ⟨.INTEGER_LITERAL, bytes "007", 1, 5⟩] ≠
      print_or_expr (.leaf (.COMPARE ⟨⟨[], bytes "a"⟩, .EQ, .int 7, none, none⟩)) :=
  ⟨rfl, fun h => h.1, rfl, by decide⟩

/-- `NOT EXISTS (SELECT 1 FROM t WHERE a = -5) AND b.c LIKE 'x' OR d IS NOT NULL )` -/
theorem nested_condition :
    parse_condition ([⟨.NOT, bytes "not", 1, 1⟩, ⟨.EXISTS, bytes "exists", 1, 5⟩, ⟨.LPAREN, bytes "(", 1, 12⟩, ⟨.SELECT, bytes "SELECT", 1, 13⟩,
        ⟨.INTEGER_LITERAL, bytes "1", 1, 20⟩, ⟨.FROM, bytes "FROM", 1, 22⟩, ⟨.IDENTIFIER, bytes "t", 1, 27⟩, ⟨.WHERE, bytes "WHERE", 1, 29⟩,
        ⟨.IDENTIFIER, bytes "a", 1, 35⟩, ⟨.EQ, bytes "=", 1, 37⟩, ⟨.MINUS, bytes "-", 1, 39⟩, ⟨.INTEGER_LITERAL, bytes "5", 1, 40⟩,
        ⟨.RPAREN, bytes ")", 1, 41⟩, ⟨.AND, bytes "AND", 1, 43⟩, ⟨.IDENTIFIER, bytes "b", 1, 47⟩, ⟨.DOT, bytes ".", 1, 48⟩,
        ⟨.IDENTIFIER, bytes "c", 1, 49⟩, ⟨.LIKE, bytes "LIKE", 1, 51⟩, ⟨.STRING_LITERAL, bytes "x", 1, 56⟩, ⟨.OR, bytes "OR", 1, 60⟩,
        ⟨.IDENTIFIER, bytes "d", 1, 63⟩, ⟨.IS, bytes "IS", 1, 65⟩, ⟨.NOT, bytes "NOT", 1, 68⟩, ⟨.NULL_KW, bytes "NULL", 1, 72⟩] ++
        [⟨.RPAREN, bytes ")", 1, 76⟩]) =
      .ok (.or (.and (.not (.leaf (.EXISTS ⟨⟨[{ new_column with is_literal := true, literal := .int 1 }], bytes "t", [], [],
          some (.leaf (.COMPARE ⟨⟨[], bytes "a"⟩, .EQ, .int (-5), none, none⟩)), [], none, [], none⟩⟩)))
          (.leaf (.COMPARE ⟨⟨bytes "b", bytes "c"⟩, .LIKE, .varchar (bytes "x"), none, none⟩)))
        (.leaf (.COMPARE ⟨⟨[], bytes "d"⟩, .IS_NOT_NULL, .null, none, none⟩))) [⟨.RPAREN, bytes ")", 1, 76⟩] := by
  have h1 : (1 : Int32) ≠ Int32.minValue := by decide
  have h5 : (-5 : Int32) ≠ Int32.minValue := by decide
  have hone : SelectedColumns Written [{ new_column with is_literal := true, literal := .int 1 }] :=
    .inr ⟨List.cons_ne_nil _ _, fun sc hsc => .inr ⟨.int 1, h1, List.mem_singleton.1 hsc⟩⟩
  have hcompare : Comparison Written .EQ (.int (-5)) none ((none : Option Subquery) = none) False := ⟨h5, rfl⟩
  refine condition_parsed.2.1 _ _ _ (condition_parsed.1 _ _ ⟨⟨trivial, trivial⟩, trivial⟩ ?_ (by decide)) (by decide)
  exact ⟨⟨⟨hone, ⟨trivial, hcompare⟩, trivial, fun _ hm => absurd hm List.not_mem_nil⟩, trivial, rfl⟩, rfl, rfl, rfl⟩

end GSDBEngine
