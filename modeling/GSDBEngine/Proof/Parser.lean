import GSDBEngine.Spec.Grammar

/-!
# The parser is exact for the grammar

* `or_expr_exact`, `select_body_exact`: **what a function of the parser takes is what its rule says**, up to a token that it goes on with.
* `subquery_upTo`: subqueries are nested no deeper than there are tokens.
-/

namespace GSDBEngine

open Eff LL

/-! ### Token navigation -/

variable {α β : Type} {type : TokenType} {G G' : Grammar Token α} {L : List TokenType} {p q : ParserM α}

theorem next_cons (t : Token) (rest : List Token) : next (t :: rest) = t.type := rfl

theorem peek_type (tokens : List Token) : (tokens.headD end_of_file).type = next tokens := by
  cases tokens <;> rfl

theorem check_any_run (types : List TokenType) (tokens : List Token) : check_any types tokens = .ok (decide (next tokens ∈ types)) tokens := by
  rw [← peek_type]
  rfl

theorem check_run (type : TokenType) (tokens : List Token) : check type tokens = .ok (decide (next tokens ∈ [type])) tokens := by
  have hiff : (tokens.headD end_of_file).type = type ↔ next tokens ∈ [type] := by rw [peek_type, List.mem_singleton]
  rw [← decide_eq_decide.2 hiff]
  rfl

theorem advance_run {t : Token} {rest : List Token} (h : t.type ≠ .END_OF_FILE) : advance (t :: rest) = .ok t rest := by
  have hpeek : peek (t :: rest) = .ok t (t :: rest) := rfl
  unfold advance
  rw [run_then hpeek, if_neg h]
  rfl

theorem check_yes {t : Token} {rest : List Token} : check t.type (t :: rest) = .ok true (t :: rest) := by
  rw [check_run, next_cons, decide_eq_true (List.mem_singleton_self _)]

theorem check_no {tokens : List Token} (h : Stops [type] tokens) : check type tokens = .ok false tokens := by
  rw [check_run, decide_eq_false h]

theorem match_takes (h : type ≠ .END_OF_FILE) : Takes (match_ type) type := by
  refine ⟨fun {t rest} ht => ?_, fun {tokens} hno => ?_⟩
  · obtain rfl : t.type = type := ht
    unfold match_
    rw [run_then check_yes, if_pos rfl, run_then (advance_run h)]
    rfl
  · unfold match_
    rw [run_then (check_no hno), if_neg Bool.false_ne_true]
    rfl

theorem exact_match (h : type ≠ .END_OF_FILE) (hp : Exact p G L) (hq : Exact q G' L) (hG' : Follow G' L [type]) :
    Exact (match_ type >>= fun b => if b = true then p else q) ((Grammar.token type >>= fun _ => G).alt G') L :=
  Exact.take (match_takes h) h hp hq hG'

/-- A token is looked at, and taken. -/
theorem exact_advance {f : Token → ParserM α} {H : Token → Grammar Token α} (h : type ≠ .END_OF_FILE) (hf : ∀ t, Exact (f t) (H t) L)
    (hq : Exact q G' L) (hG' : Follow G' L [type]) :
    Exact (check type >>= fun b => if b = true then advance >>= f else q) ((Grammar.token type >>= H).alt G') L := by
  refine ⟨fun {tokens rest a} hrun => ?_, fun {c rest a} hc hrest => ?_⟩
  · by_cases hnext : next tokens = type
    · cases tokens with
      | nil => exact absurd hnext.symm h
      | cons t tokens =>
        obtain rfl : t.type = type := hnext
        rw [run_then check_yes, if_pos rfl, run_then (advance_run h)] at hrun
        obtain ⟨c, rfl, hc⟩ := (hf t).sound hrun
        exact ⟨t :: c, rfl, .inl (token_bind_iff.2 ⟨t, c, rfl, rfl, hc⟩)⟩
    · have hno : Stops [type] tokens := fun hm => hnext (List.mem_singleton.1 hm)
      rw [run_then (check_no hno), if_neg Bool.false_ne_true] at hrun
      obtain ⟨c, rfl, hc⟩ := hq.sound hrun
      exact ⟨c, rfl, .inr hc⟩
  · rcases hc with hc | hc
    · obtain ⟨t, c, rfl, ht, hbehind⟩ := token_bind_iff.1 hc
      obtain rfl : t.type = type := ht
      rw [List.cons_append, run_then check_yes, if_pos rfl, run_then (advance_run h)]
      exact (hf t).complete hbehind hrest
    · rw [run_then (check_no (hG' c a rest hc hrest)), if_neg Bool.false_ne_true]
      exact hq.complete hc hrest

theorem exact_error (wanted : Bytes) : Exact (error_msg wanted : ParserM α) Grammar.fail L := by
  refine Exact.fail fun tokens a rest h => ?_
  obtain ⟨t, tokens', -, hthrow⟩ := bind_ok h
  cases hthrow

theorem expect_exact (context : Bytes) (h : type ≠ .END_OF_FILE) : Exact (expect type context) (Grammar.token type) [] := by
  refine ⟨fun {tokens rest t} hrun => ?_, fun {c rest t} hc _ => ?_⟩
  · unfold expect at hrun
    by_cases hnext : next tokens = type
    · cases tokens with
      | nil => exact absurd hnext.symm h
      | cons t' tokens =>
        obtain rfl : t'.type = type := hnext
        rw [run_then check_yes, if_pos rfl, advance_run h] at hrun
        cases hrun
        exact ⟨[t], rfl, rfl, rfl⟩
    · have hno : Stops [type] tokens := fun hm => hnext (List.mem_singleton.1 hm)
      rw [run_then (check_no hno), if_neg Bool.false_ne_true] at hrun
      obtain ⟨t', tokens', -, hthrow⟩ := bind_ok hrun
      cases hthrow
  · obtain ⟨rfl, ht⟩ := hc
    obtain rfl : t.type = type := ht
    unfold expect
    rw [List.singleton_append, run_then check_yes, if_pos rfl, advance_run h]

/-- The induction is on the table: an entry before it is passed by. -/
theorem exact_match_any {f : Option (TokenType × β) → ParserM α} {H : TokenType × β → Grammar Token α} {table : List (TokenType × β)}
    (h : .END_OF_FILE ∉ table.map Prod.fst) (hnodup : (table.map Prod.fst).Nodup) (hf : ∀ e ∈ table, Exact (f (some e)) (H e) L)
    (hq : Exact (f none) G' L) (hG' : Follow G' L (table.map Prod.fst)) :
    Exact (match_any table >>= f) ((Grammar.one_of table >>= H).alt G') L := by
  have hrun : ∀ (table : List (TokenType × β)) (tokens : List Token), .END_OF_FILE ∉ table.map Prod.fst →
      (∃ e ∈ table, ∃ t rest, tokens = t :: rest ∧ t.type = e.1 ∧ match_any table tokens = .ok (some e) rest) ∨
        (Stops (table.map Prod.fst) tokens ∧ match_any table tokens = .ok none tokens) := by
    intro table tokens h
    induction table with
    | nil => exact .inr ⟨stops_nil, rfl⟩
    | cons e table ih =>
      rw [List.map_cons, List.mem_cons, not_or] at h
      unfold match_any
      by_cases hnext : next tokens = e.1
      · cases tokens with
        | nil => exact absurd hnext h.1
        | cons t rest =>
          refine .inl ⟨e, List.mem_cons_self, t, rest, rfl, hnext, ?_⟩
          rw [run_then ((match_takes (Ne.symm h.1)).yes hnext), if_pos rfl]
          rfl
      · have hno : Stops [e.1] tokens := fun hm => hnext (List.mem_singleton.1 hm)
        rw [run_then ((match_takes (Ne.symm h.1)).no hno), if_neg Bool.false_ne_true]
        rcases ih h.2 with ⟨e', he', t, rest, rfl, ht, hrun⟩ | ⟨hstop, hrun⟩
        · exact .inl ⟨e', List.mem_cons_of_mem _ he', t, rest, rfl, ht, hrun⟩
        · refine .inr ⟨fun hm => ?_, hrun⟩
          rcases List.mem_cons.1 hm with heq | hm
          · exact hnext heq
          · exact hstop hm
  refine ⟨fun {tokens rest a} hok => ?_, fun {c rest a} hc hrest => ?_⟩
  · rcases hrun table tokens h with ⟨e, he, t, tokens, rfl, ht, hmatch⟩ | ⟨-, hmatch⟩
    · rw [run_then hmatch] at hok
      obtain ⟨c, rfl, hc⟩ := (hf e he).sound hok
      exact ⟨t :: c, rfl, .inl ⟨e, [t], c, rfl, ⟨he, t, rfl, ht⟩, hc⟩⟩
    · rw [run_then hmatch] at hok
      obtain ⟨c, rfl, hc⟩ := hq.sound hok
      exact ⟨c, rfl, .inr hc⟩
  · rcases hc with ⟨e, _, c, rfl, ⟨he, t, rfl, ht⟩, hc⟩ | hc
    · rcases hrun table (t :: (c ++ rest)) h with ⟨e', he', t', tokens, heq, ht', hmatch⟩ | ⟨hstop, -⟩
      · obtain ⟨rfl, rfl⟩ := List.cons.inj heq
        have hsame : e.1 = e'.1 := ht.symm.trans ht'
        obtain rfl : e = e' := List.inj_on_of_nodup_map hnodup he he' hsame
        rw [List.append_assoc, List.singleton_append, run_then hmatch]
        exact (hf e he).complete hc hrest
      · refine absurd ?_ hstop
        rw [next_cons, show t.type = e.1 from ht]
        exact List.mem_map_of_mem he
    · rcases hrun table (c ++ rest) h with ⟨e', he', t', tokens, heq, ht', -⟩ | ⟨-, hmatch⟩
      · refine absurd ?_ (hG' c a rest hc hrest)
        rw [heq, next_cons, ht']
        exact List.mem_map_of_mem he'
      · rw [run_then hmatch]
        exact hq.complete hc hrest

/-- One more item on the right. -/
theorem foldl_snoc (items : List α) : ∀ others : List α, others.foldl (fun items x => items ++ [x]) items = items ++ others
  | [] => (List.append_nil items).symm
  | x :: others => by
    rw [List.foldl_cons, foldl_snoc (items ++ [x]) others, List.append_assoc, List.singleton_append]

/-- Rounds that open with a token that is taken. -/
theorem exact_rounds {node : α → β → α} {item : ParserM β} {H : Grammar Token β} (h : type ≠ .END_OF_FILE) (hitem : Exact item H L)
    (hL : type ∉ L) (a : α) : Exact (repeat_while (match_ type) item node a)
      (Grammar.Many (Grammar.token type >>= fun _ => H) >>= fun as => pure (as.foldl node a)) (type :: L) := by
  refine while_exact (Rounds.take (match_takes h) h hitem) (fun k hk => ?_) (fun k hk => List.mem_cons_of_mem _ hk) (fun k hk => ?_) a
  · rwa [List.mem_singleton.1 hk]
  · rw [List.mem_singleton.1 hk]
    exact List.mem_cons_self

theorem rounds_follow {H : Grammar Token β} {f : List β → α} (hL : type ∉ L) :
    Follow (Grammar.Many (Grammar.token type >>= fun _ => H) >>= fun as => pure (f as)) (type :: L) L := by
  refine ((mayOpen_many (opens_token type).bind).bind fun _ => mayOpen_pure).follow (fun k hk => ?_) fun k hk => List.mem_cons_of_mem _ hk
  rw [List.append_nil] at hk
  rwa [List.mem_singleton.1 hk]

theorem list_exact (hp : Exact p G L) (hL : .COMMA ∉ L) : Exact (parse_list p) (Grammar.separated .COMMA G) (.COMMA :: L) := by
  refine hp.bind (fun first => ?_) fun first => rounds_follow hL
  have hrounds : Exact (repeat_while (match_ .COMMA) p (fun items x => items ++ [x]) [first])
      (Grammar.Many (Grammar.token .COMMA >>= fun _ => G) >>= fun others => pure (others.foldl (fun items x => items ++ [x]) [first]))
      (.COMMA :: L) := exact_rounds (by decide) hp hL [first]
  simp only [foldl_snoc, List.singleton_append] at hrounds
  exact hrounds

theorem left_chain_exact {operand : ParserM (Formula α)} {H : Grammar Token (Formula α)} {node : Formula α → Formula α → Formula α}
    (h : type ≠ .END_OF_FILE) (hp : Exact operand H L) (hL : type ∉ L) :
    Exact (parse_left_chain type node operand) (Grammar.chain type node H) (type :: L) :=
  hp.bind (fun left => exact_rounds h hp hL left) fun _ => rounds_follow hL

/-! ### What the rules open with -/

theorem opens_column_ref : Opens Rule.column_ref [.IDENTIFIER] := (opens_token _).bind

theorem opens_number (negative : Bool) : Opens (Rule.number negative) [.INTEGER_LITERAL, .FLOAT_LITERAL] :=
  (opens_token _).bind.alt (opens_token _).bind

theorem opens_constant : Opens Rule.constant [.STRING_LITERAL, .TRUE_KW, .FALSE_KW, .NULL_KW] :=
  (opens_token _).bind.alt ((opens_token _).bind.alt ((opens_token _).bind.alt (opens_token _).bind))

theorem opens_value : Opens Rule.value literal_types :=
  ((opens_token _).bind.alt ((opens_number false).alt opens_constant)).mono (by decide)

theorem opens_aggregate_or_column : Opens Rule.aggregate_or_column [.COUNT, .MAX, .MIN, .AVG, .MEDIAN, .IDENTIFIER] :=
  (opens_token _).bind.alt ((opens_one_of _).bind.alt opens_column_ref.bind)

theorem opens_join : Opens Rule.join is_join_type :=
  ((opens_token _).bind.alt ((opens_token _).bind.alt ((opens_token _).bind.alt (opens_token _).bind))).bind

theorem opens_compare_expr {Q : Type} (subquery : Grammar Token Q) : Opens (Rule.compare_expr subquery) [.EXISTS, .IDENTIFIER] :=
  (opens_token _).bind.alt opens_column_ref.bind

/-- A clause that may be missing. -/
theorem mayOpen_clause {a : α} (h : Opens G L) : MayOpen (G.alt (pure a)) L := by
  intro c b hc
  rcases hc with hc | hc
  · exact h.may c b hc
  · exact .inl hc.1

/-! ### Literals and columns -/

theorem column_ref_exact : Exact parse_column_ref Rule.column_ref [.DOT] := by
  refine (expect_exact _ (by decide)).bind_any fun column => exact_match (by decide) ?_ (.pure _) (follow_pure fun _ hk => hk)
  exact (expect_exact _ (by decide)).bind_any fun name => .pure _

theorem number_exact (negative : Bool) {otherwise : ParserM Value} {H : Grammar Token Value} {T : List TokenType}
    (hq : Exact otherwise H []) (hH : Opens H T) (hT : ∀ k ∈ T, k ∉ [TokenType.INTEGER_LITERAL, .FLOAT_LITERAL]) :
    Exact (parse_number negative otherwise) ((Rule.number negative).alt H) [] := by
  rw [Rule.number, alt_assoc]
  refine exact_advance (by decide) (fun t => (Exact.liftE _).map _) (exact_advance (by decide) (fun t => (Exact.liftE _).map _) hq ?_) ?_
  · exact hH.follow fun k hk hm => hT k hk (List.mem_cons_of_mem _ hm)
  · refine ((opens_token _).bind.alt hH).follow fun k hk hm => ?_
    obtain rfl := List.mem_singleton.1 hm
    rcases List.mem_append.1 hk with hk | hk
    · exact absurd hk (by decide)
    · exact hT _ hk List.mem_cons_self

theorem constant_exact : Exact parse_constant Rule.constant [] := by
  have hnull : Exact (match_ .NULL_KW >>= fun b => if b = true then pure .null else error_msg
      (bytes "literal value (number, string, TRUE, FALSE, NULL)")) (Grammar.token .NULL_KW >>= fun _ => pure Value.null) [] :=
    (exact_match (by decide) (.pure _) (exact_error _) follow_fail).of_alt_fail
  refine exact_advance (by decide) (fun t => .pure _) (exact_match (by decide) (.pure _) (exact_match (by decide) (.pure _) hnull ?_) ?_) ?_
  · exact (opens_token _).bind.follow (by decide)
  · exact ((opens_token _).bind.alt (opens_token _).bind).follow (by decide)
  · exact ((opens_token _).bind.alt ((opens_token _).bind.alt (opens_token _).bind)).follow (by decide)

theorem value_exact : Exact parse_value Rule.value [] := by
  have hneg : Exact (parse_number true (error_msg (bytes "number after minus sign"))) (Rule.number true) [] :=
    (number_exact true (exact_error _) (opens_fail (T := [])) (by decide)).of_alt_fail
  refine exact_match (by decide) hneg (number_exact false constant_exact opens_constant (by decide)) ?_
  exact ((opens_number false).alt opens_constant).follow (by decide)

theorem count_exact : Exact parse_count Rule.count [] := by
  refine (expect_exact _ (by decide)).bind_any fun _ => ?_
  have hargument : Exact parse_count_argument Rule.count_argument [.DOT] :=
    exact_match (by decide) (.pure _) (column_ref_exact.map _) (opens_column_ref.bind.follow (by decide))
  exact hargument.bind (fun col => (expect_exact _ (by decide)).map _) fun _ => (opens_token _).bind.follow (by decide)

theorem aggregate_exact (entry : TokenType × AggregateType) : Exact (parse_aggregate entry) (Rule.aggregate entry) [] := by
  refine (expect_exact _ (by decide)).bind_any fun _ => ?_
  exact column_ref_exact.bind (fun column => (expect_exact _ (by decide)).map _) fun _ => (opens_token _).bind.follow (by decide)

theorem aggregate_or_column_exact : Exact parse_aggregate_or_column Rule.aggregate_or_column [.DOT] := by
  refine exact_match (by decide) (count_exact.mono (by decide)) ?_ (((opens_one_of _).bind.alt opens_column_ref.bind).follow (by decide))
  exact exact_match_any (by decide) (by decide) (fun entry _ => (aggregate_exact entry).mono (by decide)) (column_ref_exact.map _)
    (opens_column_ref.bind.follow (by decide))

theorem select_column_exact : Exact parse_select_column Rule.select_column [.DOT] :=
  Exact.look (check_any_run _) ((value_exact.map _).mono (by decide)) aggregate_or_column_exact opens_value.bind
    (opens_aggregate_or_column.follow (by decide))

theorem opens_select_columns : Opens (Grammar.separated .COMMA Rule.select_column) (literal_types ++ [.COUNT, .MAX, .MIN, .AVG, .MEDIAN, .IDENTIFIER]) :=
  (opens_value.bind.alt opens_aggregate_or_column).bind

theorem select_columns_exact : Exact parse_select_columns Rule.select_columns [.COMMA, .DOT] :=
  exact_match (by decide) (.pure _) (list_exact select_column_exact (by decide)) (opens_select_columns.follow (by decide))

/-! ### Clauses -/

theorem alias_exact : Exact parse_alias Rule.table_alias [.IDENTIFIER] :=
  exact_advance (by decide) (fun t => .pure _) (.pure _) (follow_pure fun _ hk => hk)

theorem join_type_exact : Exact parse_join_type Rule.join_type [] := by
  have hjoin : ∀ (context : Bytes) (type : JoinType), Exact (expect .JOIN context >>= fun _ => pure type)
      (Grammar.token .JOIN >>= fun _ => pure type) [] := fun context type => (expect_exact context (by decide)).map _
  refine exact_match (by decide) (hjoin _ _) (exact_match (by decide) (hjoin _ _) (exact_match (by decide) (hjoin _ _) (hjoin _ _) ?_) ?_) ?_
  · exact (opens_token _).bind.follow (by decide)
  · exact ((opens_token _).bind.alt (opens_token _).bind).follow (by decide)
  · exact ((opens_token _).bind.alt ((opens_token _).bind.alt (opens_token _).bind)).follow (by decide)

theorem join_exact : Exact parse_join Rule.join [.DOT] := by
  refine join_type_exact.bind_any fun type => (expect_exact _ (by decide)).bind_any fun table_name => ?_
  refine alias_exact.bind (fun table_alias => ?_) fun _ => (opens_token _).bind.follow (by decide)
  refine (expect_exact _ (by decide)).bind_any fun _ => ?_
  refine column_ref_exact.bind (fun left_col => ?_) fun _ => (opens_token _).bind.follow (by decide)
  exact (expect_exact _ (by decide)).bind_any fun _ => column_ref_exact.map _

theorem ascending_exact : Exact parse_ascending Rule.ascending [.DESC, .ASC] := by
  refine exact_match (by decide) (.pure _) (exact_match (by decide) (.pure _) (.pure _) (follow_pure (by decide))) ?_
  exact ((opens_token _).bind.may.alt mayOpen_pure).follow (by decide) (by decide)

theorem order_by_exact : Exact parse_order_by Rule.order_by [.COMMA, .DOT, .DESC, .ASC] := by
  have hclause : Exact parse_order_by_clause Rule.order_by_clause [.DOT, .DESC, .ASC] := by
    refine aggregate_or_column_exact.bind (fun operand => (ascending_exact.map _).mono (by decide)) fun _ => ?_
    exact (((opens_token _).bind.may.alt ((opens_token _).bind.may.alt mayOpen_pure)).bind fun _ => mayOpen_pure).follow (by decide) (by decide)
  exact (expect_exact _ (by decide)).bind_any fun _ => (expect_exact _ (by decide)).bind_any fun _ => list_exact hclause (by decide)

theorem group_by_exact : Exact parse_group_by Rule.group_by [.COMMA, .DOT] :=
  (expect_exact _ (by decide)).bind_any fun _ => (expect_exact _ (by decide)).bind_any fun _ => list_exact column_ref_exact (by decide)

theorem limit_exact : Exact parse_limit Rule.limit [.LIMIT] :=
  exact_match (by decide) ((expect_exact _ (by decide)).bind_any fun n => (Exact.liftE _).map _) (.pure _) (follow_pure fun _ hk => hk)

/-! ### Conditions -/

theorem op_exact {ops : List (TokenType × CompareOp)} (wanted : Bytes) (h : .END_OF_FILE ∉ ops.map Prod.fst)
    (hnodup : (ops.map Prod.fst).Nodup) : Exact (parse_op ops wanted) (Grammar.one_of ops >>= fun op => pure op.2) [] :=
  Exact.of_alt_fail (exact_match_any h hnodup (fun entry _ => .pure entry.2) (exact_error wanted) follow_fail)

/-- OR of AND of NOT, over a parser of the leaves. -/
theorem chain_exact {compare : ParserM (Formula α)} {H : Grammar Token (Formula α)} {T : List TokenType} (h : Exact compare H L)
    (hH : Opens H T) (hT : .NOT ∉ T) (hL : .AND ∉ L) (hL' : .OR ∉ L) :
    Exact (parse_left_chain .OR .or (parse_left_chain .AND .and (parse_not compare))) (Rule.or_expr H) (.OR :: .AND :: L) := by
  have hnot : Exact (parse_not compare) (Rule.not_expr H) L := by
    refine exact_match (by decide) (h.map _) h (hH.follow fun k hk hm => ?_)
    rw [List.mem_singleton.1 hm] at hk
    exact hT hk
  refine left_chain_exact (by decide) (left_chain_exact (by decide) hnot hL) fun hm => ?_
  rcases List.mem_cons.1 hm with heq | hm
  · exact absurd heq (by decide)
  · exact hL' hm

theorem exact_op {ops : List (TokenType × CompareOp)} {wanted : Bytes} {f : CompareOp → ParserM α} {H : CompareOp → Grammar Token α}
    (h : .END_OF_FILE ∉ ops.map Prod.fst) (hnodup : (ops.map Prod.fst).Nodup) (hf : ∀ op, Exact (f op) (H op) L) :
    Exact (parse_op ops wanted >>= f) (Grammar.one_of ops >>= fun op => H op.2) L := by
  rw [← map_bind]
  exact (op_exact wanted h hnodup).bind_any hf

theorem having_exact : Exact parse_having Rule.having [.OR, .AND] := by
  have hcompare : Exact parse_having_compare_expr Rule.having_compare_expr [] :=
    aggregate_or_column_exact.bind (fun operand => exact_op (by decide) (by decide) fun op => value_exact.map _) fun _ =>
      (opens_one_of _).bind.follow (by decide)
  refine (expect_exact _ (by decide)).bind_any fun _ => ?_
  exact chain_exact hcompare opens_aggregate_or_column.bind (by decide) (by decide) (by decide)

section where_

variable {Q : Type} {parse_subquery : ParserM Q} {subquery : Grammar Token Q}

theorem rhs_exact (column : ColumnRef) (op : CompareOp) :
    Exact (parse_rhs column op : ParserM (CompareExpr Q)) (Rule.rhs column op) [.DOT] :=
  Exact.look (check_run _) (column_ref_exact.map _) ((value_exact.map _).mono (by decide)) opens_column_ref.bind
    (opens_value.bind.follow (by decide))

theorem is_exact (column : ColumnRef) : Exact (parse_is column : ParserM (CompareExpr Q)) (Rule.is_null column) [] :=
  exact_match (by decide) ((expect_exact _ (by decide)).map _) ((expect_exact _ (by decide)).map _)
    ((opens_token _).bind.follow (by decide))

/-- NOT behind a column is NOT IN. -/
theorem comparison_exact (h : Exact parse_subquery subquery []) (column : ColumnRef) :
    Exact (parse_comparison parse_subquery column) (Rule.comparison subquery column) [.DOT] := by
  have hin : ∀ op, Exact (parse_subquery >>= fun subquery => pure (⟨column, op, .null, none, some subquery⟩ : CompareExpr Q))
      (subquery >>= fun subquery => pure ⟨column, op, .null, none, some subquery⟩) [.DOT] := fun op => (h.map _).mono (by decide)
  have hop : Exact (parse_op where_ops (bytes "comparison operator (=, !=, <, >, <=, >=, IS, LIKE)") >>= fun op => parse_rhs column op)
      (Grammar.one_of where_ops >>= fun op => Rule.rhs (Q := Q) column op.2) [.DOT] := exact_op (by decide) (by decide) (rhs_exact column)
  refine exact_match (by decide) ((is_exact column).mono (by decide)) (exact_match (by decide) ?_ (exact_match (by decide) (hin _) hop ?_) ?_) ?_
  · exact (expect_exact _ (by decide)).bind_any fun _ => hin _
  · exact (opens_one_of _).bind.follow (by decide)
  · exact ((opens_token _).bind.alt (opens_one_of _).bind).follow (by decide)
  · exact ((opens_token _).bind.alt ((opens_token _).bind.alt (opens_one_of _).bind)).follow (by decide)

theorem compare_expr_exact (h : Exact parse_subquery subquery []) :
    Exact (parse_compare_expr parse_subquery) (Rule.compare_expr subquery) [.DOT] := by
  refine exact_match (by decide) ((h.map _).mono (by decide)) ?_ (opens_column_ref.bind.follow (by decide))
  refine column_ref_exact.bind (fun column => (comparison_exact h column).map _) fun column => ?_
  exact ((opens_token _).bind.alt ((opens_token _).bind.alt ((opens_token _).bind.alt (opens_one_of _).bind))).bind.follow (by decide)

/-- **A condition**: NOT in front of a leaf is a prefix. -/
theorem or_expr_exact (h : Exact parse_subquery subquery []) :
    Exact (parse_or_expr parse_subquery) (Rule.or_expr (Rule.compare_expr subquery)) [.OR, .AND, .DOT] :=
  chain_exact (compare_expr_exact h) (opens_compare_expr subquery) (by decide) (by decide) (by decide)

theorem where_exact (h : Exact parse_subquery subquery []) :
    Exact (parse_where parse_subquery) (Rule.where_clause subquery) [.WHERE, .OR, .AND, .DOT] :=
  exact_match (by decide) (((or_expr_exact h).map _).mono (by decide)) (.pure _) (follow_pure (by decide))

theorem clause_exact {a : α} (h : Exact p G L) (hG : Opens G [type]) : Exact (parse_clause type p a) (G.alt (pure a)) (type :: L) := by
  refine Exact.look (check_run type) (h.mono fun k hk => List.mem_cons_of_mem _ hk) (.pure _) hG (follow_pure fun k hk => ?_)
  rw [List.mem_singleton.1 hk]
  exact List.mem_cons_self

theorem joins_exact : Exact (repeat_while (check_any is_join_type) parse_join (fun joins join => joins ++ [join]) []) (Grammar.Many Rule.join)
    (.DOT :: is_join_type) := by
  have hrounds : Exact (repeat_while (check_any is_join_type) parse_join (fun joins join => joins ++ [join]) [])
      (Grammar.Many Rule.join >>= fun joins => pure (joins.foldl (fun joins join => joins ++ [join]) [])) (.DOT :: is_join_type) :=
    while_exact (Rounds.look (check_any_run is_join_type) join_exact opens_join) (by decide) (by decide) (by decide) []
  simp only [foldl_snoc, List.nil_append, bind_pure_self] at hrounds
  exact hrounds

/-- What a SELECT would go on with. -/
def select_follow : List TokenType :=
  [.IDENTIFIER, .COMMA, .DOT, .INNER, .LEFT, .RIGHT, .JOIN, .WHERE, .GROUP, .HAVING, .ORDER, .LIMIT, .OR, .AND, .DESC, .ASC]

/-- A clause that may be missing is not what the tail before it goes on with. -/
theorem tail_exact {f : β → ParserM α} {H : β → Grammar Token α} {P : ParserM β} {J : Grammar Token β} {T : List TokenType}
    (hp : Exact P J L) (hf : ∀ b, Exact (f b) (H b) select_follow) (hH : ∀ b, MayOpen (H b) T) (hT : ∀ k ∈ T, k ∉ L)
    (hL : ∀ k ∈ L, k ∈ select_follow) : Exact (P >>= f) (J >>= H) select_follow := hp.bind hf fun b => (hH b).follow hT hL

/-- **A SELECT.** Behind each of the optional clauses, only a later one opens. -/
theorem select_body_exact (h : Exact parse_subquery subquery []) :
    Exact (parse_select_body parse_subquery) (Rule.select_body subquery) select_follow := by
  refine (expect_exact _ (by decide)).bind_any fun _ => ?_
  refine select_columns_exact.bind (fun columns => ?_) fun _ => (opens_token _).bind.follow (by decide)
  refine (expect_exact _ (by decide)).bind_any fun _ => (expect_exact _ (by decide)).bind_any fun table_name => ?_
  have hlimit : ∀ f : Option UInt32 → SelectStmt Q, MayOpen (Rule.limit >>= fun limit => pure (f limit)) [.LIMIT] := fun f =>
    (mayOpen_clause (opens_token _).bind).bind fun _ => mayOpen_pure
  have horder : ∀ f : List OrderByClause → Option UInt32 → SelectStmt Q, MayOpen (Rule.order_by.alt (pure []) >>= fun order_by =>
      Rule.limit >>= fun limit => pure (f order_by limit)) [.ORDER, .LIMIT] := fun f =>
    (mayOpen_clause (opens_token _).bind).bind fun _ => hlimit _
  have hhaving : ∀ f : Option HavingExpr → List OrderByClause → Option UInt32 → SelectStmt Q,
      MayOpen (Grammar.alt (Rule.having >>= fun having => pure (some having)) (pure none) >>= fun having =>
        Rule.order_by.alt (pure []) >>= fun order_by => Rule.limit >>= fun limit => pure (f having order_by limit))
        [.HAVING, .ORDER, .LIMIT] := fun f => (mayOpen_clause (opens_token _).bind.bind).bind fun _ => horder _
  have hgroup : ∀ f : List ColumnRef → Option HavingExpr → List OrderByClause → Option UInt32 → SelectStmt Q,
      MayOpen (Rule.group_by.alt (pure []) >>= fun group_by =>
        Grammar.alt (Rule.having >>= fun having => pure (some having)) (pure none) >>= fun having =>
        Rule.order_by.alt (pure []) >>= fun order_by => Rule.limit >>= fun limit => pure (f group_by having order_by limit))
        [.GROUP, .HAVING, .ORDER, .LIMIT] := fun f => (mayOpen_clause (opens_token _).bind).bind fun _ => hhaving _
  have hwhere : ∀ f : Option (WhereExpr Q) → List ColumnRef → Option HavingExpr → List OrderByClause → Option UInt32 → SelectStmt Q,
      MayOpen (Rule.where_clause subquery >>= fun where_ => Rule.group_by.alt (pure []) >>= fun group_by =>
        Grammar.alt (Rule.having >>= fun having => pure (some having)) (pure none) >>= fun having =>
        Rule.order_by.alt (pure []) >>= fun order_by => Rule.limit >>= fun limit => pure (f where_ group_by having order_by limit))
        [.WHERE, .GROUP, .HAVING, .ORDER, .LIMIT] := fun f => (mayOpen_clause (opens_token _).bind).bind fun _ => hgroup _
  refine tail_exact alias_exact (fun table_alias => ?_) (fun _ => (mayOpen_many opens_join).bind fun _ => hwhere _) (by decide) (by decide)
  refine tail_exact joins_exact (fun joins => ?_) (fun _ => hwhere _) (by decide) (by decide)
  refine tail_exact (where_exact h) (fun where_ => ?_) (fun _ => hgroup _) (by decide) (by decide)
  refine tail_exact (clause_exact group_by_exact (opens_token _).bind) (fun group_by => ?_) (fun _ => hhaving _) (by decide) (by decide)
  refine tail_exact (clause_exact (having_exact.map _) (opens_token _).bind.bind) (fun having => ?_) (fun _ => horder _) (by decide) (by decide)
  refine tail_exact (clause_exact order_by_exact (opens_token _).bind) (fun order_by => ?_) (fun _ => hlimit _) (by decide) (by decide)
  exact (limit_exact.map _).mono (by decide)

end where_

theorem subquery_exact : ∀ depth, Exact (parse_subquery depth) (Rule.subquery depth) []
  | 0 => Exact.fail fun tokens subquery rest h => by cases h
  | depth + 1 => by
    have ih := subquery_exact depth
    refine (expect_exact _ (by decide)).bind_any fun _ => ?_
    refine Exact.of_alt_fail (Exact.look (check_run .SELECT) ?_ (exact_error _) (opens_token _).bind.bind follow_fail)
    exact (select_body_exact ih).bind (fun stmt => (expect_exact _ (by decide)).map _) fun _ => (opens_token _).bind.follow (by decide)

/-! ### Depth -/

section depth

variable {Q : Type} {n : ℕ} {subquery subquery' : Grammar Token Q}

theorem or_expr_upTo {compare compare' : Grammar Token (Formula α)} (h : UpTo n compare compare') :
    UpTo n (Rule.or_expr compare) (Rule.or_expr compare') :=
  .chain (.chain (((UpTo.refl _).bind fun _ => h.bind fun _ => .refl _).alt h))

theorem compare_expr_upTo (h : UpTo n subquery subquery') : UpTo n (Rule.compare_expr subquery) (Rule.compare_expr subquery') := by
  have hin : ∀ column op, UpTo n (subquery >>= fun subquery => pure (⟨column, op, .null, none, some subquery⟩ : CompareExpr Q))
      (subquery' >>= fun subquery => pure ⟨column, op, .null, none, some subquery⟩) := fun column op => h.bind fun _ => .refl _
  refine ((UpTo.refl _).bind fun _ => h.bind fun _ => .refl _).alt ((UpTo.refl _).bind fun column => UpTo.bind ?_ fun _ => .refl _)
  refine (UpTo.refl _).alt (UpTo.alt ?_ (UpTo.alt ?_ (.refl _)))
  · exact (UpTo.refl _).bind fun _ => (UpTo.refl _).bind fun _ => hin column _
  · exact (UpTo.refl _).bind fun _ => hin column _

theorem select_body_upTo (h : UpTo n subquery subquery') : UpTo n (Rule.select_body subquery) (Rule.select_body subquery') := by
  have hwhere : UpTo n (Rule.where_clause subquery) (Rule.where_clause subquery') :=
    ((UpTo.refl _).bind fun _ => (or_expr_upTo (compare_expr_upTo h)).bind fun _ => .refl _).alt (.refl _)
  refine (UpTo.refl _).bind fun _ => (UpTo.refl _).bind fun _ => (UpTo.refl _).bind fun _ => (UpTo.refl _).bind fun _ => ?_
  exact (UpTo.refl _).bind fun _ => (UpTo.refl _).bind fun _ => hwhere.bind fun _ => .refl _

/-- **Each level takes a parenthesis**, so the tokens bound the depth. -/
theorem subquery_upTo : ∀ n depth, UpTo n (Rule.subquery depth) (Rule.subquery n)
  | _, 0 => fun _ _ _ h => False.elim h
  | 0, depth + 1 => fun c q hn h => by
    obtain ⟨t, c', rfl, -⟩ := token_bind_iff.1 h
    exact absurd hn (Nat.not_succ_le_zero _)
  | n + 1, depth + 1 => UpTo.token fun _ => (select_body_upTo (subquery_upTo n depth)).bind fun _ => .refl _

end depth

/-! ### Conditions -/

theorem parse_condition_run (tokens : List Token) :
    parse_condition tokens = parse_or_expr (parse_subquery tokens.length) tokens := rfl

/-- What is spelled is read, up to AND, OR or a dot. -/
theorem condition_complete {tokens rest : List Token} {expr : WhereExpr Subquery} (h : Spells tokens expr)
    (hrest : Stops [.OR, .AND, .DOT] rest) : parse_condition (tokens ++ rest) = .ok expr rest := by
  obtain ⟨depth, hexpr⟩ := h
  have hlen : tokens.length ≤ (tokens ++ rest).length := by
    rw [List.length_append]
    omega
  rw [parse_condition_run]
  refine (or_expr_exact (subquery_exact _)).complete ?_ hrest
  exact or_expr_upTo (compare_expr_upTo (subquery_upTo _ depth)) tokens expr hlen hexpr

theorem condition_sound {tokens rest : List Token} {expr : WhereExpr Subquery} (h : parse_condition tokens = .ok expr rest) :
    ∃ taken, tokens = taken ++ rest ∧ Spells taken expr := by
  obtain ⟨taken, htokens, hexpr⟩ := (or_expr_exact (subquery_exact _)).sound h
  exact ⟨taken, htokens, _, hexpr⟩

end GSDBEngine
