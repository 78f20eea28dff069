import GSDBEngine.Spec.Parser

/-!
# The grammar of conditions

What a condition is, and how it is written. The rules say which tokens a tree can be written as; they know nothing of the order in which
a parser decides.

* `Rule.or_expr`: **left-nested ORs of left-nested ANDs of leaves with or without NOT**. `Spells`: the tokens spell the condition.
* `or_tree`, `leaves_shaped`: the shape of a tree. `print_or_expr`: the words a tree is printed as.
-/

namespace GSDBEngine

open LL

/-! ### Rules -/

namespace Rule

open LL.Grammar

def column_ref : Grammar Token ColumnRef := do
  let column ← token .IDENTIFIER
  alt (do
    let _ ← token .DOT
    let name ← token .IDENTIFIER
    pure ⟨column.value, name.value⟩) (pure ⟨[], column.value⟩)

/-- Behind the sign. -/
def number (negative : Bool) : Grammar Token Value :=
  alt (do
    let t ← token .INTEGER_LITERAL
    let v ← lift (stoi t.value)
    pure (.int (if negative then -v else v)))
  (do
    let t ← token .FLOAT_LITERAL
    let v ← lift (stof t.value)
    pure (.float (if negative then negate v else v)))

def constant : Grammar Token Value :=
  alt (do
    let t ← token .STRING_LITERAL
    pure (.varchar t.value))
  (alt (do
    let _ ← token .TRUE_KW
    pure (.boolean true))
  (alt (do
    let _ ← token .FALSE_KW
    pure (.boolean false))
  (do
    let _ ← token .NULL_KW
    pure .null)))

def value : Grammar Token Value :=
  alt (do
    let _ ← token .MINUS
    number true)
  (alt (number false) constant)

/-! #### Columns, joins and clauses -/

def count_argument : Grammar Token SelectColumn :=
  alt (do
    let _ ← token .STAR
    pure { new_column with aggregate := .COUNT_STAR })
  (do
    let column ← column_ref
    pure { new_column with column := column, aggregate := .COUNT_COLUMN })

def count : Grammar Token SelectColumn := do
  let _ ← token .LPAREN
  let col ← count_argument
  let _ ← token .RPAREN
  pure col

def aggregate (entry : TokenType × AggregateType) : Grammar Token SelectColumn := do
  let _ ← token .LPAREN
  let column ← column_ref
  let _ ← token .RPAREN
  pure { new_column with column := column, aggregate := entry.2 }

def aggregate_or_column : Grammar Token SelectColumn :=
  alt (do
    let _ ← token .COUNT
    count)
  (alt (do
    let entry ← one_of aggregates
    aggregate entry)
  (do
    let column ← column_ref
    pure { new_column with column := column }))

def select_column : Grammar Token SelectColumn :=
  alt (do
    let literal ← value
    pure { new_column with is_literal := true, literal := literal }) aggregate_or_column

def select_columns : Grammar Token (List SelectColumn) :=
  alt (do
    let _ ← token .STAR
    pure [{ new_column with is_star := true }]) (separated .COMMA select_column)

def table_alias : Grammar Token Bytes :=
  alt (do
    let t ← token .IDENTIFIER
    pure t.value) (pure [])

def join_type : Grammar Token JoinType :=
  alt (do
    let _ ← token .INNER
    let _ ← token .JOIN
    pure .INNER)
  (alt (do
    let _ ← token .LEFT
    let _ ← token .JOIN
    pure .LEFT)
  (alt (do
    let _ ← token .RIGHT
    let _ ← token .JOIN
    pure .RIGHT)
  (do
    let _ ← token .JOIN
    pure .INNER)))

def join : Grammar Token JoinClause := do
  let type ← join_type
  let table_name ← token .IDENTIFIER
  let table_alias ← table_alias
  let _ ← token .ON
  let left_col ← column_ref
  let _ ← token .EQ
  let right_col ← column_ref
  pure ⟨type, table_name.value, table_alias, left_col, right_col⟩

def ascending : Grammar Token Bool :=
  alt (do
    let _ ← token .DESC
    pure false)
  (alt (do
    let _ ← token .ASC
    pure true) (pure true))

def order_by_clause : Grammar Token OrderByClause := do
  let operand ← aggregate_or_column
  let ascending ← ascending
  pure ⟨operand, ascending⟩

def order_by : Grammar Token (List OrderByClause) := do
  let _ ← token .ORDER
  let _ ← token .BY
  separated .COMMA order_by_clause

def group_by : Grammar Token (List ColumnRef) := do
  let _ ← token .GROUP
  let _ ← token .BY
  separated .COMMA column_ref

def limit : Grammar Token (Option UInt32) :=
  alt (do
    let _ ← token .LIMIT
    let n ← token .INTEGER_LITERAL
    let limit ← lift (stoul n.value)
    pure (some limit.toUInt32)) (pure none)

/-! #### Conditions -/

def not_expr {α : Type} (compare : Grammar Token (Formula α)) : Grammar Token (Formula α) :=
  alt (do
    let _ ← token .NOT
    let operand ← compare
    pure (.not operand)) compare

/-- OR of AND of NOT. -/
def or_expr {α : Type} (compare : Grammar Token (Formula α)) : Grammar Token (Formula α) :=
  chain .OR .or (chain .AND .and (not_expr compare))

def having_compare_expr : Grammar Token HavingExpr := do
  let operand ← aggregate_or_column
  let op ← one_of having_ops
  let value ← value
  pure (.leaf ⟨operand, op.2, value⟩)

def having : Grammar Token HavingExpr := do
  let _ ← token .HAVING
  or_expr having_compare_expr

section where_

variable {Q : Type} (subquery : Grammar Token Q)

def rhs (column : ColumnRef) (op : CompareOp) : Grammar Token (CompareExpr Q) :=
  alt (do
    let operand_column ← column_ref
    pure ⟨column, op, .null, some operand_column, none⟩)
  (do
    let operand ← value
    pure ⟨column, op, operand, none, none⟩)

def is_null (column : ColumnRef) : Grammar Token (CompareExpr Q) :=
  alt (do
    let _ ← token .NOT
    let _ ← token .NULL_KW
    pure ⟨column, .IS_NOT_NULL, .null, none, none⟩)
  (do
    let _ ← token .NULL_KW
    pure ⟨column, .IS_NULL, .null, none, none⟩)

def comparison (column : ColumnRef) : Grammar Token (CompareExpr Q) :=
  alt (do
    let _ ← token .IS
    is_null column)
  (alt (do
    let _ ← token .NOT
    let _ ← token .IN
    let subquery ← subquery
    pure ⟨column, .NOT_IN_SUBQUERY, .null, none, some subquery⟩)
  (alt (do
    let _ ← token .IN
    let subquery ← subquery
    pure ⟨column, .IN_SUBQUERY, .null, none, some subquery⟩)
  (do
    let op ← one_of where_ops
    rhs column op.2)))

def compare_expr : Grammar Token (WhereExpr Q) :=
  alt (do
    let _ ← token .EXISTS
    let subquery ← subquery
    pure (.leaf (.EXISTS subquery)))
  (do
    let column ← column_ref
    let compare ← comparison subquery column
    pure (.leaf (.COMPARE compare)))

def where_clause : Grammar Token (Option (WhereExpr Q)) :=
  alt (do
    let _ ← token .WHERE
    let expr ← or_expr (compare_expr subquery)
    pure (some expr)) (pure none)

def select_body : Grammar Token (SelectStmt Q) := do
  let _ ← token .SELECT
  let columns ← select_columns
  let _ ← token .FROM
  let table_name ← token .IDENTIFIER
  let table_alias ← table_alias
  let joins ← Many join
  let where_ ← where_clause subquery
  let group_by ← alt group_by (pure [])
  let having ← alt (do let having ← having; pure (some having)) (pure none)
  let order_by ← alt order_by (pure [])
  let limit ← limit
  pure ⟨columns, table_name.value, table_alias, joins, where_, group_by, having, order_by, limit⟩

end where_

/-- Nested less deep than `depth`. -/
def subquery : ℕ → Grammar Token Subquery
  | 0 => fail
  | depth + 1 => do
    let _ ← token .LPAREN
    let stmt ← select_body (subquery depth)
    let _ ← token .RPAREN
    pure ⟨stmt⟩

end Rule

/-- **The tokens spell the condition.** -/
def Spells (tokens : List Token) (expr : WhereExpr Subquery) : Prop :=
  ∃ depth, Rule.or_expr (Rule.compare_expr (Rule.subquery depth)) tokens expr

/-! ### Shape -/

section shape

variable {α : Type}

def not_tree : Formula α → Prop
  | .leaf _ => True
  | .not (.leaf _) => True
  | _ => False

/-- ANDs nested to the left. -/
def and_tree : Formula α → Prop
  | .and left right => and_tree left ∧ not_tree right
  | e => not_tree e

/-- ORs nested to the left. -/
def or_tree : Formula α → Prop
  | .or left right => or_tree left ∧ and_tree right
  | e => and_tree e

/-- Of all leaves. -/
def every_leaf (P : α → Prop) : Formula α → Prop
  | .leaf a => P a
  | .and left right => every_leaf P left ∧ every_leaf P right
  | .or left right => every_leaf P left ∧ every_leaf P right
  | .not left => every_leaf P left

end shape

/-- Only a column is asked for, or an aggregate, which has a column unless it is `COUNT(*)`. -/
def AggregateOrColumn (sc : SelectColumn) : Prop :=
  sc.is_star = false ∧ sc.is_literal = false ∧ sc.literal = .null ∧ (sc.aggregate = .COUNT_STAR → sc.column = ⟨[], []⟩)

/-- Integers other than the least one, strings, TRUE, FALSE and NULL. -/
def Written : Value → Prop
  | .int v => v ≠ Int32.minValue
  | .float _ => False
  | _ => True

section literals

variable (literal : Value → Prop)

def SelectedColumn (sc : SelectColumn) : Prop :=
  AggregateOrColumn sc ∨ ∃ v, literal v ∧ sc = { new_column with is_literal := true, literal := v }

def SelectedColumns (columns : List SelectColumn) : Prop :=
  columns = [{ new_column with is_star := true }] ∨ (columns ≠ [] ∧ ∀ sc ∈ columns, SelectedColumn literal sc)

def HavingCompare (c : HavingCompareExpr) : Prop := AggregateOrColumn c.operand ∧ c.op ∈ having_ops.map Prod.snd ∧ literal c.value

def HavingShaped : Option HavingExpr → Prop
  | none => True
  | some e => or_tree e ∧ every_leaf (HavingCompare literal) e

/-- A comparison with a literal or a column. -/
def Compared (operand : Value) : Option ColumnRef → Prop
  | none => literal operand
  | some _ => operand = .null

/-- What the operator is followed by: nothing, a subquery, or an operand. -/
def Comparison (op : CompareOp) (operand : Value) (operand_column : Option ColumnRef) (no_subquery with_subquery : Prop) : Prop :=
  match op with
  | .IS_NULL | .IS_NOT_NULL => operand = .null ∧ operand_column = none ∧ no_subquery
  | .IN_SUBQUERY | .NOT_IN_SUBQUERY => operand = .null ∧ operand_column = none ∧ with_subquery
  | _ => Compared literal operand operand_column ∧ no_subquery

end literals

/-! ### Shape and words, subqueries included -/

/-- What a token is printed as; the text of a keyword or a symbol does not count. -/
abbrev Word := TokenType × Bytes

/-- Tokens whose text counts. -/
def text_types : List TokenType := [.IDENTIFIER, .INTEGER_LITERAL, .FLOAT_LITERAL, .STRING_LITERAL]

def Token.word (t : Token) : Word := (t.type, if t.type ∈ text_types then t.value else [])

def keyword (type : TokenType) : Word := (type, [])

def print_column_ref (ref : ColumnRef) : List Word :=
  if ref.table_name = [] then [(.IDENTIFIER, ref.column_name)]
  else [(.IDENTIFIER, ref.table_name), keyword .DOT, (.IDENTIFIER, ref.column_name)]

/-- No text of a FLOAT is chosen. -/
def print_value : Value → List Word
  | .null => [keyword .NULL_KW]
  | .int v => if v < 0 then [keyword .MINUS, (.INTEGER_LITERAL, digits v.toInt.natAbs)] else [(.INTEGER_LITERAL, digits v.toInt.natAbs)]
  | .float _ => [(.FLOAT_LITERAL, [])]
  | .boolean v => [keyword (if v then .TRUE_KW else .FALSE_KW)]
  | .varchar v => [(.STRING_LITERAL, v)]

def print_aggregate_or_column (sc : SelectColumn) : List Word :=
  match sc.aggregate with
  | .NONE => print_column_ref sc.column
  | .COUNT_STAR => [keyword .COUNT, keyword .LPAREN, keyword .STAR, keyword .RPAREN]
  | .COUNT_COLUMN => keyword .COUNT :: keyword .LPAREN :: print_column_ref sc.column ++ [keyword .RPAREN]
  | .MAX => keyword .MAX :: keyword .LPAREN :: print_column_ref sc.column ++ [keyword .RPAREN]
  | .MIN => keyword .MIN :: keyword .LPAREN :: print_column_ref sc.column ++ [keyword .RPAREN]
  | .AVG => keyword .AVG :: keyword .LPAREN :: print_column_ref sc.column ++ [keyword .RPAREN]
  | .MEDIAN => keyword .MEDIAN :: keyword .LPAREN :: print_column_ref sc.column ++ [keyword .RPAREN]

def print_select_column (sc : SelectColumn) : List Word :=
  if sc.is_star then [keyword .STAR]
  else if sc.is_literal then print_value sc.literal
  else print_aggregate_or_column sc

def print_list {α : Type} (print : α → List Word) : List α → List Word
  | [] => []
  | a :: as => print a ++ as.flatMap fun a => keyword .COMMA :: print a

def print_alias (table_alias : Bytes) : List Word := if table_alias = [] then [] else [(.IDENTIFIER, table_alias)]

def print_join_type : JoinType → List Word
  | .INNER => [keyword .INNER, keyword .JOIN]
  | .LEFT => [keyword .LEFT, keyword .JOIN]
  | .RIGHT => [keyword .RIGHT, keyword .JOIN]

def print_join (join : JoinClause) : List Word :=
  print_join_type join.type ++ (.IDENTIFIER, join.table_name) :: print_alias join.table_alias ++
    keyword .ON :: print_column_ref join.left_col ++ keyword .EQ :: print_column_ref join.right_col

def print_order_by_clause (ob : OrderByClause) : List Word :=
  print_aggregate_or_column ob.operand ++ if ob.ascending then [] else [keyword .DESC]

/-- A clause that may be empty. -/
def print_clause {α : Type} (type : TokenType) (print : α → List Word) (items : List α) : List Word :=
  if items = [] then [] else keyword type :: keyword .BY :: print_list print items

def print_limit : Option UInt32 → List Word
  | none => []
  | some n => [keyword .LIMIT, (.INTEGER_LITERAL, digits n.toNat)]

/-- The operator; with `IS` and `IN` it is more than one word. -/
def print_op : CompareOp → List Word
  | .EQ => [keyword .EQ]
  | .NEQ => [keyword .NEQ]
  | .LT => [keyword .LT]
  | .GT => [keyword .GT]
  | .LTE => [keyword .LTE]
  | .GTE => [keyword .GTE]
  | .LIKE => [keyword .LIKE]
  | .IS_NULL => [keyword .IS, keyword .NULL_KW]
  | .IS_NOT_NULL => [keyword .IS, keyword .NOT, keyword .NULL_KW]
  | .IN_SUBQUERY => [keyword .IN]
  | .NOT_IN_SUBQUERY => [keyword .NOT, keyword .IN]

/-- What is behind the operator. -/
def print_operand (op : CompareOp) (operand : Value) (operand_column : Option ColumnRef) : List Word :=
  if op ∈ where_ops.map Prod.snd then (operand_column.map print_column_ref).getD (print_value operand) else []

def print_having_compare (c : HavingCompareExpr) : List Word :=
  print_aggregate_or_column c.operand ++ print_op c.op ++ print_value c.value

def print_formula {α : Type} (print : α → List Word) : Formula α → List Word
  | .leaf a => print a
  | .and left right => print_formula print left ++ keyword .AND :: print_formula print right
  | .or left right => print_formula print left ++ keyword .OR :: print_formula print right
  | .not left => keyword .NOT :: print_formula print left

def print_having : Option HavingExpr → List Word
  | none => []
  | some e => keyword .HAVING :: print_formula print_having_compare e

mutual

def Subquery.print : Subquery → List Word
  | .mk stmt => keyword .LPAREN :: print_select_body stmt ++ [keyword .RPAREN]

def print_select_body : SelectStmt Subquery → List Word
  | ⟨columns, table_name, table_alias, joins, where_, group_by, having, order_by, limit⟩ =>
    keyword .SELECT :: print_list print_select_column columns ++ keyword .FROM :: (.IDENTIFIER, table_name) :: print_alias table_alias ++
      joins.flatMap print_join ++ print_where where_ ++ print_clause .GROUP print_column_ref group_by ++ print_having having ++
      print_clause .ORDER print_order_by_clause order_by ++ print_limit limit

def print_where : Option (Formula (WhereLeaf Subquery)) → List Word
  | none => []
  | some e => keyword .WHERE :: print_or_expr e

/-- **The words of a condition**; it has no parentheses. -/
def print_or_expr : Formula (WhereLeaf Subquery) → List Word
  | .leaf a => print_compare_expr a
  | .and left right => print_or_expr left ++ keyword .AND :: print_or_expr right
  | .or left right => print_or_expr left ++ keyword .OR :: print_or_expr right
  | .not left => keyword .NOT :: print_or_expr left

def print_compare_expr : WhereLeaf Subquery → List Word
  | .COMPARE compare => print_comparison compare
  | .EXISTS subquery => keyword .EXISTS :: subquery.print

def print_comparison : CompareExpr Subquery → List Word
  | ⟨column, op, operand, operand_column, subquery⟩ =>
    print_column_ref column ++ print_op op ++ print_operand op operand operand_column ++ print_subquery subquery

def print_subquery : Option Subquery → List Word
  | none => []
  | some subquery => subquery.print

end

/-- **The tokens, up to what a tree does not keep**, are the words. -/
inductive Respelled : List Token → List Word → Prop
  | nil : Respelled [] []
  | same {t : Token} {c : List Token} {ws : List Word} (rest : Respelled c ws) : Respelled (t :: c) (t.word :: ws)
  /-- a number, in any way that it can be written -/
  | number {v : Value} {c c' : List Token} {ws : List Word} (read : Rule.value c v) (rest : Respelled c' ws) :
    Respelled (c ++ c') (print_value v ++ ws)
  /-- the number of a LIMIT is one of 32 bits -/
  | limit {t : Token} {n : UInt64} {c : List Token} {ws : List Word} (read : stoul t.value = .ok n) (rest : Respelled c ws) :
    Respelled (t :: c) ((.INTEGER_LITERAL, digits n.toUInt32.toNat) :: ws)
  /-- a bare JOIN -/
  | join {t : Token} {c : List Token} {ws : List Word} (bare : t.type = .JOIN) (rest : Respelled c ws) :
    Respelled (t :: c) (keyword .INNER :: keyword .JOIN :: ws)
  | asc {t : Token} {c : List Token} {ws : List Word} (ascending : t.type = .ASC) (rest : Respelled c ws) : Respelled (t :: c) ws
  /-- names without text, which the tokenizer does not make -/
  | unnamed {t : Token} {c : List Token} {ws : List Word} (empty : t.value = []) (rest : Respelled c ws) : Respelled (t :: c) ws
  | no_table {t dot : Token} {c : List Token} {ws : List Word} (empty : t.value = []) (qualified : dot.type = .DOT) (rest : Respelled c ws) :
    Respelled (t :: dot :: c) ws

section literals

variable (literal : Value → Prop)

mutual

def Subquery.Shaped : Subquery → Prop
  | .mk stmt => select_shaped stmt

def select_shaped : SelectStmt Subquery → Prop
  | ⟨columns, _, _, _, where_, _, having, order_by, _⟩ =>
    SelectedColumns literal columns ∧ where_shaped where_ ∧ HavingShaped literal having ∧ ∀ ob ∈ order_by, AggregateOrColumn ob.operand

def where_shaped : Option (Formula (WhereLeaf Subquery)) → Prop
  | none => True
  | some e => or_tree e ∧ leaves_shaped e

/-- **The leaves of a condition**: a comparison, LIKE, IS [NOT] NULL, [NOT] IN a subquery or EXISTS. -/
def leaves_shaped : Formula (WhereLeaf Subquery) → Prop
  | .leaf a => leaf_shaped a
  | .and left right => leaves_shaped left ∧ leaves_shaped right
  | .or left right => leaves_shaped left ∧ leaves_shaped right
  | .not left => leaves_shaped left

def leaf_shaped : WhereLeaf Subquery → Prop
  | .COMPARE compare => compare_shaped compare
  | .EXISTS subquery => subquery.Shaped

def compare_shaped : CompareExpr Subquery → Prop
  | ⟨_, op, operand, operand_column, subquery⟩ =>
    Comparison literal op operand operand_column (subquery = none) (subquery_shaped subquery)

def subquery_shaped : Option Subquery → Prop
  | none => False
  | some subquery => subquery.Shaped

end

end literals

end GSDBEngine
