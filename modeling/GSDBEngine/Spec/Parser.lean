import GSDBEngine.Lib.LL
import GSDBEngine.Spec.GroupBy
import GSDBEngine.Spec.Tokenizer

/-!
# The parser

`parser.cpp`: a SELECT and its conditions, by recursive descent. The state is the list of the tokens from `pos_` on; a list that ends
without an END_OF_FILE token is read as if there were one.

* `parse_or_expr`, `parse_and_expr`, `parse_not_expr`, `parse_compare_expr`: WHERE. `parse_having`: the same chain for HAVING.
* `parse_select_body`: a SELECT. `parse_subquery`: one in parentheses; how deep they nest is bounded.
* `parse_condition`: **a condition, nested as deep as there are tokens**.
-/

namespace GSDBEngine

open Eff LL

/-! ### Errors -/

def token_type_name : TokenType → Bytes
  | .SELECT => bytes "SELECT" | .FROM => bytes "FROM" | .WHERE => bytes "WHERE" | .INSERT => bytes "INSERT" | .INTO => bytes "INTO"
  | .VALUES => bytes "VALUES" | .UPDATE => bytes "UPDATE" | .SET => bytes "SET" | .DELETE => bytes "DELETE"
  | .CREATE => bytes "CREATE" | .TABLE => bytes "TABLE" | .DROP => bytes "DROP" | .USE => bytes "USE" | .SHOW => bytes "SHOW"
  | .DATABASES => bytes "DATABASES" | .DATABASE => bytes "DATABASE" | .TABLES => bytes "TABLES" | .DESCRIBE => bytes "DESCRIBE"
  | .INDEX => bytes "INDEX" | .UNIQUE => bytes "UNIQUE" | .AND => bytes "AND" | .OR => bytes "OR" | .NOT => bytes "NOT"
  | .NULL_KW => bytes "NULL" | .IS => bytes "IS" | .LIKE => bytes "LIKE" | .ORDER => bytes "ORDER" | .BY => bytes "BY"
  | .GROUP => bytes "GROUP" | .HAVING => bytes "HAVING" | .ASC => bytes "ASC" | .DESC => bytes "DESC" | .LIMIT => bytes "LIMIT"
  | .JOIN => bytes "JOIN" | .INNER => bytes "INNER" | .LEFT => bytes "LEFT" | .RIGHT => bytes "RIGHT" | .ON => bytes "ON"
  | .PRIMARY => bytes "PRIMARY" | .KEY => bytes "KEY" | .AUTO_INCREMENT => bytes "AUTO_INCREMENT" | .CHECK => bytes "CHECK"
  | .COUNT => bytes "COUNT" | .MAX => bytes "MAX" | .MIN => bytes "MIN" | .AVG => bytes "AVG" | .MEDIAN => bytes "MEDIAN"
  | .IN => bytes "IN" | .EXISTS => bytes "EXISTS" | .DEFAULT => bytes "DEFAULT" | .FOREIGN => bytes "FOREIGN"
  | .REFERENCES => bytes "REFERENCES" | .CASCADE => bytes "CASCADE" | .RESTRICT => bytes "RESTRICT" | .INT_KW => bytes "INT"
  | .FLOAT_KW => bytes "FLOAT" | .BOOLEAN_KW => bytes "BOOLEAN" | .VARCHAR_KW => bytes "VARCHAR" | .TRUE_KW => bytes "TRUE"
  | .FALSE_KW => bytes "FALSE" | .INTEGER_LITERAL => bytes "INTEGER_LITERAL" | .FLOAT_LITERAL => bytes "FLOAT_LITERAL"
  | .STRING_LITERAL => bytes "STRING_LITERAL" | .IDENTIFIER => bytes "IDENTIFIER" | .LPAREN => bytes "(" | .RPAREN => bytes ")"
  | .COMMA => bytes "," | .SEMICOLON => bytes ";" | .STAR => bytes "*" | .DOT => bytes "." | .EQ => bytes "=" | .NEQ => bytes "!="
  | .LT => bytes "<" | .GT => bytes ">" | .LTE => bytes "<=" | .GTE => bytes ">=" | .PLUS => bytes "+" | .MINUS => bytes "-"
  | .END_OF_FILE => bytes "EOF"

inductive ParserErr where
  | expected (type : TokenType) (context : Bytes) (got : Token)
  | unexpected (wanted : Bytes) (got : Token)
  /-- what `std::stoi` and its like throw -/
  | invalid_argument (function : Bytes)
  | out_of_range (function : Bytes)
  /-- not one of the source: subqueries nested deeper than the bound -/
  | too_deep
  deriving DecidableEq

/-- The text and the place of a token. -/
def Token.what (t : Token) : Bytes := bytes " but got '" ++ t.value ++ bytes "'" ++ (Place.mk t.line t.col).what

/-- The message. -/
def ParserErr.what : ParserErr → Bytes
  | expected type context got => bytes "Parser: expected " ++ token_type_name type ++ bytes " in " ++ context ++ got.what
  | unexpected wanted got => bytes "Parser: expected " ++ wanted ++ got.what
  | invalid_argument function => function
  | out_of_range function => function
  | too_deep => []

/-! ### Numbers -/

def decimal (digits : Bytes) : ℕ := digits.foldl (fun n d => 10 * n + (d.toNat - 48)) 0

/-- `-` or `+`, if there is one, and what is behind it. -/
def read_sign : Bytes → Bool × Bytes
  | [] => (false, [])
  | c :: text => if c = ch '-' then (true, text) else if c = ch '+' then (false, text) else (false, c :: text)

/-- `std::strtol`: behind blanks and a sign, the digits that there are. -/
def strtol (text : Bytes) : Option ℤ :=
  let signed := read_sign (text.dropWhile isspace)
  let digits := signed.2.takeWhile isdigit
  if digits = [] then none else some (if signed.1 then -decimal digits else decimal digits)

def stoi (text : Bytes) : Except ParserErr Int32 :=
  match strtol text with
  | none => throw (.invalid_argument (bytes "stoi"))
  | some n => if -2 ^ 31 ≤ n ∧ n < 2 ^ 31 then pure (Int32.ofInt n) else throw (.out_of_range (bytes "stoi"))

/-- Of 64 bits; a negative number wraps around. -/
def stoul (text : Bytes) : Except ParserErr UInt64 :=
  match strtol text with
  | none => throw (.invalid_argument (bytes "stoul"))
  | some n => if n.natAbs < 2 ^ 64 then pure (UInt64.ofInt n) else throw (.out_of_range (bytes "stoul"))

/-- `n / d`, to the nearest, ties to even. -/
def round_ratio (n d : ℕ) : ℕ :=
  let q := n / d
  let r := n % d
  if d < 2 * r ∨ (d = 2 * r ∧ q % 2 = 1) then q + 1 else q

/-- The magnitude of the single-precision number nearest to `n / d`. -/
def single_of_ratio (n d : ℕ) : ℕ :=
  -- in units of the least subnormal number
  let q := n * 2 ^ 149 / d
  let s := q.log2 - 23
  s * 2 ^ 23 + round_ratio (n * 2 ^ 149) (d * 2 ^ s)

/-- Of digits and a dot, which is what the tokenizer makes. A subnormal number that is not exact is out of range, too. -/
def stof (text : Bytes) : Except ParserErr Single :=
  let signed := read_sign (text.dropWhile isspace)
  let whole := signed.2.takeWhile isdigit
  let behind := signed.2.dropWhile isdigit
  let fraction := if behind.head? = some (ch '.') then behind.tail.takeWhile isdigit else []
  let n := decimal (whole ++ fraction)
  let d := 10 ^ fraction.length
  let magnitude := single_of_ratio n d
  if whole ++ fraction = [] then throw (.invalid_argument (bytes "stof"))
  else if 0x7F800000 ≤ magnitude ∨ (magnitude < 0x00800000 ∧ n * 2 ^ 149 % d ≠ 0) then throw (.out_of_range (bytes "stof"))
  else pure ⟨UInt32.ofNat (if signed.1 then 2 ^ 31 + magnitude else magnitude)⟩

example : ["1.5", "0.1", "16777217.", "-.00001", "00.0"].map (fun text => (stof (bytes text)).toOption) =
    [some ⟨0x3FC00000⟩, some ⟨0x3DCCCCCD⟩, some ⟨0x4B800000⟩, some ⟨0xB727C5AC⟩, some ⟨0⟩] := by decide +kernel

/-- The sign bit is flipped. -/
def negate (x : Single) : Single := ⟨x.bits ^^^ 0x80000000⟩

/-! ### Token navigation -/

abbrev ParserM := EStateM ParserErr (List Token)

instance : Kinds Token TokenType := ⟨Token.type, .END_OF_FILE⟩

def end_of_file : Token := ⟨.END_OF_FILE, [], 0, 0⟩

def peek : ParserM Token := do
  let tokens ← get
  pure (tokens.headD end_of_file)

def advance : ParserM Token := do
  let t ← peek
  if t.type = .END_OF_FILE then pure t
  else do
    modify List.tail
    pure t

def check (type : TokenType) : ParserM Bool := do
  let t ← peek
  pure (decide (t.type = type))

/-- `check(type) || check(type') || ...` -/
def check_any (types : List TokenType) : ParserM Bool := do
  let t ← peek
  pure (decide (t.type ∈ types))

def match_ (type : TokenType) : ParserM Bool := do
  if ← check type then do
    let _ ← advance
    pure true
  else pure false

/-- `if (match(type)) ... else if (match(type')) ...` -/
def match_any {β : Type} : List (TokenType × β) → ParserM (Option (TokenType × β))
  | [] => pure none
  | entry :: table => do
    if ← match_ entry.1 then pure (some entry)
    else match_any table

def expect (type : TokenType) (context : Bytes) : ParserM Token := do
  if ← check type then advance
  else do
    let t ← peek
    throw (.expected type context t)

def error_msg {α : Type} (expected : Bytes) : ParserM α := do
  let t ← peek
  throw (.unexpected expected t)

/-- `do { items.push_back(item()); } while (match(COMMA))` -/
def parse_list {α : Type} (item : ParserM α) : ParserM (List α) := do
  let first ← item
  repeat_while (match_ .COMMA) item (fun items x => items ++ [x]) [first]

/-! ### Shared helpers -/

def parse_column_ref : ParserM ColumnRef := do
  let column ← expect .IDENTIFIER (bytes "column reference")
  if ← match_ .DOT then do
    let name ← expect .IDENTIFIER (bytes "qualified column reference")
    pure ⟨column.value, name.value⟩
  else pure ⟨[], column.value⟩

/-- Behind the sign, a number. -/
def parse_number (negative : Bool) (otherwise : ParserM Value) : ParserM Value := do
  if ← check .INTEGER_LITERAL then do
    let t ← advance
    let v ← liftE (stoi t.value)
    pure (.int (if negative then -v else v))
  else do
    if ← check .FLOAT_LITERAL then do
      let t ← advance
      let v ← liftE (stof t.value)
      pure (.float (if negative then negate v else v))
    else otherwise

/-- Any other literal. -/
def parse_constant : ParserM Value := do
  if ← check .STRING_LITERAL then do
    let t ← advance
    pure (.varchar t.value)
  else do
    if ← match_ .TRUE_KW then pure (.boolean true)
    else do
      if ← match_ .FALSE_KW then pure (.boolean false)
      else do
        if ← match_ .NULL_KW then pure .null
        else error_msg (bytes "literal value (number, string, TRUE, FALSE, NULL)")

def parse_value : ParserM Value := do
  if ← match_ .MINUS then parse_number true (error_msg (bytes "number after minus sign"))
  else parse_number false parse_constant

/-! ### Columns, joins and clauses -/

/-- `SelectColumn col;` -/
def new_column : SelectColumn := ⟨false, false, .null, ⟨[], []⟩, .NONE⟩

def aggregates : List (TokenType × AggregateType) := [(.MAX, .MAX), (.MIN, .MIN), (.AVG, .AVG), (.MEDIAN, .MEDIAN)]

def parse_count_argument : ParserM SelectColumn := do
  if ← match_ .STAR then pure { new_column with aggregate := .COUNT_STAR }
  else do
    let column ← parse_column_ref
    pure { new_column with column := column, aggregate := .COUNT_COLUMN }

def parse_count : ParserM SelectColumn := do
  let _ ← expect .LPAREN (bytes "COUNT(...)")
  let col ← parse_count_argument
  let _ ← expect .RPAREN (bytes "COUNT(...)")
  pure col

def parse_aggregate (entry : TokenType × AggregateType) : ParserM SelectColumn := do
  let fn_name := token_type_name entry.1
  let _ ← expect .LPAREN (fn_name ++ bytes "(...)")
  let column ← parse_column_ref
  let _ ← expect .RPAREN (fn_name ++ bytes "(...)")
  pure { new_column with column := column, aggregate := entry.2 }

def parse_aggregate_or_column : ParserM SelectColumn := do
  if ← match_ .COUNT then parse_count
  else do
    match ← match_any aggregates with
    | some entry => parse_aggregate entry
    | none => do
      let column ← parse_column_ref
      pure { new_column with column := column }

/-- What a literal opens with. -/
def literal_types : List TokenType :=
  [.INTEGER_LITERAL, .FLOAT_LITERAL, .STRING_LITERAL, .TRUE_KW, .FALSE_KW, .NULL_KW, .MINUS]

def parse_select_column : ParserM SelectColumn := do
  if ← check_any literal_types then do
    let literal ← parse_value
    pure { new_column with is_literal := true, literal := literal }
  else parse_aggregate_or_column

def parse_select_columns : ParserM (List SelectColumn) := do
  if ← match_ .STAR then pure [{ new_column with is_star := true }]
  else parse_list parse_select_column

/-- An optional alias; empty without one. -/
def parse_alias : ParserM Bytes := do
  if ← check .IDENTIFIER then do
    let t ← advance
    pure t.value
  else pure []

def parse_join_type : ParserM JoinType := do
  if ← match_ .INNER then do
    let _ ← expect .JOIN (bytes "INNER JOIN")
    pure .INNER
  else do
    if ← match_ .LEFT then do
      let _ ← expect .JOIN (bytes "LEFT JOIN")
      pure .LEFT
    else do
      if ← match_ .RIGHT then do
        let _ ← expect .JOIN (bytes "RIGHT JOIN")
        pure .RIGHT
      else do
        -- a bare JOIN is an INNER one
        let _ ← expect .JOIN (bytes "JOIN")
        pure .INNER

def parse_join : ParserM JoinClause := do
  let type ← parse_join_type
  let table_name ← expect .IDENTIFIER (bytes "JOIN table name")
  let table_alias ← parse_alias
  let _ ← expect .ON (bytes "JOIN ON")
  let left_col ← parse_column_ref
  let _ ← expect .EQ (bytes "JOIN ON condition")
  let right_col ← parse_column_ref
  pure ⟨type, table_name.value, table_alias, left_col, right_col⟩

def parse_ascending : ParserM Bool := do
  if ← match_ .DESC then pure false
  else do
    if ← match_ .ASC then pure true
    else pure true

def parse_order_by_clause : ParserM OrderByClause := do
  let operand ← parse_aggregate_or_column
  let ascending ← parse_ascending
  pure ⟨operand, ascending⟩

def parse_order_by : ParserM (List OrderByClause) := do
  let _ ← expect .ORDER (bytes "ORDER BY")
  let _ ← expect .BY (bytes "ORDER BY")
  parse_list parse_order_by_clause

def parse_group_by : ParserM (List ColumnRef) := do
  let _ ← expect .GROUP (bytes "GROUP BY")
  let _ ← expect .BY (bytes "GROUP BY")
  parse_list parse_column_ref

def parse_limit : ParserM (Option UInt32) := do
  if ← match_ .LIMIT then do
    let n ← expect .INTEGER_LITERAL (bytes "LIMIT")
    let limit ← liftE (stoul n.value)
    pure (some limit.toUInt32)
  else pure none

/-! ### Conditions -/

section condition

variable {α : Type}

/-- `while (match(type))`: from the left. -/
def parse_left_chain (type : TokenType) (node : Formula α → Formula α → Formula α) (operand : ParserM (Formula α)) :
    ParserM (Formula α) := do
  let left ← operand
  repeat_while (match_ type) operand node left

def parse_not (compare : ParserM (Formula α)) : ParserM (Formula α) := do
  if ← match_ .NOT then do
    let operand ← compare
    pure (.not operand)
  else compare

/-- A comparison operator. -/
def parse_op (ops : List (TokenType × CompareOp)) (expected : Bytes) : ParserM CompareOp := do
  match ← match_any ops with
  | some entry => pure entry.2
  | none => error_msg expected

end condition

def having_ops : List (TokenType × CompareOp) := [(.EQ, .EQ), (.NEQ, .NEQ), (.LTE, .LTE), (.GTE, .GTE), (.LT, .LT), (.GT, .GT)]

def where_ops : List (TokenType × CompareOp) := having_ops ++ [(.LIKE, .LIKE)]

def parse_having_compare_expr : ParserM HavingExpr := do
  let operand ← parse_aggregate_or_column
  let op ← parse_op having_ops (bytes "comparison operator (=, !=, <, >, <=, >=) in HAVING")
  let value ← parse_value
  pure (.leaf ⟨operand, op, value⟩)

def parse_having_not_expr : ParserM HavingExpr := parse_not parse_having_compare_expr

def parse_having_and_expr : ParserM HavingExpr := parse_left_chain .AND .and parse_having_not_expr

def parse_having_or_expr : ParserM HavingExpr := parse_left_chain .OR .or parse_having_and_expr

def parse_having : ParserM HavingExpr := do
  let _ ← expect .HAVING (bytes "HAVING")
  parse_having_or_expr

section where_

variable {Q : Type} (parse_subquery : ParserM Q)

/-- Behind a comparison operator: a column or a literal. -/
def parse_rhs (column : ColumnRef) (op : CompareOp) : ParserM (CompareExpr Q) := do
  if ← check .IDENTIFIER then do
    let operand_column ← parse_column_ref
    pure ⟨column, op, .null, some operand_column, none⟩
  else do
    let operand ← parse_value
    pure ⟨column, op, operand, none, none⟩

/-- Behind `IS`. -/
def parse_is (column : ColumnRef) : ParserM (CompareExpr Q) := do
  if ← match_ .NOT then do
    let _ ← expect .NULL_KW (bytes "IS NOT NULL")
    pure ⟨column, .IS_NOT_NULL, .null, none, none⟩
  else do
    let _ ← expect .NULL_KW (bytes "IS NULL")
    pure ⟨column, .IS_NULL, .null, none, none⟩

/-- Behind the column. -/
def parse_comparison (column : ColumnRef) : ParserM (CompareExpr Q) := do
  if ← match_ .IS then parse_is column
  else do
    if ← match_ .NOT then do
      let _ ← expect .IN (bytes "NOT IN (...)")
      let subquery ← parse_subquery
      pure ⟨column, .NOT_IN_SUBQUERY, .null, none, some subquery⟩
    else do
      if ← match_ .IN then do
        let subquery ← parse_subquery
        pure ⟨column, .IN_SUBQUERY, .null, none, some subquery⟩
      else do
        let op ← parse_op where_ops (bytes "comparison operator (=, !=, <, >, <=, >=, IS, LIKE)")
        parse_rhs column op

def parse_compare_expr : ParserM (WhereExpr Q) := do
  if ← match_ .EXISTS then do
    let subquery ← parse_subquery
    pure (.leaf (.EXISTS subquery))
  else do
    let column ← parse_column_ref
    let compare ← parse_comparison parse_subquery column
    pure (.leaf (.COMPARE compare))

def parse_not_expr : ParserM (WhereExpr Q) := parse_not (parse_compare_expr parse_subquery)

def parse_and_expr : ParserM (WhereExpr Q) := parse_left_chain .AND .and (parse_not_expr parse_subquery)

def parse_or_expr : ParserM (WhereExpr Q) := parse_left_chain .OR .or (parse_and_expr parse_subquery)

def parse_where : ParserM (Option (WhereExpr Q)) := do
  if ← match_ .WHERE then do
    let expr ← parse_or_expr parse_subquery
    pure (some expr)
  else pure none

/-! ### SELECT -/

/-- A clause that is there if its first keyword is. -/
def parse_clause {α : Type} (type : TokenType) (parse : ParserM α) (default : α) : ParserM α := do
  if ← check type then parse
  else pure default

def is_join_type : List TokenType := [.INNER, .LEFT, .RIGHT, .JOIN]

def parse_select_body : ParserM (SelectStmt Q) := do
  let _ ← expect .SELECT (bytes "SELECT")
  let columns ← parse_select_columns
  let _ ← expect .FROM (bytes "SELECT")
  let table_name ← expect .IDENTIFIER (bytes "SELECT FROM")
  let table_alias ← parse_alias
  let joins ← repeat_while (check_any is_join_type) parse_join (fun joins join => joins ++ [join]) []
  let where_ ← parse_where parse_subquery
  let group_by ← parse_clause .GROUP parse_group_by []
  let having ← parse_clause .HAVING (do let having ← parse_having; pure (some having)) none
  let order_by ← parse_clause .ORDER parse_order_by []
  let limit ← parse_limit
  pure ⟨columns, table_name.value, table_alias, joins, where_, group_by, having, order_by, limit⟩

end where_

/-- The statement of a subquery. -/
inductive Subquery where
  | mk (stmt : SelectStmt Subquery)

def parse_subquery : ℕ → ParserM Subquery
  | 0 => throw .too_deep
  | depth + 1 => do
    let _ ← expect .LPAREN (bytes "subquery")
    if ← check .SELECT then do
      let stmt ← parse_select_body (parse_subquery depth)
      let _ ← expect .RPAREN (bytes "subquery")
      pure ⟨stmt⟩
    else
      -- the dash is three bytes
      error_msg (bytes "SELECT (value lists like IN (1, 2, 3) are not supported yet " ++ [0xE2, 0x80, 0x94] ++ bytes " use a subquery)")

/-- `parse_or_expr` of the tokens. -/
def parse_condition : ParserM (WhereExpr Subquery) := do
  let tokens ← get
  parse_or_expr (parse_subquery tokens.length)

end GSDBEngine
