import GSDBEngine.Spec.Parser

/-!
# A column of CREATE TABLE

`parser.cpp`: the name and the type of a column, and its constraints in any order.

* `parse_column_type`: the type, with the length of a VARCHAR. `parse_column_def`: the column.
* `numeral`: **the number that digits stand for**. `Numerals`: what the parser is to make of them.
-/

namespace GSDBEngine

open Eff

section column

variable {Q : Type} (parse_subquery : ParserM Q)

/-- The name of the type, and `varchar_len`. -/
def parse_column_type : ParserM (Bytes × UInt32) := do
  if ← match_ .INT_KW then pure (bytes "INT", 0)
  else do
    if ← match_ .FLOAT_KW then pure (bytes "FLOAT", 0)
    else do
      if ← match_ .BOOLEAN_KW then pure (bytes "BOOLEAN", 0)
      else do
        if ← match_ .VARCHAR_KW then do
          let _ ← expect .LPAREN (bytes "VARCHAR(n)")
          let n ← expect .INTEGER_LITERAL (bytes "VARCHAR length")
          let len ← liftE (stoul n.value)
          let _ ← expect .RPAREN (bytes "VARCHAR(n)")
          pure (bytes "VARCHAR", len.toUInt32)
        else error_msg (bytes "column type (INT, FLOAT, BOOLEAN, VARCHAR)")

/-- `check(first) && tokens_[pos_ + 1].type == second` -/
def check_pair (first second : TokenType) : ParserM Bool := do
  let tokens ← get
  pure (decide ((tokens.map Token.type).take 2 = [first, second]))

/-- Both tokens of a pair. -/
def advance_pair : ParserM Unit := do
  let _ ← advance
  let _ ← advance
  pure ()

def parse_references (col : ColumnDef Q) : ParserM (ColumnDef Q) := do
  let fk_ref_table ← expect .IDENTIFIER (bytes "REFERENCES table name")
  let _ ← expect .LPAREN (bytes "REFERENCES parent(column)")
  let fk_ref_column ← expect .IDENTIFIER (bytes "REFERENCES column name")
  let _ ← expect .RPAREN (bytes "REFERENCES parent(column)")
  pure { col with fk_ref_table := fk_ref_table.value, fk_ref_column := fk_ref_column.value }

theorem null_of_no_default {v : Value} (h : true = false) : v = .null := absurd h.symm Bool.false_ne_true

/-- One constraint, if there is one. -/
def parse_constraint (col : ColumnDef Q) : ParserM (Option (ColumnDef Q)) := do
  if ← check_pair .PRIMARY .KEY then do
    advance_pair
    pure (some { col with is_primary_key := true, is_nullable := false })
  else do
    if ← match_ .AUTO_INCREMENT then pure (some { col with auto_increment := true })
    else do
      if ← match_ .UNIQUE then pure (some { col with is_unique := true })
      else do
        if ← match_ .DEFAULT then do
          let value ← parse_value
          pure (some { col with has_default := true, default_value := value, no_default := null_of_no_default })
        else do
          if ← check_pair .NOT .NULL_KW then do
            advance_pair
            pure (some { col with is_nullable := false })
          else do
            if ← match_ .CHECK then do
              let _ ← expect .LPAREN (bytes "CHECK (...)")
              let expr ← parse_or_expr parse_subquery
              let _ ← expect .RPAREN (bytes "CHECK (...)")
              pure (some { col with check := some expr })
            else do
              if ← match_ .REFERENCES then do
                let col ← parse_references col
                pure (some col)
              else pure none

/-- `while (parsing_constraints)`: each takes a token. -/
def parse_constraints : ℕ → ColumnDef Q → ParserM (ColumnDef Q)
  | 0, col => pure col
  | n + 1, col => do
    match ← parse_constraint parse_subquery col with
    | some col => parse_constraints n col
    | none => pure col

def parse_column_def : ParserM (ColumnDef Q) := do
  let name ← expect .IDENTIFIER (bytes "column definition name")
  let type ← parse_column_type
  let tokens ← get
  parse_constraints parse_subquery tokens.length
    { name := name.value, type_name := type.1, varchar_len := type.2, is_primary_key := false, is_nullable := true,
      auto_increment := false, is_unique := false, has_default := false, default_value := .null, no_default := fun _ => rfl,
      check := none, fk_ref_table := [], fk_ref_column := [] }

end column

/-! ### Numerals -/

/-- The number that decimal digits stand for. -/
def numeral : Bytes → ℕ
  | [] => 0
  | c :: d => (c.toNat - 48) * 10 ^ d.length + numeral d

/-- A string of digits. -/
def Digits (d : Bytes) : Prop := d ≠ [] ∧ ∀ c ∈ d, isdigit c = true

/-- **The number that is stored is the one that is written**, for digits and for an integer. -/
structure Numerals (Q : Type) (d : Bytes) (v : Int32) : Prop where
  limit : ∀ (keyword n : Token) (behind : List Token), keyword.type = .LIMIT → n.type = .INTEGER_LITERAL → n.value = d →
    ∀ limit rest, parse_limit (keyword :: n :: behind) = .ok limit rest → ∃ m : UInt32, limit = some m ∧ m.toNat = numeral d
  varchar : ∀ (parse_subquery : ParserM Q) (name type lparen n : Token) (behind : List Token), type.type = .VARCHAR_KW →
    n.type = .INTEGER_LITERAL → n.value = d → ∀ col rest,
      parse_column_def parse_subquery (name :: type :: lparen :: n :: behind) = .ok col rest → col.varchar_len.toNat = numeral d
  value : ∀ (n : Token) (behind : List Token), n.type = .INTEGER_LITERAL → n.value = d → ∀ v rest,
    parse_value (n :: behind) = .ok v rest → ∃ m : Int32, v = .int m ∧ m.toInt = numeral d
  negative : ∀ (minus n : Token) (behind : List Token), minus.type = .MINUS → n.type = .INTEGER_LITERAL → n.value = d → ∀ v rest,
    parse_value (minus :: n :: behind) = .ok v rest → ∃ m : Int32, v = .int m ∧ m.toInt = -numeral d
  /-- an integer is printed as its magnitude, behind a minus if it is negative -/
  printed : ∀ (minus n : Token) (behind : List Token), minus.type = .MINUS → n.type = .INTEGER_LITERAL → n.value = digits v.toInt.natAbs →
    parse_value (if v < 0 then minus :: n :: behind else n :: behind) = .ok (.int v) behind

end GSDBEngine
