import GSDBEngine.Lib.Eff
import GSDBEngine.Spec.Value

/-!
# The tokenizer

`tokenizer.cpp`: the characters of a statement as tokens. A cursor is what is left of the input, with the place for error
messages.

* `next_token`: a token, behind whitespace and comments. `tokenize`: all of them.
* `Lexeme`, `Gap`, `print`: **what tokens are written as**, and what may stand between them.
* `has_terminator`: `main.cpp`, which looks for the end of a statement with a scanner of its own.
-/

namespace GSDBEngine

inductive TokenType where
  | SELECT | FROM | WHERE | INSERT | INTO | VALUES
  | UPDATE | SET | DELETE | CREATE | TABLE | DROP
  | USE | SHOW | DATABASES | DATABASE | TABLES | DESCRIBE
  | INDEX | UNIQUE
  | AND | OR | NOT | NULL_KW
  | IS | LIKE | ORDER | BY | ASC | DESC | GROUP | HAVING
  | LIMIT | JOIN | INNER | LEFT | RIGHT | ON
  | PRIMARY | KEY | AUTO_INCREMENT | CHECK | COUNT | MAX | MIN | AVG | MEDIAN | IN | EXISTS | DEFAULT
  | FOREIGN | REFERENCES | CASCADE | RESTRICT
  | INT_KW | FLOAT_KW | BOOLEAN_KW | VARCHAR_KW
  | TRUE_KW | FALSE_KW
  | INTEGER_LITERAL
  | FLOAT_LITERAL
  | STRING_LITERAL
  | IDENTIFIER
  | LPAREN | RPAREN | COMMA | SEMICOLON | STAR | DOT
  | EQ | NEQ | LT | GT | LTE | GTE | PLUS | MINUS
  | END_OF_FILE
  deriving DecidableEq

/-- `value` is the text, without the quotes. -/
structure Token where
  type : TokenType
  value : Bytes
  line : ℕ
  col : ℕ
  deriving DecidableEq

/-! ### Characters -/

/-- The byte of a character. -/
def ch (c : Char) : UInt8 := UInt8.ofNat c.toNat

def newline : UInt8 := 10

def quote : UInt8 := 39

def isspace (c : UInt8) : Bool := c.toNat = 32 || 9 ≤ c.toNat && c.toNat ≤ 13

def isdigit (c : UInt8) : Bool := 48 ≤ c.toNat && c.toNat ≤ 57

def isalpha (c : UInt8) : Bool := 65 ≤ c.toNat && c.toNat ≤ 90 || 97 ≤ c.toNat && c.toNat ≤ 122

def isalnum (c : UInt8) : Bool := isalpha c || isdigit c

def toupper (c : UInt8) : UInt8 := if 97 ≤ c.toNat && c.toNat ≤ 122 then c - 32 else c

/-! ### The cursor -/

/-- The place of the next character. -/
structure Place where
  line : ℕ
  col : ℕ
  deriving DecidableEq

def Place.next (place : Place) (c : UInt8) : Place := if c = newline then ⟨place.line + 1, 1⟩ else ⟨place.line, place.col + 1⟩

/-- A character is put back. -/
def Place.back (place : Place) : Place := ⟨place.line, place.col - 1⟩

/-- As it is printed. -/
def Place.what (place : Place) : Bytes :=
  " at line ".toList.map ch ++ (Nat.toDigits 10 place.line).map ch ++ " col ".toList.map ch ++ (Nat.toDigits 10 place.col).map ch

/-- The input from `pos_` on. -/
structure Cursor where
  rest : Bytes
  place : Place
  deriving DecidableEq

inductive TokenizerErr where
  | unterminated (start : Place)
  | unknown_character (c : UInt8) (start : Place)
  deriving DecidableEq

/-- The message. -/
def TokenizerErr.what : TokenizerErr → Bytes
  | unterminated start => "Tokenizer: unterminated string literal".toList.map ch ++ start.what
  | unknown_character c start => "Tokenizer: unknown character '".toList.map ch ++ c :: quote :: start.what

/-- To the end of the line. -/
def skip_comment : Bytes → Place → Cursor
  | [], place => ⟨[], place⟩
  | c :: rest, place => if c = newline then ⟨c :: rest, place⟩ else skip_comment rest (place.next c)

theorem skip_comment_le : ∀ {rest : Bytes} {place : Place}, (skip_comment rest place).rest.length ≤ rest.length
  | [], _ => Nat.le_refl _
  | c :: rest, place => by
    have ih := @skip_comment_le rest (place.next c)
    unfold skip_comment
    split
    · exact Nat.le_refl _
    · exact Nat.le_succ_of_le ih

theorem skip_comment_lt {c : UInt8} {rest : Bytes} {place : Place} (h : c = ch '-') :
    (skip_comment (c :: rest) place).rest.length < (c :: rest).length := by
  have hc : c ≠ newline := by
    rw [h]
    decide
  unfold skip_comment
  rw [if_neg hc]
  exact Nat.lt_succ_of_le skip_comment_le

def skip_whitespace_and_comments (rest : Bytes) (place : Place) : Cursor :=
  match rest with
  | [] => ⟨[], place⟩
  | c :: rest =>
    if isspace c then skip_whitespace_and_comments rest (place.next c)
    else if c = ch '-' ∧ rest.head? = some (ch '-') then
      skip_whitespace_and_comments (skip_comment (c :: rest) place).rest (skip_comment (c :: rest) place).place
    else ⟨c :: rest, place⟩
termination_by rest.length
decreasing_by
  · exact Nat.lt_succ_self _
  · rename_i h
    exact skip_comment_lt h.1

/-! ### Tokens -/

/-- A quote that is not the first of two ends the string. -/
def read_string_loop (start : Place) : Bytes → Place → Except TokenizerErr (Bytes × Cursor)
  | [], _ => throw (.unterminated start)
  | c :: rest, place =>
    if c = quote then
      match rest with
      | [] => pure ([], ⟨[], place.next c⟩)
      | q :: rest =>
        if q = quote then do
          let read ← read_string_loop start rest ((place.next c).next q)
          pure (quote :: read.1, read.2)
        else pure ([], ⟨q :: rest, place.next c⟩)
    else do
      let read ← read_string_loop start rest (place.next c)
      pure (c :: read.1, read.2)

/-- Behind the opening quote. -/
def read_string_literal (rest : Bytes) (start : Place) : Except TokenizerErr (Token × Cursor) := do
  let read ← read_string_loop start rest start
  pure (⟨.STRING_LITERAL, read.1, start.line, start.col⟩, read.2)

/-- Digits and a dot, up to a second one. -/
def read_number_loop (is_float : Bool) : Bytes → Place → Bytes × Bool × Cursor
  | [], place => ([], is_float, ⟨[], place⟩)
  | c :: rest, place =>
    if isdigit c || c = ch '.' then
      if c = ch '.' && is_float then ([], is_float, ⟨c :: rest, place⟩)
      else
        let read := read_number_loop (is_float || c = ch '.') rest (place.next c)
        (c :: read.1, read.2)
    else ([], is_float, ⟨c :: rest, place⟩)

def read_number (rest : Bytes) (start : Place) : Token × Cursor :=
  let read := read_number_loop false rest start
  (⟨if read.2.1 then .FLOAT_LITERAL else .INTEGER_LITERAL, read.1, start.line, start.col⟩, read.2.2)

/-- By their upper-case text. -/
def keywords : List (Bytes × TokenType) :=
  [("SELECT", .SELECT), ("FROM", .FROM), ("WHERE", .WHERE), ("INSERT", .INSERT), ("INTO", .INTO), ("VALUES", .VALUES),
    ("UPDATE", .UPDATE), ("SET", .SET), ("DELETE", .DELETE), ("CREATE", .CREATE), ("TABLE", .TABLE), ("DROP", .DROP),
    ("USE", .USE), ("SHOW", .SHOW), ("DATABASES", .DATABASES), ("DATABASE", .DATABASE), ("TABLES", .TABLES),
    ("DESCRIBE", .DESCRIBE), ("INDEX", .INDEX), ("UNIQUE", .UNIQUE), ("AND", .AND), ("OR", .OR), ("NOT", .NOT),
    ("NULL", .NULL_KW), ("IS", .IS), ("LIKE", .LIKE), ("ORDER", .ORDER), ("BY", .BY), ("GROUP", .GROUP),
    ("HAVING", .HAVING), ("ASC", .ASC), ("DESC", .DESC), ("LIMIT", .LIMIT), ("JOIN", .JOIN), ("INNER", .INNER),
    ("LEFT", .LEFT), ("RIGHT", .RIGHT), ("ON", .ON), ("PRIMARY", .PRIMARY), ("KEY", .KEY),
    ("AUTO_INCREMENT", .AUTO_INCREMENT), ("CHECK", .CHECK), ("COUNT", .COUNT), ("MAX", .MAX), ("MIN", .MIN), ("AVG", .AVG),
    ("MEDIAN", .MEDIAN), ("IN", .IN), ("EXISTS", .EXISTS), ("DEFAULT", .DEFAULT), ("FOREIGN", .FOREIGN),
    ("REFERENCES", .REFERENCES), ("CASCADE", .CASCADE), ("RESTRICT", .RESTRICT), ("INT", .INT_KW), ("FLOAT", .FLOAT_KW),
    ("BOOLEAN", .BOOLEAN_KW), ("VARCHAR", .VARCHAR_KW), ("TRUE", .TRUE_KW), ("FALSE", .FALSE_KW)].map fun k =>
    (k.1.toList.map ch, k.2)

def keyword_or_identifier (word : Bytes) : TokenType := (keywords.lookup (word.map toupper)).getD .IDENTIFIER

def read_word_loop : Bytes → Place → Bytes × Cursor
  | [], place => ([], ⟨[], place⟩)
  | c :: rest, place =>
    if isalnum c || c = ch '_' then
      let read := read_word_loop rest (place.next c)
      (c :: read.1, read.2)
    else ([], ⟨c :: rest, place⟩)

def read_identifier_or_keyword (rest : Bytes) (start : Place) : Token × Cursor :=
  let read := read_word_loop rest start
  (⟨keyword_or_identifier read.1, read.1, start.line, start.col⟩, read.2)

/-- The operators of one character. -/
def single_character : List (UInt8 × TokenType) :=
  [(ch '=', .EQ), (ch '<', .LT), (ch '>', .GT), (ch '+', .PLUS), (ch '-', .MINUS), (ch '(', .LPAREN), (ch ')', .RPAREN),
    (ch ',', .COMMA), (ch ';', .SEMICOLON), (ch '*', .STAR), (ch '.', .DOT)]

/-- The operators of two: the second one is `=`. -/
def two_characters : List (UInt8 × TokenType) := [(ch '!', .NEQ), (ch '<', .LTE), (ch '>', .GTE)]

def read_single_character (first : UInt8) (rest : Bytes) (place : Place) : Except TokenizerErr (Token × Cursor) :=
  match single_character.lookup first with
  | none => throw (.unknown_character first place.back)
  | some type => pure (⟨type, [first], place.back.line, place.back.col⟩, ⟨rest, place⟩)

/-- Behind `first`. -/
def read_operator (first : UInt8) (rest : Bytes) (place : Place) : Except TokenizerErr (Token × Cursor) :=
  match two_characters.lookup first, rest with
  | some type, c :: rest' =>
    if c = ch '=' then pure (⟨type, [first, c], place.back.line, place.back.col⟩, ⟨rest', place.next c⟩)
    else read_single_character first rest place
  | _, _ => read_single_character first rest place

def next_token (cur : Cursor) : Except TokenizerErr (Token × Cursor) :=
  let cur := skip_whitespace_and_comments cur.rest cur.place
  match cur.rest with
  | [] => pure (⟨.END_OF_FILE, [], cur.place.line, cur.place.col⟩, cur)
  | c :: rest =>
    let place := cur.place.next c
    if c = quote then read_string_literal rest place
    -- the character is put back
    else if isdigit c then pure (read_number (c :: rest) place.back)
    else if isalpha c || c = ch '_' then pure (read_identifier_or_keyword (c :: rest) place.back)
    else read_operator c rest place

/-! ### All of them -/

theorem skip_le {rest : Bytes} {place : Place} : (skip_whitespace_and_comments rest place).rest.length ≤ rest.length := by
  induction rest, place using skip_whitespace_and_comments.induct with
  | case1 place =>
    rw [skip_whitespace_and_comments]
  | case2 place c rest hspace ih =>
    rw [skip_whitespace_and_comments, if_pos hspace]
    exact Nat.le_succ_of_le ih
  | case3 place c rest hspace hcomment ih =>
    rw [skip_whitespace_and_comments, if_neg hspace, if_pos hcomment]
    exact ih.trans (skip_comment_lt hcomment.1).le
  | case4 place c rest hspace hcomment =>
    rw [skip_whitespace_and_comments, if_neg hspace, if_neg hcomment]

theorem read_string_le {start : Place} : ∀ {rest : Bytes} {place : Place} {read : Bytes × Cursor},
    read_string_loop start rest place = .ok read → read.2.rest.length ≤ rest.length
  | [], _, _, h => by cases h
  | c :: rest, place, read, h => by
    unfold read_string_loop at h
    split at h
    · split at h
      · obtain rfl := Except.ok.inj h
        exact Nat.zero_le _
      · rename_i q rest
        split at h
        · obtain ⟨read', hread, hok⟩ := Eff.except_bind_ok h
          obtain rfl := Except.ok.inj hok
          exact (read_string_le hread).trans (by simp only [List.length_cons]; omega)
        · obtain rfl := Except.ok.inj h
          exact Nat.le_succ _
    · obtain ⟨read', hread, hok⟩ := Eff.except_bind_ok h
      obtain rfl := Except.ok.inj hok
      have ih := read_string_le hread
      exact Nat.le_succ_of_le ih

theorem read_number_le : ∀ {is_float : Bool} {rest : Bytes} {place : Place},
    (read_number_loop is_float rest place).2.2.rest.length ≤ rest.length
  | _, [], _ => Nat.le_refl _
  | is_float, c :: rest, place => by
    have ih := @read_number_le (is_float || c = ch '.') rest (place.next c)
    unfold read_number_loop
    split
    · split
      · exact Nat.le_refl _
      · exact Nat.le_succ_of_le ih
    · exact Nat.le_refl _

theorem read_word_le : ∀ {rest : Bytes} {place : Place}, (read_word_loop rest place).2.rest.length ≤ rest.length
  | [], _ => Nat.le_refl _
  | c :: rest, place => by
    have ih := @read_word_le rest (place.next c)
    unfold read_word_loop
    split
    · exact Nat.le_succ_of_le ih
    · exact Nat.le_refl _

/-- What is read of a number is not nothing. -/
theorem read_number_lt {c : UInt8} {rest : Bytes} {place : Place} (h : isdigit c = true) :
    (read_number_loop false (c :: rest) place).2.2.rest.length < (c :: rest).length := by
  unfold read_number_loop
  rw [if_pos (by rw [h, Bool.true_or]), if_neg (by rw [Bool.and_false]; decide)]
  exact Nat.lt_succ_of_le read_number_le

theorem read_word_lt {c : UInt8} {rest : Bytes} {place : Place} (h : (isalnum c || c = ch '_') = true) :
    (read_word_loop (c :: rest) place).2.rest.length < (c :: rest).length := by
  unfold read_word_loop
  rw [if_pos h]
  exact Nat.lt_succ_of_le read_word_le

theorem read_single_lt {first : UInt8} {rest : Bytes} {place : Place} {read : Token × Cursor}
    (h : read_single_character first rest place = .ok read) : read.2.rest.length < (first :: rest).length := by
  unfold read_single_character at h
  split at h
  · cases h
  · obtain rfl := Except.ok.inj h
    exact Nat.lt_succ_self _

theorem read_operator_lt {first : UInt8} {rest : Bytes} {place : Place} {read : Token × Cursor}
    (h : read_operator first rest place = .ok read) : read.2.rest.length < (first :: rest).length := by
  unfold read_operator at h
  split at h
  · split at h
    · obtain rfl := Except.ok.inj h
      simp only [List.length_cons]
      omega
    · exact read_single_lt h
  · exact read_single_lt h

/-- Every token but the last takes a character. -/
theorem next_token_lt {cur : Cursor} {read : Token × Cursor} (h : next_token cur = .ok read) (ht : read.1.type ≠ .END_OF_FILE) :
    read.2.rest.length < cur.rest.length := by
  have hskip : (skip_whitespace_and_comments cur.rest cur.place).rest.length ≤ cur.rest.length := skip_le
  refine lt_of_lt_of_le ?_ hskip
  unfold next_token at h
  dsimp only at h
  split at h
  · obtain rfl := Except.ok.inj h
    exact absurd rfl ht
  · rename_i c rest hrest
    rw [hrest]
    split at h
    · obtain ⟨value, hvalue, h⟩ := Eff.except_bind_ok h
      obtain rfl := Except.ok.inj h
      exact Nat.lt_succ_of_le (read_string_le hvalue)
    · split at h
      · rename_i hdigit
        obtain rfl := Except.ok.inj h
        exact read_number_lt hdigit
      · split at h
        · rename_i hword
          obtain rfl := Except.ok.inj h
          refine read_word_lt ?_
          rcases (Bool.or_eq_true_iff ..).1 hword with h | h
          · rw [isalnum, h]
            rfl
          · rw [h, Bool.or_true]
        · exact read_operator_lt h

def tokenize_from (cur : Cursor) : Except TokenizerErr (List Token × Cursor) :=
  match _h : next_token cur with
  | .error e => throw e
  | .ok read =>
    if read.1.type = .END_OF_FILE then pure ([read.1], read.2)
    else do
      let rest ← tokenize_from read.2
      pure (read.1 :: rest.1, rest.2)
termination_by cur.rest.length
decreasing_by
  rename_i ht
  exact next_token_lt _h ht

/-- The tokens, and what is left of the input. -/
def tokenize_input (input : Bytes) : Except TokenizerErr (List Token × Cursor) := tokenize_from ⟨input, ⟨1, 1⟩⟩

def tokenize (input : Bytes) : Except TokenizerErr (List Token) := (tokenize_input input).map Prod.fst

/-! ### What is written -/

/-- The first character of a word, and the others. -/
def IsWord (word : Bytes) : Prop :=
  (∀ c ∈ word, isalnum c = true ∨ c = ch '_') ∧ ∃ c ∈ word.head?, isalpha c = true ∨ c = ch '_'

/-- The operators and punctuation. -/
def symbols : List (Bytes × TokenType) :=
  single_character.map (fun s => ([s.1], s.2)) ++ two_characters.map fun s => ([s.1, ch '='], s.2)

/-- **A token to be written.** -/
inductive Lexeme where
  /-- in any letter case -/
  | keyword (k : Bytes × TokenType) (listed : k ∈ keywords) (word : Bytes) (spelled : word.map toupper = k.1)
  | identifier (word : Bytes) (is_word : IsWord word) (free : ∀ k ∈ keywords, word.map toupper ≠ k.1)
  | integer (digits : Bytes) (nonempty : digits ≠ []) (decimal : ∀ c ∈ digits, isdigit c = true)
  /-- there may be no digits behind the dot -/
  | float (whole fraction : Bytes) (nonempty : whole ≠ []) (decimal : ∀ c ∈ whole ++ fraction, isdigit c = true)
  /-- any bytes -/
  | string (value : Bytes)
  | symbol (s : Bytes × TokenType) (listed : s ∈ symbols)

namespace Lexeme

def type : Lexeme → TokenType
  | keyword k _ _ _ => k.2
  | identifier _ _ _ => .IDENTIFIER
  | integer _ _ _ => .INTEGER_LITERAL
  | float _ _ _ _ => .FLOAT_LITERAL
  | string _ => .STRING_LITERAL
  | symbol s _ => s.2

def value : Lexeme → Bytes
  | keyword _ _ word _ => word
  | identifier word _ _ => word
  | integer digits _ _ => digits
  | float whole fraction _ _ => whole ++ ch '.' :: fraction
  | string value => value
  | symbol s _ => s.1

/-- A quote in a string is written twice. -/
def text : Lexeme → Bytes
  | string value => quote :: (value.flatMap fun c => if c = quote then [quote, quote] else [c]) ++ [quote]
  | l => l.value

end Lexeme

/-- `-- text`, to the end of the line. -/
structure Comment where
  text : Bytes
  one_line : newline ∉ text

def Comment.line (comment : Comment) : Bytes := ch '-' :: ch '-' :: comment.text ++ [newline]

/-- Whitespace, and comments behind it. -/
structure Gap where
  spaces : Bytes
  blank : ∀ c ∈ spaces, isspace c = true
  nonempty : spaces ≠ []
  comments : List Comment

def Gap.text (gap : Gap) : Bytes := gap.spaces ++ gap.comments.flatMap Comment.line

/-- **A text of tokens**, with a gap between any two. -/
def print : List Lexeme → (ℕ → Gap) → Bytes
  | [], _ => []
  | [l], _ => l.text
  | l :: l' :: ls, gaps => l.text ++ (gaps 0).text ++ print (l' :: ls) fun n => gaps (n + 1)

/-! ### The end of a statement -/

/-- `while (i < input.size() && input[i] != '\n') ++i`, and the `++i` of the loop around it. -/
def behind_line : Bytes → Bytes
  | [] => []
  | c :: rest => if c = newline then rest else behind_line rest

theorem behind_line_le : ∀ (rest : Bytes), (behind_line rest).length ≤ rest.length
  | [] => Nat.le_refl _
  | c :: rest => by
    have ih := behind_line_le rest
    unfold behind_line
    split
    · exact Nat.le_succ _
    · exact Nat.le_succ_of_le ih

theorem behind_line_lt (c : UInt8) (rest : Bytes) : (behind_line (c :: rest)).length < (c :: rest).length := by
  have hle := behind_line_le rest
  unfold behind_line
  split
  · exact Nat.lt_succ_self _
  · exact Nat.lt_succ_of_le hle

/-- The loop, from `input[i]` on. -/
def has_terminator_from (in_string : Bool) (input : Bytes) : Bool :=
  match input with
  | [] => false
  | c :: rest =>
    if !in_string && c = ch '-' && rest.head? = some (ch '-') then has_terminator_from in_string (behind_line (c :: rest))
    else if c = quote && !in_string then has_terminator_from true rest
    else if c = quote && in_string then
      -- an escaped quote: the second one is skipped
      if rest.head? = some quote then has_terminator_from in_string rest.tail
      else has_terminator_from false rest
    else if c = ch ';' && !in_string then true
    else has_terminator_from in_string rest
termination_by input.length
decreasing_by
  · exact behind_line_lt c rest
  · exact Nat.lt_succ_self _
  · exact Nat.lt_succ_of_le ((List.length_tail (l := rest)).le.trans (Nat.sub_le _ _))
  · exact Nat.lt_succ_self _
  · exact Nat.lt_succ_self _

def has_terminator (input : Bytes) : Bool := has_terminator_from false input

end GSDBEngine
