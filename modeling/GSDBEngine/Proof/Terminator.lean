import GSDBEngine.Proof.Tokenizer

/-!
# The end of a statement

`has_terminator` against the tokenizer, over the same input.

* `terminator_skip`, `terminator_string`, `terminator_plain`: **what the tokenizer passes over, the splitter passes over**: blanks and
  comments, the text of a string, and what is in a word or a number.
* `terminator_token`: a step. At the start of a token the splitter is not in a string, and so it is behind it.
* `has_terminator_iff`: **the splitter finds a semicolon exactly where the tokenizer does**.
-/

namespace GSDBEngine

open Eff

variable {c : UInt8} {rest : Bytes} {place : Place} {cur next : Cursor} {t : Token}

/-! ### Steps of the splitter -/

theorem terminator_nil (in_string : Bool) : has_terminator_from in_string [] = false := by
  rw [has_terminator_from]

/-- Out of a string, a quote, a semicolon and two dashes are what it looks for. -/
theorem terminator_cons (hquote : c ≠ quote) (hsemicolon : c ≠ ch ';') (hcomment : ¬ (c = ch '-' ∧ rest.head? = some (ch '-'))) :
    has_terminator_from false (c :: rest) = has_terminator_from false rest := by
  rw [has_terminator_from, if_neg (by simpa using hcomment), if_neg (by simp [hquote]), if_neg (by simp), if_neg (by simp [hsemicolon])]

theorem terminator_semicolon (rest : Bytes) : has_terminator_from false (ch ';' :: rest) = true := by
  have hdash : ch ';' ≠ ch '-' := by decide
  have hquote : ch ';' ≠ quote := by decide
  rw [has_terminator_from, if_neg (by simp [hdash]), if_neg (by simp [hquote]), if_neg (by simp), if_pos (by simp)]

theorem terminator_comment (h : c = ch '-' ∧ rest.head? = some (ch '-')) :
    has_terminator_from false (c :: rest) = has_terminator_from false (behind_line (c :: rest)) := by
  rw [has_terminator_from, if_pos (by simpa using h)]

theorem terminator_open (rest : Bytes) : has_terminator_from false (quote :: rest) = has_terminator_from true rest := by
  have hdash : quote ≠ ch '-' := by decide
  rw [has_terminator_from, if_neg (by simp [hdash]), if_pos (by simp)]

theorem terminator_in_string (hquote : c ≠ quote) : has_terminator_from true (c :: rest) = has_terminator_from true rest := by
  rw [has_terminator_from, if_neg (by simp), if_neg (by simp), if_neg (by simp [hquote]), if_neg (by simp)]

theorem terminator_escaped (rest : Bytes) : has_terminator_from true (quote :: quote :: rest) = has_terminator_from true rest := by
  rw [has_terminator_from, if_neg (by simp), if_neg (by simp), if_pos (by simp), if_pos (by simp)]
  rfl

theorem terminator_close (h : rest.head? ≠ some quote) : has_terminator_from true (quote :: rest) = has_terminator_from false rest := by
  rw [has_terminator_from, if_neg (by simp), if_neg (by simp), if_pos (by simp), if_neg h]

/-! ### What is between the tokens -/

/-- The newline that the tokenizer leaves behind a comment makes no difference. -/
theorem terminator_behind : ∀ (rest : Bytes) (place : Place),
    has_terminator_from false (skip_comment rest place).rest = has_terminator_from false (behind_line rest)
  | [], _ => rfl
  | c :: rest, place => by
    have ih := terminator_behind rest (place.next c)
    unfold skip_comment behind_line
    by_cases hc : c = newline
    · subst hc
      rw [if_pos rfl, if_pos rfl]
      exact terminator_cons (by decide) (by decide) fun h => absurd h.1 (by decide)
    · rw [if_neg hc, if_neg hc]
      exact ih

theorem terminator_skip (rest : Bytes) (place : Place) :
    has_terminator_from false (skip_whitespace_and_comments rest place).rest = has_terminator_from false rest := by
  induction rest, place using skip_whitespace_and_comments.induct with
  | case1 place => rw [skip_whitespace_and_comments]
  | case2 place c rest hspace ih =>
    have hdash : c ≠ ch '-' := isspace_ne hspace (by decide)
    rw [skip_space hspace, ih]
    exact (terminator_cons (isspace_ne hspace (by decide)) (isspace_ne hspace (by decide)) fun h => hdash h.1).symm
  | case3 place c rest hspace hcomment ih =>
    rw [skip_whitespace_and_comments, if_neg hspace, if_pos hcomment, ih, terminator_comment hcomment]
    exact terminator_behind _ _
  | case4 place c rest hspace hcomment => rw [skip_whitespace_and_comments, if_neg hspace, if_neg hcomment]

/-- What is skipped to is no comment. -/
theorem skip_stops (rest : Bytes) (place : Place) : ∀ c behind, (skip_whitespace_and_comments rest place).rest = c :: behind →
    ¬ (c = ch '-' ∧ behind.head? = some (ch '-')) := by
  induction rest, place using skip_whitespace_and_comments.induct with
  | case1 place =>
    intro c behind h
    rw [skip_whitespace_and_comments] at h
    cases h
  | case2 place c rest hspace ih => rwa [skip_space hspace]
  | case3 place c rest hspace hcomment ih => rwa [skip_whitespace_and_comments, if_neg hspace, if_pos hcomment]
  | case4 place c rest hspace hcomment =>
    intro d behind h
    rw [skip_whitespace_and_comments, if_neg hspace, if_neg hcomment] at h
    obtain ⟨rfl, rfl⟩ := List.cons.inj h
    exact hcomment

/-! ### What is in a token -/

/-- The induction is that of the loop: an escaped quote is two characters. -/
theorem terminator_string {start : Place} : ∀ {rest : Bytes} {place : Place} {read : Bytes × Cursor},
    read_string_loop start rest place = .ok read → has_terminator_from true rest = has_terminator_from false read.2.rest
  | [], _, _, h => by cases h
  | c :: rest, place, read, h => by
    unfold read_string_loop at h
    by_cases hc : c = quote
    · subst hc
      rw [if_pos rfl] at h
      cases rest with
      | nil =>
        obtain rfl := Except.ok.inj h
        exact terminator_close (by simp)
      | cons q rest =>
        dsimp only at h
        by_cases hq : q = quote
        · subst hq
          rw [if_pos rfl] at h
          obtain ⟨read', hread, hok⟩ := except_bind_ok h
          have ih := terminator_string hread
          obtain rfl := Except.ok.inj hok
          rw [terminator_escaped, ih]
        · rw [if_neg hq] at h
          obtain rfl := Except.ok.inj h
          exact terminator_close fun heq => hq (Option.some.inj heq)
    · rw [if_neg hc] at h
      obtain ⟨read', hread, hok⟩ := except_bind_ok h
      have ih := terminator_string hread
      obtain rfl := Except.ok.inj hok
      rw [terminator_in_string hc, ih]

/-- A character of a word or a number. -/
theorem terminator_plain (h : isalnum c = true ∨ c = ch '_' ∨ c = ch '.') :
    has_terminator_from false (c :: rest) = has_terminator_from false rest := by
  have hplain : c ≠ quote ∧ c ≠ ch ';' ∧ c ≠ ch '-' := by
    refine ⟨?_, ?_, ?_⟩ <;> rintro rfl <;> exact absurd h (by decide)
  exact terminator_cons hplain.1 hplain.2.1 fun hcomment => hplain.2.2 hcomment.1

theorem terminator_word : ∀ (rest : Bytes) (place : Place),
    has_terminator_from false (read_word_loop rest place).2.rest = has_terminator_from false rest
  | [], _ => rfl
  | c :: rest, place => by
    have ih := terminator_word rest (place.next c)
    unfold read_word_loop
    by_cases hc : (isalnum c || c = ch '_') = true
    · rw [if_pos hc, terminator_plain]
      · exact ih
      · rcases (Bool.or_eq_true_iff ..).1 hc with hc | hc
        · exact .inl hc
        · exact .inr (.inl (of_decide_eq_true hc))
    · rw [if_neg hc]

theorem terminator_number : ∀ (rest : Bytes) (is_float : Bool) (place : Place),
    has_terminator_from false (read_number_loop is_float rest place).2.2.rest = has_terminator_from false rest
  | [], _, _ => rfl
  | c :: rest, is_float, place => by
    have ih := terminator_number rest (is_float || c = ch '.') (place.next c)
    unfold read_number_loop
    by_cases hc : (isdigit c || c = ch '.') = true
    · by_cases hdot : (c = ch '.' && is_float) = true
      · rw [if_pos hc, if_pos hdot]
      · rw [if_pos hc, if_neg hdot, terminator_plain]
        · exact ih
        · rcases (Bool.or_eq_true_iff ..).1 hc with hc | hc
          · left
            rw [isalnum, hc, Bool.or_true]
          · exact .inr (.inr (of_decide_eq_true hc))
    · rw [if_neg hc]

/-! ### A token -/

/-- Whether the splitter stops at a token. -/
def Terminated (t : Token) (cur next : Cursor) : Prop :=
  has_terminator_from false cur.rest = (decide (t.type = .SEMICOLON) || has_terminator_from false next.rest)

theorem ends_passed (ht : t.type ≠ .SEMICOLON) (h : has_terminator_from false next.rest = has_terminator_from false cur.rest) :
    Terminated t cur next := by
  rw [Terminated, decide_eq_false ht, Bool.false_or, h]

theorem keyword_not_semicolon (word : Bytes) : keyword_or_identifier word ≠ .SEMICOLON := by
  have hkeyword : ∀ k ∈ keywords, k.2 ≠ .SEMICOLON := by decide
  unfold keyword_or_identifier
  cases hlookup : keywords.lookup (word.map toupper) with
  | none => exact TokenType.noConfusion
  | some type => exact hkeyword _ (lookup_mem hlookup)

/-- A dash is not the first of two, where a token starts. -/
theorem terminator_operator {read : Token × Cursor} (hquote : c ≠ quote) (hcomment : ¬ (c = ch '-' ∧ rest.head? = some (ch '-')))
    (h : read_operator c rest place = .ok read) : Terminated read.1 ⟨c :: rest, place⟩ read.2 := by
  have hsingle : read_single_character c rest place = .ok read → Terminated read.1 ⟨c :: rest, place⟩ read.2 := by
    intro h
    unfold read_single_character at h
    split at h
    · cases h
    · rename_i type hlookup
      obtain rfl := Except.ok.inj h
      have hmem := lookup_mem hlookup
      by_cases hc : c = ch ';'
      · subst hc
        have htype : ∀ s ∈ single_character, s.1 = ch ';' → s.2 = .SEMICOLON := by decide
        rw [Terminated, terminator_semicolon, decide_eq_true (htype _ hmem rfl), Bool.true_or]
      · have htype : ∀ s ∈ single_character, s.2 = .SEMICOLON → s.1 = ch ';' := by decide
        exact ends_passed (fun heq => hc (htype _ hmem heq)) (terminator_cons hquote hc hcomment).symm
  unfold read_operator at h
  split at h
  · rename_i type d rest hlookup
    split at h
    · rename_i hd
      obtain rfl := Except.ok.inj h
      have hmem := lookup_mem hlookup
      have htype : ∀ s ∈ two_characters, s.2 ≠ .SEMICOLON ∧ s.1 ≠ ch ';' ∧ s.1 ≠ ch '-' := by decide
      obtain ⟨htype, hsemicolon, hdash⟩ := htype _ hmem
      subst hd
      refine ends_passed htype ?_
      -- the second character is `=`
      have hequals : has_terminator_from false (ch '=' :: rest) = has_terminator_from false rest :=
        terminator_cons (by decide) (by decide) fun h => absurd h.1 (by decide)
      rw [terminator_cons hquote hsemicolon fun h => hdash h.1, hequals]
    · exact hsingle h
  · exact hsingle h

/-- **A step**: behind a token the splitter is where the tokenizer is, unless the token is a semicolon. -/
theorem terminator_token (h : next_token cur = .ok (t, next)) : Terminated t cur next := by
  have hskip := terminator_skip cur.rest cur.place
  have hsolid : ∀ c rest, (skip_whitespace_and_comments cur.rest cur.place).rest = c :: rest →
      ¬ (c = ch '-' ∧ rest.head? = some (ch '-')) := skip_stops cur.rest cur.place
  suffices hends : Terminated t (skip_whitespace_and_comments cur.rest cur.place) next by
    rwa [Terminated, hskip] at hends
  unfold next_token at h
  generalize skip_whitespace_and_comments cur.rest cur.place = skipped at h hsolid
  obtain ⟨text, place⟩ := skipped
  dsimp only at h hsolid
  cases text with
  | nil =>
    obtain ⟨rfl, rfl⟩ := Prod.mk.inj (Except.ok.inj h)
    exact ends_passed TokenType.noConfusion rfl
  | cons c rest =>
    have hcomment := hsolid c rest rfl
    dsimp only at h
    by_cases hquote : c = quote
    · subst hquote
      rw [if_pos rfl] at h
      obtain ⟨read, hread, h⟩ := except_bind_ok h
      obtain ⟨rfl, rfl⟩ := Prod.mk.inj (Except.ok.inj h)
      exact ends_passed TokenType.noConfusion ((terminator_open rest).trans (terminator_string hread)).symm
    · rw [if_neg hquote] at h
      by_cases hdigit : isdigit c = true
      · rw [if_pos hdigit] at h
        obtain ⟨rfl, rfl⟩ := Prod.mk.inj (Except.ok.inj h)
        refine ends_passed ?_ (terminator_number (c :: rest) false _)
        dsimp only
        split <;> exact TokenType.noConfusion
      · rw [if_neg hdigit] at h
        by_cases hword : (isalpha c || c = ch '_') = true
        · rw [if_pos hword] at h
          obtain ⟨rfl, rfl⟩ := Prod.mk.inj (Except.ok.inj h)
          exact ends_passed (keyword_not_semicolon _) (terminator_word (c :: rest) _)
        · rw [if_neg hword] at h
          exact terminator_operator hquote hcomment h

/-! ### All of them -/

theorem terminator_tokens (cur : Cursor) : ∀ {read : List Token × Cursor}, tokenize_from cur = .ok read →
    has_terminator_from false cur.rest = read.1.any fun t => decide (t.type = .SEMICOLON) := by
  induction cur using tokenize_from.induct with
  | case1 cur e he =>
    intro read h
    rw [tokenize_from_eq, he] at h
    cases h
  | case2 cur read hread ht =>
    intro _ h
    rw [tokenize_from_eq, hread] at h
    have hok : pure ([read.1], read.2) = Except.ok _ := (if_pos ht).symm.trans h
    rw [← Except.ok.inj hok, terminator_token hread, next_token_end hread ht, terminator_nil]
    rfl
  | case3 cur read hread ht ih =>
    intro _ h
    rw [tokenize_from_eq, hread] at h
    have hok : (tokenize_from read.2 >>= fun rest => pure (read.1 :: rest.1, rest.2)) = Except.ok _ := (if_neg ht).symm.trans h
    obtain ⟨rest, hrest, hok⟩ := except_bind_ok hok
    rw [← Except.ok.inj hok, terminator_token hread, ih hrest]
    rfl

/-- **The splitter stops exactly if there is a semicolon among the tokens.** -/
theorem has_terminator_iff {input : Bytes} {tokens : List Token} (h : tokenize input = .ok tokens) :
    has_terminator input = true ↔ ∃ t ∈ tokens, t.type = .SEMICOLON := by
  obtain ⟨read, hread, rfl⟩ : ∃ read, tokenize_input input = .ok read ∧ read.1 = tokens := by
    unfold tokenize at h
    cases hinput : tokenize_input input with
    | error e =>
      rw [hinput] at h
      cases h
    | ok read =>
      rw [hinput] at h
      exact ⟨read, rfl, Except.ok.inj h⟩
  have hall : has_terminator input = read.1.any fun t => decide (t.type = .SEMICOLON) := terminator_tokens _ hread
  rw [hall, List.any_eq_true]
  refine exists_congr fun t => and_congr_right fun _ => ?_
  exact decide_eq_true_iff

/-- A semicolon in a string, one in a comment, and one behind them. -/
theorem third_semicolon : has_terminator ("'a;'''--'b;\n;".toList.map ch) = true ↔
    ∃ t ∈ [⟨.STRING_LITERAL, "a;'".toList.map ch, 1, 2⟩, ⟨.SEMICOLON, [ch ';'], 2, 1⟩, ⟨.END_OF_FILE, [], 2, 2⟩], Token.type t = .SEMICOLON :=
  has_terminator_iff (by decide +kernel)

end GSDBEngine
