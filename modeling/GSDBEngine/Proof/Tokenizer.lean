import GSDBEngine.Spec.Tokenizer

/-!
# Tokens that are read back

A token is read up to a character that it cannot have; whitespace is one for each of them. The gap behind it is skipped before the
next.

* `skip_gap`, `next_token_text`: **a gap, and a token with whitespace or nothing behind it.**
* `tokenize_print`: **the tokens of a printed text are those that were printed**, and what is tokenized is the whole input.
-/

namespace GSDBEngine

open Eff

variable {rest tail : Bytes} {place : Place} {c : UInt8}

/-! ### Characters -/

theorem isspace_not_word (h : isspace c = true) : (isalnum c || c = ch '_') = false := by
  have hc : c.toNat = 32 ∨ 9 ≤ c.toNat ∧ c.toNat ≤ 13 := by simpa [isspace] using h
  have hne : c ≠ ch '_' := by
    rintro rfl
    revert hc
    decide
  simp only [isalnum, isalpha, isdigit, hne, decide_false, Bool.or_false, Bool.or_eq_false_iff, Bool.and_eq_false_iff, decide_eq_false_iff_not]
  omega

theorem isspace_not_digit (h : isspace c = true) : isdigit c = false := by
  have hword := isspace_not_word h
  rw [isalnum, Bool.or_eq_false_iff, Bool.or_eq_false_iff] at hword
  exact hword.1.2

theorem isspace_ne {d : UInt8} (h : isspace c = true) (hd : isspace d = false) : c ≠ d := by
  rintro rfl
  rw [h] at hd
  cases hd

/-- What the characters of a word are not. -/
theorem word_character (h : isalpha c = true ∨ c = ch '_') : isspace c = false ∧ c ≠ ch '-' ∧ c ≠ quote ∧ isdigit c = false := by
  rcases h with h | rfl
  · have hc : 65 ≤ c.toNat ∧ c.toNat ≤ 90 ∨ 97 ≤ c.toNat ∧ c.toNat ≤ 122 := by simpa [isalpha] using h
    refine ⟨?_, ?_, ?_, ?_⟩
    · simp only [isspace, Bool.or_eq_false_iff, Bool.and_eq_false_iff, decide_eq_false_iff_not]
      omega
    · rintro rfl
      revert hc
      decide
    · rintro rfl
      revert hc
      decide
    · simp only [isdigit, Bool.and_eq_false_iff, decide_eq_false_iff_not]
      omega
  · decide

theorem digit_character (h : isdigit c = true) : isspace c = false ∧ c ≠ ch '-' ∧ c ≠ quote ∧ c ≠ ch '.' := by
  have hc : 48 ≤ c.toNat ∧ c.toNat ≤ 57 := by simpa [isdigit] using h
  refine ⟨?_, ?_, ?_, ?_⟩
  · simp only [isspace, Bool.or_eq_false_iff, Bool.and_eq_false_iff, decide_eq_false_iff_not]
    omega
  · rintro rfl
    revert hc
    decide
  · rintro rfl
    revert hc
    decide
  · rintro rfl
    revert hc
    decide

/-- Upper case is that of a character of a word. -/
theorem toupper_word (h : isalpha (toupper c) = true ∨ toupper c = ch '_') : isalpha c = true ∨ c = ch '_' := by
  unfold toupper at h
  split at h
  · rename_i hc
    left
    have hc : 97 ≤ c.toNat ∧ c.toNat ≤ 122 := by simpa using hc
    simp only [isalpha, Bool.or_eq_true, Bool.and_eq_true, decide_eq_true_eq]
    omega
  · exact h

/-! ### Gaps -/

/-- Nothing to skip. -/
def Solid (rest : Bytes) : Prop := ∀ place, skip_whitespace_and_comments rest place = ⟨rest, place⟩

theorem solid_nil : Solid [] := fun place => by rw [skip_whitespace_and_comments]

theorem solid_cons (hspace : isspace c = false) (hcomment : ¬ (c = ch '-' ∧ rest.head? = some (ch '-'))) : Solid (c :: rest) := by
  intro place
  rw [skip_whitespace_and_comments, if_neg (by rw [hspace]; decide), if_neg hcomment]

theorem skip_space (h : isspace c = true) :
    skip_whitespace_and_comments (c :: rest) place = skip_whitespace_and_comments rest (place.next c) := by
  rw [skip_whitespace_and_comments, if_pos h]

theorem skip_spaces : ∀ (spaces : Bytes) (place : Place), (∀ c ∈ spaces, isspace c = true) →
    ∃ place', skip_whitespace_and_comments (spaces ++ rest) place = skip_whitespace_and_comments rest place'
  | [], place, _ => ⟨place, rfl⟩
  | c :: spaces, place, h => by
    obtain ⟨place', hskip⟩ := skip_spaces spaces (place.next c) fun d hd => h d (List.mem_cons_of_mem _ hd)
    exact ⟨place', (skip_space (h c List.mem_cons_self)).trans hskip⟩

theorem skip_comment_text : ∀ (text : Bytes) (place : Place), newline ∉ text →
    ∃ place', skip_comment (text ++ newline :: rest) place = ⟨newline :: rest, place'⟩
  | [], place, _ => ⟨place, if_pos rfl⟩
  | c :: text, place, h => by
    rw [List.mem_cons, not_or] at h
    obtain ⟨place', hskip⟩ := skip_comment_text text (place.next c) h.2
    exact ⟨place', (if_neg (Ne.symm h.1)).trans hskip⟩

/-- A comment goes up to its newline, which is whitespace. -/
theorem skip_line (comment : Comment) (place : Place) :
    ∃ place', skip_whitespace_and_comments (comment.line ++ rest) place = skip_whitespace_and_comments rest place' := by
  have hno : newline ∉ ch '-' :: ch '-' :: comment.text := by
    rw [List.mem_cons, List.mem_cons, not_or, not_or]
    exact ⟨by decide, by decide, comment.one_line⟩
  have htext : comment.line ++ rest = ch '-' :: (ch '-' :: (comment.text ++ newline :: rest)) := by
    unfold Comment.line
    rw [List.cons_append, List.cons_append, List.append_assoc]
    rfl
  obtain ⟨place', hskip⟩ : ∃ place', skip_comment (ch '-' :: (ch '-' :: (comment.text ++ newline :: rest))) place = ⟨newline :: rest, place'⟩ :=
    skip_comment_text _ place hno
  refine ⟨place'.next newline, ?_⟩
  rw [htext, skip_whitespace_and_comments, if_neg (by decide), if_pos ⟨rfl, rfl⟩, hskip]
  exact skip_space (by decide)

theorem skip_lines : ∀ (comments : List Comment) (place : Place),
    ∃ place', skip_whitespace_and_comments (comments.flatMap Comment.line ++ rest) place = skip_whitespace_and_comments rest place'
  | [], place => ⟨place, rfl⟩
  | comment :: comments, place => by
    obtain ⟨place₁, h₁⟩ : ∃ place', skip_whitespace_and_comments (comment.line ++ (comments.flatMap Comment.line ++ rest)) place =
        skip_whitespace_and_comments (comments.flatMap Comment.line ++ rest) place' := skip_line comment place
    obtain ⟨place', h'⟩ := skip_lines comments place₁
    refine ⟨place', ?_⟩
    rw [List.flatMap_cons, List.append_assoc, h₁, h']

/-- **A gap is skipped.** -/
theorem skip_gap (gap : Gap) (place : Place) :
    ∃ place', skip_whitespace_and_comments (gap.text ++ rest) place = skip_whitespace_and_comments rest place' := by
  obtain ⟨place₁, h₁⟩ : ∃ place', skip_whitespace_and_comments (gap.spaces ++ (gap.comments.flatMap Comment.line ++ rest)) place =
      skip_whitespace_and_comments (gap.comments.flatMap Comment.line ++ rest) place' := skip_spaces _ place gap.blank
  obtain ⟨place', h'⟩ : ∃ place', skip_whitespace_and_comments (gap.comments.flatMap Comment.line ++ rest) place₁ =
      skip_whitespace_and_comments rest place' := skip_lines _ place₁
  refine ⟨place', ?_⟩
  unfold Gap.text
  rw [List.append_assoc, h₁, h']

/-! ### What ends a token -/

/-- Whitespace, or the end of the input. -/
def Boundary (tail : Bytes) : Prop := ∀ c ∈ tail.head?, isspace c = true

theorem boundary_nil : Boundary [] := fun _ h => by cases h

theorem boundary_gap (gap : Gap) : Boundary (gap.text ++ rest) := by
  intro c hc
  unfold Gap.text at hc
  obtain ⟨d, spaces, hspaces⟩ := List.exists_cons_of_ne_nil gap.nonempty
  rw [hspaces] at hc
  obtain rfl : d = c := Option.some.inj hc
  exact gap.blank d (by rw [hspaces]; exact List.mem_cons_self)

theorem read_word_text : ∀ (word : Bytes) (place : Place), (∀ c ∈ word, isalnum c = true ∨ c = ch '_') → Boundary tail →
    ∃ place', read_word_loop (word ++ tail) place = (word, ⟨tail, place'⟩)
  | [], place, _, htail => by
    refine ⟨place, ?_⟩
    cases tail with
    | nil => rfl
    | cons c tail =>
      rw [List.nil_append, read_word_loop, if_neg]
      rw [isspace_not_word (htail c rfl)]
      decide
  | c :: word, place, h, htail => by
    obtain ⟨place', hread⟩ := read_word_text word (place.next c) (fun d hd => h d (List.mem_cons_of_mem _ hd)) htail
    have hc : (isalnum c || c = ch '_') = true := by simpa using h c List.mem_cons_self
    refine ⟨place', ?_⟩
    rw [List.cons_append, read_word_loop, if_pos hc, hread]

theorem read_digits : ∀ (digits : Bytes) (is_float : Bool) (place : Place), (∀ c ∈ digits, isdigit c = true) →
    ∃ place', read_number_loop is_float (digits ++ rest) place =
      (digits ++ (read_number_loop is_float rest place').1, (read_number_loop is_float rest place').2)
  | [], _, place, _ => ⟨place, rfl⟩
  | c :: digits, is_float, place, h => by
    obtain ⟨place', hread⟩ := read_digits digits is_float (place.next c)
      fun d hd => h d (List.mem_cons_of_mem _ hd)
    have hc := h c List.mem_cons_self
    have hdot : decide (c = ch '.') = false := decide_eq_false (digit_character hc).2.2.2
    refine ⟨place', ?_⟩
    rw [List.cons_append, read_number_loop, hc, hdot, if_pos (Bool.true_or _), Bool.false_and, if_neg Bool.false_ne_true, Bool.or_false, hread]
    rfl

theorem read_number_end {is_float : Bool} (htail : Boundary tail) : read_number_loop is_float tail place = ([], is_float, ⟨tail, place⟩) := by
  cases tail with
  | nil => rfl
  | cons c tail =>
    have hc := htail c rfl
    have hdot : decide (c = ch '.') = false := decide_eq_false (isspace_ne hc (by decide))
    rw [read_number_loop, isspace_not_digit hc, hdot, if_neg (by decide)]

theorem read_string_text {start : Place} : ∀ (value : Bytes) (place : Place), Boundary tail →
    ∃ place', read_string_loop start ((value.flatMap fun c => if c = quote then [quote, quote] else [c]) ++ quote :: tail) place =
      .ok (value, ⟨tail, place'⟩)
  | [], place, htail => by
    refine ⟨place.next quote, ?_⟩
    rw [List.flatMap_nil, List.nil_append]
    unfold read_string_loop
    rw [if_pos rfl]
    cases tail with
    | nil => rfl
    | cons q tail => exact if_neg (isspace_ne (htail q rfl) (by decide))
  | c :: value, place, htail => by
    by_cases hc : c = quote
    · obtain ⟨place', hread⟩ := read_string_text value ((place.next quote).next quote) htail
      refine ⟨place', ?_⟩
      rw [List.flatMap_cons, if_pos hc, List.append_assoc, List.cons_append, List.cons_append, List.nil_append]
      unfold read_string_loop
      rw [if_pos rfl]
      dsimp only
      rw [if_pos rfl, hread, hc]
      rfl
    · obtain ⟨place', hread⟩ := read_string_text value (place.next c) htail
      refine ⟨place', ?_⟩
      rw [List.flatMap_cons, if_neg hc, List.append_assoc, List.cons_append, List.nil_append]
      unfold read_string_loop
      rw [if_neg hc, hread]
      rfl

/-! ### Words -/

theorem keywords_lookup : ∀ k ∈ keywords, keywords.lookup k.1 = some k.2 := by decide +kernel

theorem keywords_word : ∀ k ∈ keywords, (∀ c ∈ k.1, isalpha c = true ∨ c = ch '_') ∧ k.1 ≠ [] := by decide +kernel

theorem keyword_is_word {k : Bytes × TokenType} (hk : k ∈ keywords) {word : Bytes} (h : word.map toupper = k.1) : IsWord word := by
  obtain ⟨hall, hne⟩ := keywords_word k hk
  have hword : ∀ c ∈ word, isalpha c = true ∨ c = ch '_' := by
    intro c hc
    refine toupper_word (hall _ ?_)
    rw [← h]
    exact List.mem_map_of_mem hc
  refine ⟨fun c hc => (hword c hc).imp_left fun halpha => ?_, ?_⟩
  · rw [isalnum, halpha, Bool.true_or]
  · cases word with
    | nil => exact absurd h.symm hne
    | cons c word => exact ⟨c, rfl, hword c List.mem_cons_self⟩

theorem keyword_type {k : Bytes × TokenType} (hk : k ∈ keywords) {word : Bytes} (h : word.map toupper = k.1) :
    keyword_or_identifier word = k.2 := by
  unfold keyword_or_identifier
  rw [h, keywords_lookup k hk]
  rfl

theorem identifier_type {word : Bytes} (h : ∀ k ∈ keywords, word.map toupper ≠ k.1) : keyword_or_identifier word = .IDENTIFIER := by
  unfold keyword_or_identifier
  rw [List.lookup_eq_none_iff.2]
  · rfl
  · intro k hk
    exact bne_iff_ne.2 (h k hk)

/-! ### A token -/

/-- A token of this type and value is read, up to `tail`. -/
def ReadsAs (text tail : Bytes) (type : TokenType) (value : Bytes) : Prop :=
  Solid (text ++ tail) ∧ ∀ place, ∃ t place', next_token ⟨text ++ tail, place⟩ = .ok (t, ⟨tail, place'⟩) ∧ t.type = type ∧ t.value = value

/-- What `next_token` does behind what it skips. -/
theorem next_token_solid (h : Solid (c :: rest)) (place : Place) : next_token ⟨c :: rest, place⟩ =
    if c = quote then read_string_literal rest (place.next c)
    else if isdigit c then pure (read_number (c :: rest) (place.next c).back)
    else if isalpha c || c = ch '_' then pure (read_identifier_or_keyword (c :: rest) (place.next c).back)
    else read_operator c rest (place.next c) := by
  unfold next_token
  dsimp only
  rw [h place]

theorem reads_as_word {word : Bytes} (h : IsWord word) (htail : Boundary tail) : ReadsAs word tail (keyword_or_identifier word) word := by
  obtain ⟨hall, c, hhead, hc⟩ := h
  obtain ⟨hspace, hdash, hquote, hdigit⟩ := word_character hc
  cases word with
  | nil => cases hhead
  | cons d word =>
    obtain rfl : d = c := Option.some.inj hhead
    have hsolid : Solid (d :: (word ++ tail)) := solid_cons hspace fun hcomment => hdash hcomment.1
    refine ⟨hsolid, fun place => ?_⟩
    obtain ⟨place', hread⟩ := read_word_text (d :: word) (place.next d).back hall htail
    have hword : (isalpha d || d = ch '_') = true := by simpa using hc
    refine ⟨⟨keyword_or_identifier (d :: word), d :: word, (place.next d).back.line, (place.next d).back.col⟩, place', ?_, rfl, rfl⟩
    rw [List.cons_append, next_token_solid hsolid, if_neg hquote, if_neg (by rw [hdigit]; decide), if_pos hword]
    unfold read_identifier_or_keyword
    rw [List.cons_append] at hread
    rw [hread]
    rfl

/-- Digits, and what the rest of a number is. -/
theorem reads_as_number {digits fraction : Bytes} {is_float : Bool} (hne : digits ≠ []) (hdigits : ∀ c ∈ digits, isdigit c = true)
    (hfraction : ∀ place, ∃ place', read_number_loop false (fraction ++ tail) place = (fraction, is_float, ⟨tail, place'⟩)) :
    ReadsAs (digits ++ fraction) tail (if is_float then .FLOAT_LITERAL else .INTEGER_LITERAL) (digits ++ fraction) := by
  obtain ⟨c, digits', rfl⟩ := List.exists_cons_of_ne_nil hne
  have hdigit := hdigits c List.mem_cons_self
  obtain ⟨hspace, hdash, hquote, -⟩ := digit_character hdigit
  have hsolid : Solid (c :: (digits' ++ (fraction ++ tail))) := solid_cons hspace fun hcomment => hdash hcomment.1
  have htext : (c :: digits' ++ fraction) ++ tail = c :: (digits' ++ (fraction ++ tail)) := by
    rw [List.append_assoc, List.cons_append]
  refine ⟨by rw [htext]; exact hsolid, fun place => ?_⟩
  obtain ⟨place₁, hread⟩ : ∃ place', read_number_loop false (c :: digits' ++ (fraction ++ tail)) (place.next c).back = _ :=
    read_digits (c :: digits') false (place.next c).back hdigits
  obtain ⟨place', hrest⟩ := hfraction place₁
  rw [hrest] at hread
  refine ⟨⟨if is_float then .FLOAT_LITERAL else .INTEGER_LITERAL, c :: digits' ++ fraction, (place.next c).back.line,
    (place.next c).back.col⟩, place', ?_, rfl, rfl⟩
  rw [htext, next_token_solid hsolid, if_neg hquote, if_pos hdigit]
  unfold read_number
  rw [List.cons_append] at hread
  rw [hread]
  rfl

theorem reads_as_string {value : Bytes} (htail : Boundary tail) :
    ReadsAs (quote :: (value.flatMap fun c => if c = quote then [quote, quote] else [c]) ++ [quote]) tail .STRING_LITERAL value := by
  have htext : (quote :: (value.flatMap fun c => if c = quote then [quote, quote] else [c]) ++ [quote]) ++ tail =
      quote :: ((value.flatMap fun c => if c = quote then [quote, quote] else [c]) ++ quote :: tail) := by
    rw [List.append_assoc, List.cons_append]
    rfl
  have hsolid : Solid (quote :: ((value.flatMap fun c => if c = quote then [quote, quote] else [c]) ++ quote :: tail)) :=
    solid_cons (by decide) fun hcomment => absurd hcomment.1 (by decide)
  rw [ReadsAs, htext]
  refine ⟨hsolid, fun place => ?_⟩
  obtain ⟨place', hread⟩ : ∃ place', read_string_loop (place.next quote) _ (place.next quote) = _ := read_string_text value (place.next quote) htail
  refine ⟨⟨.STRING_LITERAL, value, (place.next quote).line, (place.next quote).col⟩, place', ?_, rfl, rfl⟩
  rw [next_token_solid hsolid, if_pos rfl]
  unfold read_string_literal
  rw [hread]
  rfl

/-- The characters of operators start no other token. -/
theorem symbol_characters : ∀ s ∈ single_character ++ two_characters,
    isspace s.1 = false ∧ s.1 ≠ quote ∧ isdigit s.1 = false ∧ (isalpha s.1 || s.1 = ch '_') = false := by decide

theorem single_lookup : ∀ s ∈ single_character, single_character.lookup s.1 = some s.2 := by decide

theorem two_lookup : ∀ s ∈ two_characters, two_characters.lookup s.1 = some s.2 ∧ s.1 ≠ ch '-' := by decide

theorem next_token_operator {s : UInt8 × TokenType} (hs : s ∈ single_character ++ two_characters) (h : Solid (s.1 :: rest)) (place : Place) :
    next_token ⟨s.1 :: rest, place⟩ = read_operator s.1 rest (place.next s.1) := by
  obtain ⟨-, hquote, hdigit, hword⟩ := symbol_characters s hs
  rw [next_token_solid h, if_neg hquote, if_neg (by rw [hdigit]; decide), if_neg (by rw [hword]; decide)]

theorem reads_as_single {s : UInt8 × TokenType} (hs : s ∈ single_character) (htail : Boundary tail) : ReadsAs [s.1] tail s.2 [s.1] := by
  have hmem := List.mem_append_left two_characters hs
  have hsolid : Solid (s.1 :: tail) := by
    refine solid_cons (symbol_characters s hmem).1 fun hcomment => ?_
    -- what is behind is whitespace, not another `-`
    have hspace := htail _ hcomment.2
    revert hspace
    decide
  refine ⟨hsolid, fun place => ⟨⟨s.2, [s.1], (place.next s.1).back.line, (place.next s.1).back.col⟩, place.next s.1, ?_, rfl, rfl⟩⟩
  rw [List.singleton_append, next_token_operator hmem hsolid]
  have hsingle : read_single_character s.1 tail (place.next s.1) = .ok (⟨s.2, [s.1], (place.next s.1).back.line, (place.next s.1).back.col⟩,
      ⟨tail, place.next s.1⟩) := by
    unfold read_single_character
    rw [single_lookup s hs]
    rfl
  unfold read_operator
  split
  · rename_i type c rest' _
    rw [if_neg (isspace_ne (htail c rfl) (by decide))]
    exact hsingle
  · exact hsingle

theorem reads_as_two {s : UInt8 × TokenType} (hs : s ∈ two_characters) : ReadsAs [s.1, ch '='] tail s.2 [s.1, ch '='] := by
  have hmem := List.mem_append_right single_character hs
  obtain ⟨hlookup, hdash⟩ := two_lookup s hs
  have hsolid : Solid (s.1 :: ch '=' :: tail) := solid_cons (symbol_characters s hmem).1 fun hcomment => hdash hcomment.1
  refine ⟨hsolid, fun place => ⟨⟨s.2, [s.1, ch '='], (place.next s.1).back.line, (place.next s.1).back.col⟩,
    (place.next s.1).next (ch '='), ?_, rfl, rfl⟩⟩
  have htext : [s.1, ch '='] ++ tail = s.1 :: ch '=' :: tail := rfl
  rw [htext, next_token_operator hmem hsolid]
  unfold read_operator
  rw [hlookup]
  exact if_pos rfl

/-- **A token with whitespace or nothing behind it.** -/
theorem next_token_text (l : Lexeme) (htail : Boundary tail) : ReadsAs l.text tail l.type l.value := by
  cases l with
  | keyword k listed word spelled =>
    have h := reads_as_word (keyword_is_word listed spelled) htail
    rw [keyword_type listed spelled] at h
    exact h
  | identifier word is_word free =>
    have h := reads_as_word is_word htail
    rw [identifier_type free] at h
    exact h
  | integer digits nonempty decimal =>
    have h : ReadsAs (digits ++ []) tail .INTEGER_LITERAL (digits ++ []) :=
      reads_as_number nonempty decimal fun place => ⟨place, read_number_end htail⟩
    rw [List.append_nil] at h
    exact h
  | float whole fraction nonempty decimal =>
    have hwhole : ∀ c ∈ whole, isdigit c = true := fun c hc => decimal c (List.mem_append_left _ hc)
    have hfraction : ∀ place, ∃ place', read_number_loop false (ch '.' :: fraction ++ tail) place = (ch '.' :: fraction, true, ⟨tail, place'⟩) := by
      intro place
      obtain ⟨place', hread⟩ : ∃ place', read_number_loop true (fraction ++ tail) (place.next (ch '.')) = _ :=
        read_digits fraction true (place.next (ch '.')) fun c hc => decimal c (List.mem_append_right _ hc)
      refine ⟨place', ?_⟩
      rw [read_number_end htail, List.append_nil] at hread
      rw [List.cons_append, read_number_loop, if_pos (by decide), if_neg (by decide)]
      dsimp only
      rw [decide_eq_true rfl, Bool.false_or, hread]
    exact reads_as_number nonempty hwhole hfraction
  | string value => exact reads_as_string htail
  | symbol s listed =>
    rcases List.mem_append.1 listed with h | h
    · obtain ⟨x, hx, rfl⟩ := List.mem_map.1 h
      exact reads_as_single hx htail
    · obtain ⟨x, hx, rfl⟩ := List.mem_map.1 h
      exact reads_as_two hx

/-! ### All tokens -/

variable {cur next last : Cursor} {t : Token} {tokens : List Token}

/-- One token, and the rest. -/
theorem tokenize_from_eq (cur : Cursor) : tokenize_from cur = next_token cur >>= fun read =>
    if read.1.type = .END_OF_FILE then pure ([read.1], read.2)
    else tokenize_from read.2 >>= fun rest => pure (read.1 :: rest.1, rest.2) := by
  rw [tokenize_from]
  split
  · rename_i e he
    rw [he]
    rfl
  · rename_i read hread
    rw [hread]
    rfl

theorem tokenize_end (h : next_token cur = .ok (t, next)) (ht : t.type = .END_OF_FILE) : tokenize_from cur = .ok ([t], next) := by
  rw [tokenize_from_eq, h]
  exact if_pos ht

theorem tokenize_cons (h : next_token cur = .ok (t, next)) (ht : t.type ≠ .END_OF_FILE) (hrest : tokenize_from next = .ok (tokens, last)) :
    tokenize_from cur = .ok (t :: tokens, last) := by
  rw [tokenize_from_eq, h]
  refine (if_neg ht).trans ?_
  rw [hrest]
  rfl

theorem tokenize_from_congr {cur' : Cursor} (h : next_token cur = next_token cur') : tokenize_from cur = tokenize_from cur' := by
  rw [tokenize_from_eq cur, tokenize_from_eq cur', h]

/-- Tokens after a gap. -/
theorem tokenize_gap (gap : Gap) (place : Place) :
    ∃ place', tokenize_from ⟨gap.text ++ rest, place⟩ = tokenize_from ⟨rest, place'⟩ := by
  obtain ⟨place', hskip⟩ : ∃ place', skip_whitespace_and_comments (gap.text ++ rest) place = skip_whitespace_and_comments rest place' :=
    skip_gap gap place
  refine ⟨place', tokenize_from_congr ?_⟩
  unfold next_token
  dsimp only
  rw [hskip]

theorem Lexeme.type_ne (l : Lexeme) : l.type ≠ .END_OF_FILE := by
  have hkeywords : ∀ k ∈ keywords, k.2 ≠ .END_OF_FILE := by decide
  have hsymbols : ∀ s ∈ symbols, s.2 ≠ .END_OF_FILE := by decide
  cases l with
  | keyword k listed word spelled => exact hkeywords k listed
  | symbol s listed => exact hsymbols s listed
  | _ => exact fun h => by cases h

/-- The text of a token, and what ends it. -/
theorem print_cons (l : Lexeme) (ls : List Lexeme) (gaps : ℕ → Gap) : ∃ tail, print (l :: ls) gaps = l.text ++ tail ∧ Boundary tail ∧
    (ls = [] ∧ tail = [] ∨ ls ≠ [] ∧ tail = (gaps 0).text ++ print ls fun n => gaps (n + 1)) := by
  cases ls with
  | nil => exact ⟨[], (List.append_nil _).symm, boundary_nil, .inl ⟨rfl, rfl⟩⟩
  | cons l' ls => exact ⟨_, List.append_assoc .., boundary_gap _, .inr ⟨List.cons_ne_nil _ _, rfl⟩⟩

theorem tokenize_print_from : ∀ (ls : List Lexeme) (gaps : ℕ → Gap) (place : Place), ∃ tokens last,
    tokenize_from ⟨print ls gaps, place⟩ = .ok (tokens, last) ∧
      tokens.map (fun t => (t.type, t.value)) = ls.map (fun l => (l.type, l.value)) ++ [(.END_OF_FILE, [])]
  | [], gaps, place => by
    have hend : next_token ⟨[], place⟩ = .ok (⟨.END_OF_FILE, [], place.line, place.col⟩, ⟨[], place⟩) := by
      unfold next_token
      dsimp only
      rw [solid_nil place]
      rfl
    exact ⟨_, _, tokenize_end hend rfl, rfl⟩
  | l :: ls, gaps, place => by
    have ih := tokenize_print_from ls fun n => gaps (n + 1)
    obtain ⟨tail, htext, htail, hrest⟩ := print_cons l ls gaps
    obtain ⟨t, place₁, hnext, htype, hvalue⟩ := (next_token_text l htail).2 place
    have hne : t.type ≠ .END_OF_FILE := by
      rw [htype]
      exact l.type_ne
    -- the rest is printed behind a gap, or there is none
    obtain ⟨tokens, last, htokens, hmap⟩ : ∃ tokens last, tokenize_from ⟨tail, place₁⟩ = .ok (tokens, last) ∧
        tokens.map (fun t => (t.type, t.value)) = ls.map (fun l => (l.type, l.value)) ++ [(.END_OF_FILE, [])] := by
      rcases hrest with ⟨rfl, rfl⟩ | ⟨-, rfl⟩
      · exact ih place₁
      · obtain ⟨place', hgap⟩ := tokenize_gap (gaps 0) place₁
        rw [hgap]
        exact ih place'
    refine ⟨t :: tokens, last, ?_, ?_⟩
    · rw [htext]
      exact tokenize_cons hnext hne htokens
    · rw [List.map_cons, hmap, htype, hvalue]
      rfl

/-! ### The whole input -/

theorem lookup_mem {α : Type} [BEq α] [LawfulBEq α] {l : List (α × TokenType)} {k : α} {type : TokenType} (h : l.lookup k = some type) :
    (k, type) ∈ l := by
  obtain ⟨l₁, l₂, rfl, -⟩ := List.lookup_eq_some_iff.1 h
  exact List.mem_append_right _ List.mem_cons_self

/-- Only the end of the input gives the last token. -/
theorem next_token_end {read : Token × Cursor} (h : next_token cur = .ok read) (ht : read.1.type = .END_OF_FILE) : read.2.rest = [] := by
  have hsingle : ∀ s ∈ single_character, s.2 ≠ .END_OF_FILE := by decide
  have htwo : ∀ s ∈ two_characters, s.2 ≠ .END_OF_FILE := by decide
  have hkeyword : ∀ k ∈ keywords, k.2 ≠ .END_OF_FILE := by decide
  have hsymbol : ∀ {c : UInt8} {rest : Bytes} {place : Place}, read_single_character c rest place = .ok read → read.2.rest = [] := by
    intro c rest place h
    unfold read_single_character at h
    split at h
    · cases h
    · rename_i type htype
      obtain rfl := Except.ok.inj h
      exact absurd ht (hsingle _ (lookup_mem htype))
  unfold next_token at h
  dsimp only at h
  split at h
  · rename_i hrest
    obtain rfl := Except.ok.inj h
    exact hrest
  · split at h
    · obtain ⟨value, -, h⟩ := except_bind_ok h
      obtain rfl := Except.ok.inj h
      cases ht
    · split at h
      · obtain rfl := Except.ok.inj h
        unfold read_number at ht
        dsimp only at ht
        split at ht <;> cases ht
      · split at h
        · obtain rfl := Except.ok.inj h
          have htype : (keywords.lookup _).getD .IDENTIFIER = TokenType.END_OF_FILE := ht
          cases hlookup : keywords.lookup _ with
          | none => rw [hlookup] at htype; cases htype
          | some type =>
            rw [hlookup] at htype
            exact absurd htype (hkeyword _ (lookup_mem hlookup))
        · unfold read_operator at h
          split at h
          · rename_i htype _
            split at h
            · obtain rfl := Except.ok.inj h
              exact absurd ht (htwo _ (lookup_mem htype))
            · exact hsymbol h
          · exact hsymbol h

theorem tokenize_from_rest (cur : Cursor) : ∀ {read : List Token × Cursor}, tokenize_from cur = .ok read → read.2.rest = [] := by
  induction cur using tokenize_from.induct with
  | case1 cur e he =>
    intro read h
    rw [tokenize_from_eq, he] at h
    cases h
  | case2 cur read hread ht =>
    intro _ h
    rw [tokenize_from_eq, hread] at h
    have hok : pure ([read.1], read.2) = Except.ok _ := (if_pos ht).symm.trans h
    rw [← Except.ok.inj hok]
    exact next_token_end hread ht
  | case3 cur read hread ht ih =>
    intro _ h
    rw [tokenize_from_eq, hread] at h
    have hok : (tokenize_from read.2 >>= fun rest => pure (read.1 :: rest.1, rest.2)) = Except.ok _ := (if_neg ht).symm.trans h
    obtain ⟨rest, hrest, hok⟩ := except_bind_ok hok
    have hend := ih hrest
    rw [← Except.ok.inj hok]
    exact hend

/-- **A printed text gives the tokens back**, and a text that is tokenized is read to its end. -/
theorem tokenize_print :
    (∀ (ls : List Lexeme) (gaps : ℕ → Gap), ∃ tokens, tokenize (print ls gaps) = .ok tokens ∧
      tokens.map (fun t => (t.type, t.value)) = ls.map (fun l => (l.type, l.value)) ++ [(.END_OF_FILE, [])]) ∧
    ∀ input, (∃ e, tokenize_input input = .error e) ∨ ∃ tokens last, tokenize_input input = .ok (tokens, last) ∧ last.rest = [] := by
  refine ⟨fun ls gaps => ?_, fun input => ?_⟩
  · obtain ⟨tokens, last, htokens, hmap⟩ := tokenize_print_from ls gaps ⟨1, 1⟩
    refine ⟨tokens, ?_, hmap⟩
    unfold tokenize tokenize_input
    rw [htokens]
    rfl
  · cases h : tokenize_input input with
    | error e => exact .inl ⟨e, rfl⟩
    | ok read => exact .inr ⟨read.1, read.2, rfl, tokenize_from_rest _ h⟩

end GSDBEngine
