import GSDBEngine.Spec.Query

/-!
# LIKE

* `like_match_iff`: **a text matches if it can be cut into the pieces of the pattern**, one for each of its characters.
-/

namespace GSDBEngine

/-- What a character of a pattern stands for: `%` any bytes, `_` one byte, any other itself. -/
def Piece (p : UInt8) (piece : Bytes) : Prop := if p = 37 then True else if p = 95 then piece.length = 1 else piece = [p]

/-- The text is cut into a piece for each character. -/
def Likes (text pattern : Bytes) : Prop := ∃ pieces : List Bytes, text = pieces.flatten ∧ List.Forall₂ Piece pattern pieces

variable {text pattern : Bytes} {p : UInt8}

theorem likes_nil : Likes text [] ↔ text = [] := by
  constructor
  · rintro ⟨pieces, rfl, hpieces⟩
    cases hpieces
    rfl
  · rintro rfl
    exact ⟨[], rfl, .nil⟩

/-- The first piece, and what is behind it. -/
theorem likes_cons : Likes text (p :: pattern) ↔ ∃ piece rest, text = piece ++ rest ∧ Piece p piece ∧ Likes rest pattern := by
  constructor
  · rintro ⟨pieces, rfl, hpieces⟩
    cases hpieces with
    | @cons _ piece _ others hpiece hothers => exact ⟨piece, others.flatten, rfl, hpiece, others, rfl, hothers⟩
  · rintro ⟨piece, rest, rfl, hpiece, others, rfl, hothers⟩
    exact ⟨piece :: others, rfl, .cons hpiece hothers⟩

/-- Any piece: the cut is at some place of the text. -/
theorem likes_any (h : p = 37) : Likes text (p :: pattern) ↔ ∃ i ≤ text.length, Likes (text.drop i) pattern := by
  rw [likes_cons]
  constructor
  · rintro ⟨piece, rest, rfl, -, hrest⟩
    refine ⟨piece.length, ?_, ?_⟩
    · rw [List.length_append]
      omega
    · rwa [List.drop_left]
  · rintro ⟨i, -, hrest⟩
    exact ⟨text.take i, text.drop i, (List.take_append_drop i text).symm, by rw [Piece, if_pos h]; trivial, hrest⟩

/-- One byte. -/
theorem likes_byte (h : p ≠ 37) : Likes text (p :: pattern) ↔ ∃ c rest, text = c :: rest ∧ (p = 95 ∨ p = c) ∧ Likes rest pattern := by
  have hpiece : ∀ piece, Piece p piece ↔ ∃ c, piece = [c] ∧ (p = 95 ∨ p = c) := by
    intro piece
    rw [Piece, if_neg h]
    by_cases hone : p = 95
    · rw [if_pos hone, List.length_eq_one_iff]
      exact ⟨fun ⟨c, hc⟩ => ⟨c, hc, .inl hone⟩, fun ⟨c, hc, _⟩ => ⟨c, hc⟩⟩
    · rw [if_neg hone]
      constructor
      · exact fun hp => ⟨p, hp, .inr rfl⟩
      · rintro ⟨c, hc, heq | rfl⟩
        · exact absurd heq hone
        · exact hc
  rw [likes_cons]
  constructor
  · rintro ⟨piece, rest, rfl, hp, hrest⟩
    obtain ⟨c, rfl, hc⟩ := (hpiece piece).1 hp
    exact ⟨c, rest, rfl, hc, hrest⟩
  · rintro ⟨c, rest, rfl, hc, hrest⟩
    exact ⟨[c], rest, rfl, (hpiece [c]).2 ⟨c, rfl, hc⟩, hrest⟩

/-- **LIKE.** The induction is on the pattern; the text is cut anew at each `%`. -/
theorem like_match_iff (text pattern : Bytes) : like_match text pattern = true ↔ Likes text pattern := by
  induction pattern generalizing text with
  | nil =>
    rw [like_match, likes_nil]
    exact List.isEmpty_iff
  | cons p pattern ih =>
    unfold like_match
    by_cases hany : p = 37
    · rw [if_pos hany, likes_any hany, List.any_eq_true]
      constructor
      · rintro ⟨i, hi, hmatch⟩
        have hlt := List.mem_range.1 hi
        exact ⟨i, by omega, (ih _).1 hmatch⟩
      · rintro ⟨i, hi, hrest⟩
        exact ⟨i, List.mem_range.2 (by omega), (ih _).2 hrest⟩
    · rw [if_neg hany, likes_byte hany]
      cases text with
      | nil =>
        constructor
        · exact fun h => absurd h Bool.false_ne_true
        · rintro ⟨c, rest, h, -⟩
          cases h
      | cons c rest =>
        rw [Bool.and_eq_true, Bool.or_eq_true, decide_eq_true_eq, decide_eq_true_eq, ih]
        constructor
        · exact fun h => ⟨c, rest, rfl, h⟩
        · rintro ⟨c', rest', h, hbyte, hrest⟩
          obtain ⟨rfl, rfl⟩ := List.cons.inj h
          exact ⟨hbyte, hrest⟩

example : [like_match [97, 98, 99] [37, 98, 95, 37], like_match [] [37, 37], like_match [] [95], like_match [97] []] =
    [true, true, false, false] := by decide

end GSDBEngine
