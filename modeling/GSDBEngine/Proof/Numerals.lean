import GSDBEngine.Proof.Condition
import GSDBEngine.Spec.ColumnDef
import Mathlib.Tactic.Ring

/-!
# Numbers, as the parser stores them

* `limit_run`, `type_run`, `number_run`: what each place makes of an INTEGER_LITERAL. `varchar_len_kept`: no constraint changes the length.
* `stoul_numeral`, `stoi_numeral`: a conversion returns the number of the digits, or throws.
* `numerals_iff`: **a LIMIT and a VARCHAR length are cut to 32 bits, and the least integer cannot be read**; any other number is stored as it
  is written, or the parser throws.
-/

namespace GSDBEngine

open Eff LL

variable {d : Bytes} {Q : Type}

/-! ### The conversions -/

theorem decimal_eq_numeral (d : Bytes) : decimal d = numeral d := by
  -- what was read before moves up by the length of the rest
  have hfold : ∀ (d : Bytes) (m : ℕ), d.foldl (fun n c => 10 * n + (c.toNat - 48)) m = m * 10 ^ d.length + numeral d := by
    intro d
    induction d with
    | nil =>
      intro m
      rw [List.foldl_nil, List.length_nil, pow_zero, mul_one, numeral, Nat.add_zero]
    | cons c d ih =>
      intro m
      rw [List.foldl_cons, ih, numeral, List.length_cons, pow_succ]
      ring
  have hzero := hfold d 0
  rw [Nat.zero_mul, Nat.zero_add] at hzero
  exact hzero

theorem strtol_numeral (h : Digits d) : strtol d = some (numeral d : ℤ) := by
  rw [strtol_decimal h.1 h.2, decimal_eq_numeral]

theorem stoi_eq (h : Digits d) : stoi d = if numeral d < 2 ^ 31 then .ok (Int32.ofInt (numeral d)) else .error (.out_of_range (bytes "stoi")) := by
  unfold stoi
  rw [strtol_numeral h]
  by_cases hrange : numeral d < 2 ^ 31
  · have hint : (-2 ^ 31 : ℤ) ≤ numeral d ∧ (numeral d : ℤ) < 2 ^ 31 := by omega
    rw [if_pos hrange]
    exact if_pos hint
  · have hint : ¬ ((-2 ^ 31 : ℤ) ≤ numeral d ∧ (numeral d : ℤ) < 2 ^ 31) := by omega
    rw [if_neg hrange]
    exact if_neg hint

theorem stoul_eq (h : Digits d) :
    stoul d = if numeral d < 2 ^ 64 then .ok (UInt64.ofInt (numeral d)) else .error (.out_of_range (bytes "stoul")) := by
  unfold stoul
  rw [strtol_numeral h]
  rfl

/-- `std::stoi` returns the number of the digits, or throws. -/
theorem stoi_numeral (h : Digits d) {v : Int32} (hv : stoi d = .ok v) : v.toInt = numeral d ∧ (-v).toInt = -numeral d := by
  rw [stoi_eq h] at hv
  by_cases hrange : numeral d < 2 ^ 31
  · rw [if_pos hrange] at hv
    obtain rfl := Except.ok.inj hv
    rw [← Int32.ofInt_neg]
    constructor
    · apply Int32.toInt_ofInt_of_le <;> omega
    · apply Int32.toInt_ofInt_of_le <;> omega
  · rw [if_neg hrange] at hv
    cases hv

/-- `std::stoul` returns the number of the digits, or throws; the cast keeps its 32 low bits. -/
theorem stoul_numeral (h : Digits d) {n : UInt64} (hn : stoul d = .ok n) : numeral d < 2 ^ 64 ∧ n.toUInt32.toNat = numeral d % 2 ^ 32 := by
  rw [stoul_eq h] at hn
  by_cases hrange : numeral d < 2 ^ 64
  · rw [if_pos hrange] at hn
    obtain rfl := Except.ok.inj hn
    have hmod : ((numeral d : ℤ) % 2 ^ 64).toNat = numeral d := by omega
    have hto : (UInt64.ofInt (numeral d)).toNat = numeral d := by
      unfold UInt64.ofInt
      rw [hmod]
      exact UInt64.toNat_ofNat_of_lt hrange
    refine ⟨hrange, ?_⟩
    rw [UInt64.toNat_toUInt32, hto]
  · rw [if_neg hrange] at hn
    cases hn

/-- A number of 32 bits, or one that is out of the range of the conversion, is not cut. -/
theorem stoul_exact (h : Digits d) (hd : numeral d < 2 ^ 32 ∨ 2 ^ 64 ≤ numeral d) {n : UInt64} (hn : stoul d = .ok n) :
    n.toUInt32.toNat = numeral d := by
  obtain ⟨hrange, hcut⟩ := stoul_numeral h hn
  rw [hcut]
  omega

/-! ### The places of a number -/

section places

variable {t n : Token} {behind : List Token}

theorem match_yes {type : TokenType} (ht : t.type = type) (h : type ≠ .END_OF_FILE) : match_ type (t :: behind) = .ok true behind :=
  (match_takes h).yes ht

theorem match_no {type : TokenType} (ht : t.type ≠ type) (h : type ≠ .END_OF_FILE) : match_ type (t :: behind) = .ok false (t :: behind) :=
  (match_takes h).no fun hm => ht (List.mem_singleton.1 hm)

theorem expect_run {type : TokenType} (context : Bytes) (ht : t.type = type) (h : type ≠ .END_OF_FILE) :
    expect type context (t :: behind) = .ok t behind := by
  have hrun : expect type context ([t] ++ behind) = .ok t behind := (expect_exact context h).complete ⟨rfl, ht⟩ stops_nil
  exact hrun

theorem expect_ok {type : TokenType} {context : Bytes} (h : type ≠ .END_OF_FILE) {a : Token} {rest : List Token}
    (hrun : expect type context (t :: behind) = .ok a rest) : a = t ∧ rest = behind := by
  obtain ⟨c, heq, rfl, -⟩ := (expect_exact context h).sound hrun
  obtain ⟨rfl, rfl⟩ := List.cons.inj heq
  exact ⟨rfl, rfl⟩

theorem limit_run (ht : t.type = .LIMIT) (hn : n.type = .INTEGER_LITERAL) :
    parse_limit (t :: n :: behind) = (liftE (stoul n.value) >>= fun limit => pure (some limit.toUInt32)) behind := by
  unfold parse_limit
  rw [run_then (match_yes ht (by decide)), if_pos rfl, run_then (expect_run _ hn (by decide))]

/-- The length of a VARCHAR, with the parentheses around it. -/
theorem type_run {lparen : Token} (ht : t.type = .VARCHAR_KW) (hn : n.type = .INTEGER_LITERAL) {type : Bytes × UInt32} {rest : List Token}
    (h : parse_column_type (t :: lparen :: n :: behind) = .ok type rest) : ∃ len, stoul n.value = .ok len ∧ type.2 = len.toUInt32 := by
  unfold parse_column_type at h
  rw [run_then (match_no (by rw [ht]; decide) (by decide)), if_neg Bool.false_ne_true,
    run_then (match_no (by rw [ht]; decide) (by decide)), if_neg Bool.false_ne_true,
    run_then (match_no (by rw [ht]; decide) (by decide)), if_neg Bool.false_ne_true, run_then (match_yes ht (by decide)), if_pos rfl] at h
  obtain ⟨l, after, hl, h⟩ := bind_ok h
  obtain ⟨-, rfl⟩ := expect_ok (by decide) hl
  rw [run_then (expect_run _ hn (by decide))] at h
  obtain ⟨len, after, hlen, h⟩ := bind_ok h
  obtain ⟨r, after', -, h⟩ := bind_ok h
  cases h
  cases hstoul : stoul n.value with
  | error e =>
    rw [hstoul] at hlen
    cases hlen
  | ok len' =>
    rw [hstoul] at hlen
    cases hlen
    exact ⟨len, rfl, rfl⟩

theorem number_run (negative : Bool) (otherwise : ParserM Value) (hn : n.type = .INTEGER_LITERAL) :
    parse_number negative otherwise (n :: behind) = (liftE (stoi n.value) >>= fun v => pure (.int (if negative then -v else v))) behind := by
  have hne : n.type ≠ .END_OF_FILE := by rw [hn]; decide
  have hcheck : check .INTEGER_LITERAL (n :: behind) = .ok true (n :: behind) := by
    rw [← hn]
    exact check_yes
  unfold parse_number
  rw [run_then hcheck, if_pos rfl, run_then (advance_run hne)]

theorem value_run (hn : n.type = .INTEGER_LITERAL) :
    parse_value (n :: behind) = (liftE (stoi n.value) >>= fun v => pure (.int v)) behind := by
  unfold parse_value
  rw [run_then (match_no (by rw [hn]; decide) (by decide)), if_neg Bool.false_ne_true, number_run _ _ hn]
  rfl

theorem negative_run (ht : t.type = .MINUS) (hn : n.type = .INTEGER_LITERAL) :
    parse_value (t :: n :: behind) = (liftE (stoi n.value) >>= fun v => pure (.int (-v))) behind := by
  unfold parse_value
  rw [run_then (match_yes ht (by decide)), if_pos rfl, number_run _ _ hn]
  rfl

theorem liftE_then {α β : Type} {x : Except ParserErr α} {f : α → β} {b : β} {rest : List Token}
    (h : (liftE x >>= fun a => pure (f a) : ParserM β) behind = .ok b rest) : ∃ a, x = .ok a ∧ b = f a := by
  cases x with
  | error e => cases h
  | ok a =>
    cases h
    exact ⟨a, rfl, rfl⟩

end places

/-! ### The constraints of a column -/

theorem constraint_keeps {parse_subquery : ParserM Q} {col col' : ColumnDef Q} {tokens rest : List Token}
    (h : parse_constraint parse_subquery col tokens = .ok (some col') rest) : col'.varchar_len = col.varchar_len := by
  unfold parse_constraint at h
  obtain ⟨b, after, -, h⟩ := bind_ok h
  split_ifs at h
  · obtain ⟨-, after, -, h⟩ := bind_ok h
    cases h
    rfl
  obtain ⟨b, after, -, h⟩ := bind_ok h
  split_ifs at h
  · cases h
    rfl
  obtain ⟨b, after, -, h⟩ := bind_ok h
  split_ifs at h
  · cases h
    rfl
  obtain ⟨b, after, -, h⟩ := bind_ok h
  split_ifs at h
  · obtain ⟨v, after, -, h⟩ := bind_ok h
    cases h
    rfl
  obtain ⟨b, after, -, h⟩ := bind_ok h
  split_ifs at h
  · obtain ⟨-, after, -, h⟩ := bind_ok h
    cases h
    rfl
  obtain ⟨b, after, -, h⟩ := bind_ok h
  split_ifs at h
  · obtain ⟨l, after, -, h⟩ := bind_ok h
    obtain ⟨expr, after, -, h⟩ := bind_ok h
    obtain ⟨r, after, -, h⟩ := bind_ok h
    cases h
    rfl
  obtain ⟨b, after, -, h⟩ := bind_ok h
  split_ifs at h
  · obtain ⟨col'', after, hreferences, h⟩ := bind_ok h
    cases h
    unfold parse_references at hreferences
    obtain ⟨table, after, -, h⟩ := bind_ok hreferences
    obtain ⟨l, after, -, h⟩ := bind_ok h
    obtain ⟨column, after, -, h⟩ := bind_ok h
    obtain ⟨r, after, -, h⟩ := bind_ok h
    cases h
    rfl
  · cases h

theorem constraints_keep {parse_subquery : ParserM Q} : ∀ (n : ℕ) {col col' : ColumnDef Q} {tokens rest : List Token},
    parse_constraints parse_subquery n col tokens = .ok col' rest → col'.varchar_len = col.varchar_len
  | 0, _, _, _, _, h => by
    cases h
    rfl
  | n + 1, col, col', tokens, rest, h => by
    obtain ⟨next, after, hnext, h⟩ := bind_ok h
    cases next with
    | none =>
      cases h
      rfl
    | some col'' => exact (constraints_keep n h).trans (constraint_keeps hnext)

/-- **No constraint changes the length.** -/
theorem varchar_len_kept {parse_subquery : ParserM Q} {t type : Token} {tokens rest : List Token} {col : ColumnDef Q}
    (h : parse_column_def parse_subquery (t :: type :: tokens) = .ok col rest) :
    ∃ ty after, parse_column_type (type :: tokens) = .ok ty after ∧ col.varchar_len = ty.2 := by
  unfold parse_column_def at h
  obtain ⟨name, after, hname, h⟩ := bind_ok h
  obtain ⟨-, rfl⟩ := expect_ok (by decide) hname
  obtain ⟨ty, after, hty, h⟩ := bind_ok h
  obtain ⟨-, after', -, h⟩ := bind_ok h
  exact ⟨ty, after, hty, constraints_keep _ h⟩

/-! ### Every number -/

/-- `LIMIT`, from nothing but the two tokens. -/
theorem limit_of_digits (hd : Digits d) (h : numeral d < 2 ^ 64) :
    ∃ limit : UInt32, limit.toNat = numeral d % 2 ^ 32 ∧
      parse_limit [⟨.LIMIT, [], 0, 0⟩, ⟨.INTEGER_LITERAL, d, 0, 0⟩] = .ok (some limit) [] := by
  have hstoul := stoul_eq hd
  rw [if_pos h] at hstoul
  refine ⟨_, (stoul_numeral hd hstoul).2, ?_⟩
  rw [limit_run rfl rfl, hstoul]
  rfl

/-- The magnitude of the least integer is out of range. -/
theorem least_not_parsed {minus n : Token} {behind : List Token} (hm : minus.type = .MINUS) (hn : n.type = .INTEGER_LITERAL)
    (hd : n.value = digits (2 ^ 31)) (v : Value) (rest : List Token) : parse_value (minus :: n :: behind) ≠ .ok v rest := by
  intro h
  rw [negative_run hm hn] at h
  obtain ⟨a, ha, -⟩ := liftE_then h
  rw [hd] at ha
  have hnumeral : numeral (digits (2 ^ 31)) = 2 ^ 31 := by rw [← decimal_eq_numeral, decimal_digits]
  rw [stoi_eq ⟨digits_ne_nil _, isdigit_digits _⟩, hnumeral] at ha
  cases ha

/-- **A numeral is stored as the number that it is, exactly if it is not cut to 32 bits**; and an integer is read back unless it is the least
one. -/
theorem numerals_iff (hd : Digits d) (v : Int32) :
    Numerals Q d v ↔ (numeral d < 2 ^ 32 ∨ 2 ^ 64 ≤ numeral d) ∧ v ≠ Int32.minValue := by
  constructor
  · intro h
    constructor
    · by_contra hcut
      obtain ⟨limit, hlimit, hrun⟩ := limit_of_digits hd (by omega)
      obtain ⟨m, hm, hvalue⟩ := h.limit _ _ [] rfl rfl rfl _ _ hrun
      obtain rfl := Option.some.inj hm
      omega
    · rintro rfl
      exact least_not_parsed rfl rfl rfl _ _ (h.printed ⟨.MINUS, [], 0, 0⟩ ⟨.INTEGER_LITERAL, digits (2 ^ 31), 0, 0⟩ [] rfl rfl rfl)
  · rintro ⟨hcut, hv⟩
    refine ⟨?_, ?_, ?_, ?_, ?_⟩
    · rintro keyword n behind hkeyword hn rfl limit rest hrun
      rw [limit_run hkeyword hn] at hrun
      obtain ⟨len, hlen, rfl⟩ := liftE_then hrun
      exact ⟨_, rfl, stoul_exact hd hcut hlen⟩
    · rintro parse_subquery name type lparen n behind htype hn rfl col rest hrun
      obtain ⟨ty, after, hty, hlen⟩ := varchar_len_kept hrun
      obtain ⟨len, hstoul, hty⟩ := type_run htype hn hty
      rw [hlen, hty]
      exact stoul_exact hd hcut hstoul
    · rintro n behind hn rfl v rest hrun
      rw [value_run hn] at hrun
      obtain ⟨m, hm, rfl⟩ := liftE_then hrun
      exact ⟨m, rfl, (stoi_numeral hd hm).1⟩
    · rintro minus n behind hminus hn rfl v rest hrun
      rw [negative_run hminus hn] at hrun
      obtain ⟨m, hm, rfl⟩ := liftE_then hrun
      exact ⟨-m, rfl, (stoi_numeral hd hm).2⟩
    · rintro minus n behind hminus hn hvalue
      obtain ⟨habs, hsign⟩ := int_of_magnitude hv
      by_cases hneg : v < 0
      · rw [if_pos hneg] at hsign ⊢
        rw [negative_run hminus hn, hvalue, stoi_digits habs]
        exact congrArg (fun m => EStateM.Result.ok (Value.int m) behind) hsign
      · rw [if_neg hneg] at hsign ⊢
        rw [value_run hn, hvalue, stoi_digits habs]
        exact congrArg (fun m => EStateM.Result.ok (Value.int m) behind) hsign

theorem numerals_forty_two : Numerals Unit (bytes "42") (-7) :=
  (numerals_iff ⟨by decide, List.all_eq_true.1 (by decide)⟩ (-7)).2 ⟨.inl (by decide), by decide⟩

/-- 2^32 + 1 is a LIMIT of one. -/
theorem cut_to_one : ¬ ∀ d v, Digits d → Numerals Unit d v := by
  intro h
  have hd : Digits (bytes "4294967297") := ⟨by decide, List.all_eq_true.1 (by decide)⟩
  obtain ⟨m, hm, hvalue⟩ := (h _ 0 hd).limit ⟨.LIMIT, [], 0, 0⟩ ⟨.INTEGER_LITERAL, bytes "4294967297", 0, 0⟩ [] rfl rfl rfl (some 1) [] rfl
  obtain rfl := Option.some.inj hm
  exact absurd hvalue (by decide)

example : parse_column_type [⟨.VARCHAR_KW, [], 0, 0⟩, ⟨.LPAREN, [], 0, 0⟩, ⟨.INTEGER_LITERAL, bytes "4294967297", 0, 0⟩, ⟨.RPAREN, [], 0, 0⟩] =
    .ok (bytes "VARCHAR", 1) [] := rfl

end GSDBEngine
