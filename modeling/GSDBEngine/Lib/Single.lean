import Mathlib.Data.Int.Order.Basic
import Mathlib.Algebra.Order.Ring.Nat
import Mathlib.Tactic.Common

/-!
# IEEE 754 single precision, as bits

A `float` is its 32 bits. `Single.lt` and `Single.eq` are the comparisons of the
standard: every comparison with a NaN is false, and away from NaN both agree with
the signed magnitude `Single.order` (so `-0.0 = 0.0`).

* `Single.ofInt_order_lt`: **integers below `2 ^ 24` are not rounded.**
-/

/-- A single-precision number, by its bit pattern. -/
structure Single where
  bits : UInt32
  deriving DecidableEq

namespace Single

/-- The 31 bits below the sign. -/
def magnitude (x : Single) : ℕ := x.bits.toNat % 2 ^ 31

def isNegative (x : Single) : Bool := decide (2 ^ 31 ≤ x.bits.toNat)

/-- Exponent all ones and a fraction other than zero. -/
def isNaN (x : Single) : Bool := decide (0x7F800000 < x.magnitude)

/-- The position of a number on the line: its magnitude, with the sign. -/
def order (x : Single) : ℤ := if x.isNegative then -(x.magnitude : ℤ) else x.magnitude

def lt (x y : Single) : Bool := !x.isNaN && !y.isNaN && decide (x.order < y.order)

def eq (x y : Single) : Bool := !x.isNaN && !y.isNaN && decide (x.order = y.order)

/-- Half of the last unit up is rounded to even. -/
def roundShift (m s : ℕ) : ℕ :=
  let q := m / 2 ^ s
  let r := m % 2 ^ s
  if 2 ^ s < 2 * r ∨ (2 ^ s = 2 * r ∧ q % 2 = 1) then q + 1 else q

/-- The nearest number, ties to even; below `2 ^ 127`. -/
def ofNat (m : ℕ) : ℕ :=
  if m = 0 then 0
  else
    let e := m.log2
    let significand := if e ≤ 23 then m * 2 ^ (23 - e) else roundShift m (e - 23)
    -- the leading bit of the significand adds one to the exponent
    (e + 126) * 2 ^ 23 + significand

/-- `static_cast<float>` of an integer. -/
def ofInt (n : ℤ) : Single := ⟨UInt32.ofNat (if n < 0 then 2 ^ 31 + ofNat n.natAbs else ofNat n.natAbs)⟩

example : [0, 1, -2, 16777217, 16777219].map ofInt =
    [⟨0⟩, ⟨0x3F800000⟩, ⟨0xC0000000⟩, ⟨0x4B800000⟩, ⟨0x4B800002⟩] := by decide

variable {x y : Single}

theorem lt_iff (hx : x.isNaN = false) (hy : y.isNaN = false) : x.lt y = true ↔ x.order < y.order := by
  simp [lt, hx, hy]

theorem eq_iff (hx : x.isNaN = false) (hy : y.isNaN = false) : x.eq y = true ↔ x.order = y.order := by
  simp [eq, hx, hy]

/-! ### Small integers -/

theorem ofNat_of_lt {m : ℕ} (h0 : m ≠ 0) (h : m < 2 ^ 24) : ofNat m = (m.log2 + 126) * 2 ^ 23 + m * 2 ^ (23 - m.log2) := by
  have he : m.log2 ≤ 23 := Nat.lt_succ_iff.1 ((Nat.log2_lt h0).2 h)
  unfold ofNat
  rw [if_neg h0]
  dsimp only
  rw [if_pos he]

/-- The significand of a number that is not rounded. -/
theorem significand_bounds {m : ℕ} (h0 : m ≠ 0) (h : m < 2 ^ 24) : 2 ^ 23 ≤ m * 2 ^ (23 - m.log2) ∧ m * 2 ^ (23 - m.log2) < 2 ^ 24 := by
  have he : m.log2 ≤ 23 := Nat.lt_succ_iff.1 ((Nat.log2_lt h0).2 h)
  have hlow : 2 ^ m.log2 ≤ m := Nat.log2_self_le h0
  have hhigh : m < 2 ^ (m.log2 + 1) := Nat.lt_log2_self
  constructor
  · calc 2 ^ 23 = 2 ^ m.log2 * 2 ^ (23 - m.log2) := by rw [← pow_add, Nat.add_sub_of_le he]
      _ ≤ m * 2 ^ (23 - m.log2) := Nat.mul_le_mul_right _ hlow
  · calc m * 2 ^ (23 - m.log2) < 2 ^ (m.log2 + 1) * 2 ^ (23 - m.log2) := Nat.mul_lt_mul_of_pos_right hhigh (Nat.two_pow_pos _)
      _ = 2 ^ 24 := by
        rw [← pow_add]
        congr 1
        omega

theorem ofNat_lt_max {m : ℕ} (h : m < 2 ^ 24) : ofNat m < 0x7F800000 := by
  by_cases h0 : m = 0
  · subst h0
    decide
  · have he : m.log2 ≤ 23 := Nat.lt_succ_iff.1 ((Nat.log2_lt h0).2 h)
    have hb := (significand_bounds h0 h).2
    rw [ofNat_of_lt h0 h]
    omega

/-- **Small numbers are not rounded**: their order is kept. -/
theorem ofNat_lt {m n : ℕ} (h : m < n) (hn : n < 2 ^ 24) : ofNat m < ofNat n := by
  have hn0 : n ≠ 0 := by omega
  have hbn := significand_bounds hn0 hn
  rw [ofNat_of_lt hn0 hn]
  by_cases hm0 : m = 0
  · subst hm0
    show 0 < _
    omega
  · have hbm := significand_bounds hm0 (h.trans hn)
    rw [ofNat_of_lt hm0 (h.trans hn)]
    have hlog : m.log2 ≤ n.log2 := (Nat.le_log2 hn0).2 ((Nat.log2_self_le hm0).trans h.le)
    rcases Nat.eq_or_lt_of_le hlog with heq | hlt
    · rw [heq]
      have hmul : m * 2 ^ (23 - n.log2) < n * 2 ^ (23 - n.log2) := Nat.mul_lt_mul_of_pos_right h (Nat.two_pow_pos _)
      omega
    · omega

theorem ofInt_bits {n : ℤ} (h : n.natAbs < 2 ^ 24) : (ofInt n).magnitude = ofNat n.natAbs ∧ (ofInt n).isNegative = decide (n < 0) := by
  have hmax := ofNat_lt_max h
  unfold magnitude isNegative ofInt
  dsimp only
  rw [UInt32.toNat_ofNat']
  by_cases hneg : n < 0
  · rw [if_pos hneg, decide_eq_true hneg, Nat.mod_eq_of_lt (show 2 ^ 31 + ofNat n.natAbs < 2 ^ 32 by omega)]
    exact ⟨by omega, decide_eq_true (by omega)⟩
  · rw [if_neg hneg, decide_eq_false hneg, Nat.mod_eq_of_lt (show ofNat n.natAbs < 2 ^ 32 by omega)]
    exact ⟨by omega, decide_eq_false (by omega)⟩

theorem ofInt_order {n : ℤ} (h : n.natAbs < 2 ^ 24) : (ofInt n).order = if n < 0 then -(ofNat n.natAbs : ℤ) else ofNat n.natAbs := by
  obtain ⟨hmag, hsign⟩ := ofInt_bits h
  unfold order
  rw [hmag, hsign]
  by_cases hneg : n < 0
  · rw [decide_eq_true hneg, if_pos rfl, if_pos hneg]
  · rw [decide_eq_false hneg, if_neg (by decide), if_neg hneg]

theorem ofInt_isNaN {n : ℤ} (h : n.natAbs < 2 ^ 24) : (ofInt n).isNaN = false := by
  have hmax := ofNat_lt_max h
  unfold isNaN
  rw [(ofInt_bits h).1]
  exact decide_eq_false (by omega)

/-- Small integers are as floats in the order of integers. -/
theorem ofInt_order_lt {m n : ℤ} (hm : m.natAbs < 2 ^ 24) (hn : n.natAbs < 2 ^ 24) : (ofInt m).order < (ofInt n).order ↔ m < n := by
  have hmono : ∀ {a b : ℕ}, a < 2 ^ 24 → b < 2 ^ 24 → (ofNat a < ofNat b ↔ a < b) := by
    intro a b ha hb
    refine ⟨fun h => ?_, fun h => ofNat_lt h hb⟩
    by_contra hle
    rcases Nat.eq_or_lt_of_le (not_lt.1 hle) with heq | hlt
    · rw [heq] at h
      omega
    · have := ofNat_lt hlt ha
      omega
  have hzero : ∀ {a : ℕ}, a ≠ 0 → a < 2 ^ 24 → 0 < ofNat a := fun h0 ha => ofNat_lt (Nat.pos_of_ne_zero h0) ha
  rw [ofInt_order hm, ofInt_order hn]
  by_cases hmneg : m < 0 <;> by_cases hnneg : n < 0
  · rw [if_pos hmneg, if_pos hnneg]
    have h := hmono hn hm
    omega
  · rw [if_pos hmneg, if_neg hnneg]
    have h := hzero (by omega) hm
    omega
  · rw [if_neg hmneg, if_pos hnneg]
    have h := hzero (by omega) hn
    omega
  · rw [if_neg hmneg, if_neg hnneg]
    have h := hmono hm hn
    omega

end Single
