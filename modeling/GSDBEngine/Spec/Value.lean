import GSDBEngine.Lib.Lex
import GSDBEngine.Lib.Single
import Mathlib.Data.Prod.Lex
import Mathlib.Data.Int.Order.Basic

/-!
# Values, keys and the key codec

`Value` is the variant of `row.h`, with the comparisons of `std::variant`: first
the alternative's index, then the content. A `Key` is a tuple of values under the
comparisons of `std::vector`. `KeyCodec.encode` gives the bytes of a key in a cell.

* `Value.rank`, `Key.rank`: the linear order behind the comparisons.
* `Key.lt_iff`, `Key.eq_iff`: keys without NaN compare as their ranks do.
-/

namespace GSDBEngine

abbrev Bytes := List UInt8

/-- The data of one column of a row. -/
inductive Value where
  | null
  | int (v : Int32)
  | float (v : Single)
  | boolean (v : Bool)
  | varchar (v : Bytes)
  deriving DecidableEq

namespace Value

/-- `std::variant::index`. -/
def index : Value → ℕ
  | null => 0
  | int _ => 1
  | float _ => 2
  | boolean _ => 3
  | varchar _ => 4

/-- `operator<` of the variant. -/
def lt : Value → Value → Bool
  | int a, int b => decide (a < b)
  | float a, float b => a.lt b
  | boolean a, boolean b => !a && b
  | varchar a, varchar b => Lex.lexLt (fun x y => decide (x.toNat < y.toNat)) a b
  | v, w => decide (v.index < w.index)

/-- `operator==` of the variant. -/
def eq : Value → Value → Bool
  | null, null => true
  | int a, int b => decide (a = b)
  | float a, float b => a.eq b
  | boolean a, boolean b => a == b
  | varchar a, varchar b => decide (a = b)
  | _, _ => false

def isNull : Value → Bool
  | null => true
  | _ => false

/-- The float alternative holding a NaN. -/
def isNaN : Value → Bool
  | float v => v.isNaN
  | _ => false

/-- The place of a value in the order behind `lt`. -/
def rank : Value → ℕ ×ₗ ℤ ×ₗ List ℕ
  | null => toLex (0, toLex (0, []))
  | int v => toLex (1, toLex (v.toInt, []))
  | float v => toLex (2, toLex (v.order, []))
  | boolean v => toLex (3, toLex (if v then 1 else 0, []))
  | varchar v => toLex (4, toLex (0, v.map UInt8.toNat))

theorem lt_iff (v w : Value) (hv : v.isNaN = false) (hw : w.isNaN = false) :
    v.lt w = true ↔ v.rank < w.rank := by
  cases v <;> cases w <;> simp_all [lt, rank, index, Prod.Lex.toLex_lt_toLex, Single.lt_iff, isNaN,
    Int32.lt_iff_toInt_lt]
  case boolean.boolean a b => cases a <;> cases b <;> simp
  case varchar.varchar a b =>
    exact Lex.lexLt_iff (P := fun _ => True) (fun _ _ _ _ => by simp) a b (by simp) (by simp)

theorem eq_iff (v w : Value) (hv : v.isNaN = false) (hw : w.isNaN = false) :
    v.eq w = true ↔ v.rank = w.rank := by
  have hinj : Function.Injective UInt8.toNat := fun _ _ h => UInt8.toNat_inj.1 h
  cases v <;> cases w <;> simp_all [eq, rank, Single.eq_iff, isNaN, Int32.toInt_inj]
  case boolean.boolean a b => cases a <;> cases b <;> simp
  case varchar.varchar a b => exact (List.map_injective_iff.2 hinj).eq_iff.symm

end Value

/-- A B+ tree key: an ordered tuple of values. -/
abbrev Key := List Value

namespace Key

/-- `std::vector`'s `operator<`. -/
def lt (a b : Key) : Bool := Lex.lexLt Value.lt a b

/-- `std::vector`'s `operator==`. -/
def eq (a b : Key) : Bool := Lex.lexEq Value.eq a b

def hasNaN (k : Key) : Bool := k.any Value.isNaN

/-- The order behind the comparisons of keys. -/
def rank (k : Key) : List (ℕ ×ₗ ℤ ×ₗ List ℕ) := k.map Value.rank

variable {a b : Key}

theorem hasNaN_eq_false : a.hasNaN = false ↔ ∀ v ∈ a, v.isNaN = false := by
  simp [hasNaN, List.any_eq_false]

theorem lt_iff (ha : a.hasNaN = false) (hb : b.hasNaN = false) : a.lt b = true ↔ a.rank < b.rank :=
  Lex.lexLt_iff Value.lt_iff a b (hasNaN_eq_false.1 ha) (hasNaN_eq_false.1 hb)

theorem eq_iff (ha : a.hasNaN = false) (hb : b.hasNaN = false) : a.eq b = true ↔ a.rank = b.rank :=
  Lex.lexEq_iff Value.eq_iff a b (hasNaN_eq_false.1 ha) (hasNaN_eq_false.1 hb)

end Key

/-- `append_u16`: the low 16 bits, little-endian. -/
def append_u16 (n : ℕ) : Bytes := [UInt8.ofNat n, UInt8.ofNat (n / 2 ^ 8)]

/-- `append_u32`: the low 32 bits, little-endian. -/
def append_u32 (n : ℕ) : Bytes :=
  [UInt8.ofNat n, UInt8.ofNat (n / 2 ^ 8), UInt8.ofNat (n / 2 ^ 16), UInt8.ofNat (n / 2 ^ 24)]

/-- The number of some bytes, little-endian. -/
def little_endian : Bytes → ℕ
  | [] => 0
  | b :: rest => b.toNat + 2 ^ 8 * little_endian rest

theorem little_endian_u16 (n : ℕ) : little_endian (append_u16 n) = n % 2 ^ 16 := by
  have h8 : ∀ m, (UInt8.ofNat m).toNat = m % 256 := fun m => by simp
  simp only [append_u16, little_endian, h8]
  omega

theorem little_endian_u32 (n : ℕ) : little_endian (append_u32 n) = n % 2 ^ 32 := by
  have h8 : ∀ m, (UInt8.ofNat m).toNat = m % 256 := fun m => by simp
  simp only [append_u32, little_endian, h8]
  omega

namespace KeyCodec

/-- Type tag and payload of one element. -/
def encodeValue : Value → Bytes
  | .null => [0]
  | .int v => 1 :: append_u32 v.toUInt32.toNat
  | .float v => 2 :: append_u32 v.bits.toNat
  | .boolean v => [3, if v then 1 else 0]
  | .varchar v => 4 :: (append_u32 v.length ++ v)

/-- Number of elements, then the elements. -/
def encode (key : Key) : Bytes := append_u16 key.length ++ key.flatMap encodeValue

end KeyCodec

end GSDBEngine
