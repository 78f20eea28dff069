import GSDBEngine.Lib.Buffer
import GSDBEngine.Spec.Catalog

/-!
# Rows and their bytes

`serializer.cpp`: a bitmap of the NULLs, then the other values in schema order. A value
carries no type of its own: the schema says how its bytes are read.

* `RowSerializer.serialize`, `RowSerializer.deserialize`.
* `RowSerializer.InPlace.deserialize`: with the buffer and the position in it, where a read outside is a fault.
* `Row.Short`: strings whose length fits the 16 bits that are written of it.
-/

namespace GSDBEngine

/-- One value a column. -/
abbrev Row := List Value

/-- What the serializer throws. -/
inductive RowErr where
  | size (values columns : ℕ)
  | null_value (column : Bytes)
  | expected (type : ColumnType) (column : Bytes)
  /-- VARCHAR value exceeds max_length -/
  | too_long (column : Bytes)
  | buffer_too_short
  deriving DecidableEq

/-- The strings are shorter than `2 ^ 16`. -/
def Row.Short (row : Row) : Prop := ∀ str, Value.varchar str ∈ row → str.length < 2 ^ 16

namespace RowSerializer

/-! ### The bitmap -/

def bitmap_size (num_columns : ℕ) : ℕ := (num_columns + 7) / 8

def set_null_bit (bitmap : Bytes) (col_idx : ℕ) : Bytes :=
  bitmap.modify (col_idx / 8) fun b => b ||| 1 <<< UInt8.ofNat (col_idx % 8)

def get_null_bit (bitmap : Bytes) (col_idx : ℕ) : Bool :=
  (bitmap.getD (col_idx / 8) 0 >>> UInt8.ofNat (col_idx % 8)) &&& 1 == 1

/-- The bits of the columns from the `i`-th on. -/
def null_bitmap : ℕ → Row → List Column → Bytes → Except RowErr Bytes
  | i, val :: row, col :: columns, bitmap =>
    if val.isNull then
      if col.is_nullable then null_bitmap (i + 1) row columns (set_null_bit bitmap i) else throw (.null_value col.name)
    else null_bitmap (i + 1) row columns bitmap
  | _, _, _, bitmap => pure bitmap

/-! ### Serialize -/

/-- `encode_varchar`: the length as a `uint16_t`. -/
def encode_varchar (val : Bytes) : Bytes := append_u16 val.length ++ val

def encode_value (col : Column) (val : Value) : Except RowErr Bytes :=
  match col.type, val with
  | .INT, .int v => pure (append_u32 v.toUInt32.toNat)
  | .FLOAT, .float v => pure (append_u32 v.bits.toNat)
  | .BOOLEAN, .boolean v => pure [if v then 1 else 0]
  | .VARCHAR, .varchar str => if str.length > col.max_length.toNat then throw (.too_long col.name) else pure (encode_varchar str)
  | type, _ => throw (.expected type col.name)

/-- The values from the `i`-th column on. -/
def encode_columns (bitmap : Bytes) : ℕ → Row → List Column → Except RowErr Bytes
  | i, val :: row, col :: columns =>
    if get_null_bit bitmap i then encode_columns bitmap (i + 1) row columns
    else do
      let bytes ← encode_value col val
      let rest ← encode_columns bitmap (i + 1) row columns
      pure (bytes ++ rest)
  | _, _, _ => pure []

def serialize (row : Row) (schema : TableSchema) : Except RowErr Bytes := do
  if row.length ≠ schema.columns.length then throw (.size row.length schema.columns.length)
  let bitmap ← null_bitmap 0 row schema.columns (List.replicate (bitmap_size schema.columns.length) 0)
  let buf ← encode_columns bitmap 0 row schema.columns
  pure (bitmap ++ buf)

/-- A value that a column takes: its type, and NULL where that is allowed. -/
def Takes (col : Column) (val : Value) : Prop :=
  if val.isNull then col.is_nullable = true else ∃ bytes, encode_value col val = .ok bytes

/-! ### Deserialize -/

def decode_uint32 (bytes : Bytes) : Except RowErr (UInt32 × Bytes) :=
  match read_uint32 bytes with
  | some r => pure r
  | none => throw .buffer_too_short

def decode_varchar : Bytes → Except RowErr (Bytes × Bytes)
  | b₀ :: b₁ :: bytes =>
    let len := b₀.toNat + 2 ^ 8 * b₁.toNat
    if len ≤ bytes.length then pure (bytes.take len, bytes.drop len) else throw .buffer_too_short
  | _ => throw .buffer_too_short

/-- One value and the bytes behind it. -/
def decode_value (col : Column) (bytes : Bytes) : Except RowErr (Value × Bytes) :=
  match col.type with
  | .INT => do
    let (v, rest) ← decode_uint32 bytes
    pure (.int v.toInt32, rest)
  | .FLOAT => do
    let (bits, rest) ← decode_uint32 bytes
    pure (.float ⟨bits⟩, rest)
  | .BOOLEAN =>
    match bytes with
    | [] => throw .buffer_too_short
    | b :: rest => pure (.boolean (b != 0), rest)
  | .VARCHAR => do
    let (str, rest) ← decode_varchar bytes
    pure (.varchar str, rest)

def decode_columns (bitmap : Bytes) : ℕ → List Column → Bytes → Except RowErr Row
  | _, [], _ => pure []
  | i, col :: columns, bytes =>
    if get_null_bit bitmap i then do
      let row ← decode_columns bitmap (i + 1) columns bytes
      pure (.null :: row)
    else do
      let (val, rest) ← decode_value col bytes
      let row ← decode_columns bitmap (i + 1) columns rest
      pure (val :: row)

def deserialize (bytes : Bytes) (schema : TableSchema) : Except RowErr Row :=
  let bm_size := bitmap_size schema.columns.length
  if bytes.length < bm_size then throw .buffer_too_short
  else decode_columns (bytes.take bm_size) 0 schema.columns (bytes.drop bm_size)

/-! ### Deserialize, by position -/

namespace InPlace

open Buffer

/-- `buf` and `pos`. -/
abbrev DecodeM := BufferM UInt8 RowErr

def get_null_bit (bitmap : Bytes) (col_idx : ℕ) : DecodeM Bool := do
  let b ← Buffer.index bitmap (col_idx / 8)
  pure (b >>> UInt8.ofNat (col_idx % 8) &&& 1 == 1)

def decode_int : DecodeM Int32 := do
  need 4 .buffer_too_short
  let bytes ← copy 4
  pure (UInt32.ofNat (little_endian bytes)).toInt32

def decode_float : DecodeM Single := do
  need 4 .buffer_too_short
  let bytes ← copy 4
  pure ⟨UInt32.ofNat (little_endian bytes)⟩

def decode_bool : DecodeM Bool := do
  need 1 .buffer_too_short
  let bytes ← copy 1
  pure (little_endian bytes != 0)

def decode_varchar : DecodeM Bytes := do
  need 2 .buffer_too_short
  let len ← copy 2
  need (little_endian len) .buffer_too_short
  copy (little_endian len)

def decode_value (type : ColumnType) : DecodeM Value :=
  match type with
  | .INT => do pure (.int (← decode_int))
  | .FLOAT => do pure (.float (← decode_float))
  | .BOOLEAN => do pure (.boolean (← decode_bool))
  | .VARCHAR => do pure (.varchar (← decode_varchar))

/-- `row.values[i]`, from the `i`-th on. -/
def decode_columns (bitmap : Bytes) : ℕ → List Column → DecodeM Row
  | _, [] => pure []
  | i, col :: columns => do
    let val ← if ← get_null_bit bitmap i then pure .null else decode_value col.type
    let row ← decode_columns bitmap (i + 1) columns
    pure (val :: row)

def deserialize (bytes : Bytes) (schema : TableSchema) : Except (Fault RowErr) Row :=
  let bm_size := bitmap_size schema.columns.length
  if bytes.length < bm_size then throw (.threw .buffer_too_short)
  else do
    let row ← decode_columns (bytes.take bm_size) 0 schema.columns bytes bm_size
    pure row.1

end InPlace

end RowSerializer

end GSDBEngine
