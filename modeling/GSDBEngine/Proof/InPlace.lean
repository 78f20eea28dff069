import GSDBEngine.Lib.Eff
import GSDBEngine.Proof.Row
import GSDBEngine.Spec.Ddl

/-!
# Bytes that are no row

* `tracks_value`, `in_place_columns`: **a decoder never reads outside**, and by position it does what `decode_value` does to what is left.
* `deserialize_in_place`: so does the whole of it.
* `deserialize_cut`: a row that is cut short is an error. `deserialize_typed`: what is returned has the types of the columns.
* `deserialize_safe`: both, of the code that reads by position.
-/

namespace GSDBEngine

open RowSerializer Buffer

variable {bitmap bytes : Bytes} {col : Column} {val : Value}

/-! ### One value -/

theorem decode_uint32_eq (rest : Bytes) : decode_uint32 rest =
    if 4 ≤ rest.length then .ok (UInt32.ofNat (little_endian (rest.take 4)), rest.drop 4) else .error .buffer_too_short := by
  rcases rest with _ | ⟨b₀, _ | ⟨b₁, _ | ⟨b₂, _ | ⟨b₃, rest⟩⟩⟩⟩
  · rfl
  · rfl
  · rfl
  · rfl
  · have hlen : 4 ≤ (b₀ :: b₁ :: b₂ :: b₃ :: rest).length := by
      simp only [List.length_cons]
      omega
    have hle : little_endian [b₀, b₁, b₂, b₃] = b₀.toNat + 2 ^ 8 * b₁.toNat + 2 ^ 16 * b₂.toNat + 2 ^ 24 * b₃.toNat := by
      simp only [little_endian]
      omega
    rw [if_pos hlen]
    show Except.ok (UInt32.ofNat _, rest) = Except.ok (UInt32.ofNat (little_endian [b₀, b₁, b₂, b₃]), rest)
    rw [hle]

theorem decode_varchar_eq (rest : Bytes) : decode_varchar rest =
    if 2 ≤ rest.length then
      (if little_endian (rest.take 2) ≤ (rest.drop 2).length then
        .ok ((rest.drop 2).take (little_endian (rest.take 2)), (rest.drop 2).drop (little_endian (rest.take 2)))
      else .error .buffer_too_short)
    else .error .buffer_too_short := by
  rcases rest with _ | ⟨b₀, _ | ⟨b₁, rest⟩⟩
  · rfl
  · rfl
  · have hlen : 2 ≤ (b₀ :: b₁ :: rest).length := by
      simp only [List.length_cons]
      omega
    have hle : little_endian [b₀, b₁] = b₀.toNat + 2 ^ 8 * b₁.toNat := by simp only [little_endian, Nat.mul_zero, Nat.add_zero]
    rw [if_pos hlen]
    show _ = if little_endian [b₀, b₁] ≤ rest.length then Except.ok (rest.take (little_endian [b₀, b₁]), rest.drop (little_endian [b₀, b₁])) else _
    rw [hle]
    rfl

/-- **The decoder of a column's type reads by position what `decode_value` reads.** -/
theorem tracks_value (col : Column) : Tracks (InPlace.decode_value col.type) (decode_value col) := by
  unfold decode_value
  cases col.type with
  | INT =>
    have h := Tracks.need_copy 4 RowErr.buffer_too_short fun w =>
      Tracks.pure (B := UInt8) (Value.int (UInt32.ofNat (little_endian w)).toInt32)
    simp only [InPlace.decode_value, InPlace.decode_int, bind_assoc, pure_bind]
    refine h.congr fun rest => ?_
    simp only [decode_uint32_eq]
    split <;> rfl
  | FLOAT =>
    have h := Tracks.need_copy 4 RowErr.buffer_too_short fun w => Tracks.pure (B := UInt8) (Value.float ⟨UInt32.ofNat (little_endian w)⟩)
    simp only [InPlace.decode_value, InPlace.decode_float, bind_assoc, pure_bind]
    refine h.congr fun rest => ?_
    simp only [decode_uint32_eq]
    split <;> rfl
  | BOOLEAN =>
    have h := Tracks.need_copy 1 RowErr.buffer_too_short fun w => Tracks.pure (B := UInt8) (Value.boolean (little_endian w != 0))
    simp only [InPlace.decode_value, InPlace.decode_bool, bind_assoc, pure_bind]
    refine h.congr fun rest => ?_
    cases rest with
    | nil => rfl
    | cons b rest =>
      have hne : (b != 0) = (little_endian [b] != 0) := by
        have hle : little_endian [b] = b.toNat := by simp only [little_endian, Nat.mul_zero, Nat.add_zero]
        rw [hle, Bool.eq_iff_iff, bne_iff_ne, bne_iff_ne, ne_eq, ne_eq, ← UInt8.toNat_inj]
        rfl
      have hlen : 1 ≤ (b :: rest).length := Nat.succ_le_succ (Nat.zero_le _)
      rw [if_pos hlen]
      show Except.ok (Value.boolean (b != 0), rest) = Except.ok (Value.boolean (little_endian [b] != 0), rest)
      rw [hne]
  | VARCHAR =>
    -- the length is read, and then tested
    have h := Tracks.need_copy 2 RowErr.buffer_too_short fun w =>
      Tracks.need_copy (little_endian w) RowErr.buffer_too_short fun w' => Tracks.pure (B := UInt8) (Value.varchar w')
    simp only [InPlace.decode_value, InPlace.decode_varchar, bind_assoc]
    refine h.congr fun rest => ?_
    simp only [decode_varchar_eq]
    split
    · split <;> rfl
    · rfl

/-! ### The columns -/

theorem tracks_null_bit {i : ℕ} (h : i < 8 * bitmap.length) :
    Tracks (InPlace.get_null_bit bitmap i) fun rest => .ok (get_null_bit bitmap i, rest) := by
  have hin : i / 8 < bitmap.length := by omega
  have hbyte : bitmap[i / 8]? = some (bitmap.getD (i / 8) 0) := by
    rw [List.getD_eq_getElem?_getD, List.getElem?_eq_getElem hin]
    rfl
  exact (Tracks.index hbyte).bind fun b => .pure (b >>> UInt8.ofNat (i % 8) &&& 1 == 1)

/-- NULL, without a look at the buffer, or a value. -/
theorem tracks_column {i : ℕ} (h : i < 8 * bitmap.length) (col : Column) :
    Tracks (do if ← InPlace.get_null_bit bitmap i then pure .null else InPlace.decode_value col.type : InPlace.DecodeM Value)
      fun rest => if get_null_bit bitmap i then .ok (.null, rest) else decode_value col rest := by
  refine ((tracks_null_bit h).bind (f := fun b => if b = true then pure .null else InPlace.decode_value col.type)
    (g := fun b rest => if b = true then .ok (.null, rest) else decode_value col rest) fun b => ?_)
  cases b with
  | true => exact .pure Value.null
  | false => exact tracks_value col

/-- **The columns from the `i`-th on**; the induction is on the columns, and what is carried is that the position is in the buffer. -/
theorem in_place_columns (buf : Bytes) : ∀ (columns : List Column) (i pos : ℕ), pos ≤ buf.length → i + columns.length ≤ 8 * bitmap.length →
    (∀ e, decode_columns bitmap i columns (buf.drop pos) = .error e → InPlace.decode_columns bitmap i columns buf pos = .error (.threw e)) ∧
      ∀ row, decode_columns bitmap i columns (buf.drop pos) = .ok row → ∃ pos', InPlace.decode_columns bitmap i columns buf pos = .ok (row, pos')
  | [], i, pos, _, _ => by
    refine ⟨fun e h => ?_, fun row h => ?_⟩
    · cases h
    · obtain rfl := Except.ok.inj h
      exact ⟨pos, rfl⟩
  | col :: columns, i, pos, hpos, hi => by
    rw [List.length_cons] at hi
    have hbit : i < 8 * bitmap.length := by omega
    have hcol := tracks_column hbit col
    have ih := fun pos hpos => in_place_columns buf columns (i + 1) pos hpos (by omega)
    have hstep : decode_columns bitmap i (col :: columns) (buf.drop pos) =
        (if get_null_bit bitmap i then .ok (.null, buf.drop pos) else decode_value col (buf.drop pos)) >>= fun p =>
          decode_columns bitmap (i + 1) columns p.2 >>= fun row => pure (p.1 :: row) := by
      rw [decode_columns]
      split <;> rfl
    have hplace : InPlace.decode_columns bitmap i (col :: columns) =
        (do if ← InPlace.get_null_bit bitmap i then pure .null else InPlace.decode_value col.type : InPlace.DecodeM Value) >>= fun val =>
          InPlace.decode_columns bitmap (i + 1) columns >>= fun row => pure (val :: row) := by
      rw [InPlace.decode_columns]
      simp only [bind_assoc]
      refine bind_congr fun null => ?_
      cases null <;> rfl
    rw [hstep, hplace]
    generalize hvalue : (if get_null_bit bitmap i then Except.ok (Value.null, buf.drop pos) else decode_value col (buf.drop pos)) = read
    cases read with
    | error e' =>
      refine ⟨fun e h => ?_, fun row h => ?_⟩
      · cases h
        exact bind_fails (hcol.throws hpos hvalue)
      · cases h
    | ok p =>
      obtain ⟨pos', hread, hrest, hpos'⟩ := hcol.returns hpos hvalue
      obtain ⟨hthrows, hreturns⟩ := ih pos' hpos'
      rw [bind_returns hread]
      show (∀ e, (decode_columns bitmap (i + 1) columns p.2 >>= fun row => pure (p.1 :: row)) = .error e → _) ∧
        ∀ row, (decode_columns bitmap (i + 1) columns p.2 >>= fun row => pure (p.1 :: row)) = .ok row → _
      rw [hrest]
      refine ⟨fun e h => ?_, fun row h => ?_⟩
      · cases hcolumns : decode_columns bitmap (i + 1) columns (buf.drop pos') with
        | error e' =>
          rw [hcolumns] at h
          cases h
          exact bind_fails (hthrows _ hcolumns)
        | ok row =>
          rw [hcolumns] at h
          cases h
      · obtain ⟨others, hcolumns, h⟩ := Eff.except_bind_ok h
        obtain rfl := Except.ok.inj h
        obtain ⟨last, hlast⟩ := hreturns others hcolumns
        refine ⟨last, ?_⟩
        rw [bind_returns hlast]
        rfl

/-- **By position, the same row or the same error, and no read outside.** -/
theorem deserialize_in_place (bytes : Bytes) (schema : TableSchema) :
    InPlace.deserialize bytes schema = (deserialize bytes schema).mapError .threw := by
  unfold InPlace.deserialize deserialize
  by_cases hshort : bytes.length < bitmap_size schema.columns.length
  · rw [if_pos hshort, if_pos hshort]
    rfl
  · rw [if_neg hshort, if_neg hshort]
    have hbitmap : (bytes.take (bitmap_size schema.columns.length)).length = bitmap_size schema.columns.length :=
      List.length_take_of_le (Nat.le_of_not_lt hshort)
    have hbits : 0 + schema.columns.length ≤ 8 * (bytes.take (bitmap_size schema.columns.length)).length := by
      rw [hbitmap, bitmap_size]
      omega
    obtain ⟨hthrows, hreturns⟩ := in_place_columns bytes schema.columns 0 (bitmap_size schema.columns.length) (Nat.le_of_not_lt hshort) hbits
    cases hcolumns : decode_columns (bytes.take (bitmap_size schema.columns.length)) 0 schema.columns
        (bytes.drop (bitmap_size schema.columns.length)) with
    | error e =>
      rw [hthrows e hcolumns]
      rfl
    | ok row =>
      obtain ⟨pos', hrow⟩ := hreturns row hcolumns
      rw [hrow]
      rfl

/-! ### A row that is cut short -/

/-- The length is cut off, or more bytes are needed than are there. -/
theorem decode_varchar_cut {str : Bytes} {n : ℕ} (hs : str.length < 2 ^ 16) (hn : n < (encode_varchar str).length) :
    decode_varchar ((encode_varchar str).take n) = .error .buffer_too_short := by
  have hlength : (encode_varchar str).length = 2 + str.length := List.length_append
  rw [decode_varchar_eq]
  by_cases htwo : 2 ≤ n
  · have htake : ((encode_varchar str).take n).take 2 = append_u16 str.length := by
      rw [List.take_take, Nat.min_eq_left htwo]
      rfl
    have hdrop : (((encode_varchar str).take n).drop 2).length < str.length := by
      rw [List.length_drop, List.length_take]
      omega
    have hlen : 2 ≤ ((encode_varchar str).take n).length := by
      rw [List.length_take]
      omega
    rw [if_pos hlen, htake, little_endian_u16, Nat.mod_eq_of_lt hs, if_neg (Nat.not_le.2 hdrop)]
  · have hlen : ¬ 2 ≤ ((encode_varchar str).take n).length := by
      rw [List.length_take]
      omega
    rw [if_neg hlen]

theorem decode_value_cut {n : ℕ} (h : encode_value col val = .ok bytes) (hs : ∀ str, val = .varchar str → str.length < 2 ^ 16)
    (hn : n < bytes.length) : ∃ e, decode_value col (bytes.take n) = .error e := by
  have hnumber : ∀ (v : ℕ) (m : ℕ), m < (append_u32 v).length → decode_uint32 ((append_u32 v).take m) = .error .buffer_too_short := by
    intro v m hm
    have hlen : ((append_u32 v).take m).length < 4 := by
      rw [List.length_take]
      exact lt_of_le_of_lt (Nat.min_le_left ..) hm
    rw [decode_uint32_eq, if_neg (Nat.not_le.2 hlen)]
  unfold decode_value
  obtain ⟨v, ht, rfl, rfl⟩ | ⟨v, ht, rfl, rfl⟩ | ⟨v, ht, rfl, rfl⟩ | ⟨str, ht, rfl, rfl, -⟩ := encode_value_cases h
  · refine ⟨.buffer_too_short, ?_⟩
    simp only [ht, hnumber _ n hn]
    rfl
  · refine ⟨.buffer_too_short, ?_⟩
    simp only [ht, hnumber _ n hn]
    rfl
  · obtain rfl : n = 0 := Nat.lt_one_iff.1 hn
    refine ⟨.buffer_too_short, ?_⟩
    simp only [ht]
    rfl
  · refine ⟨.buffer_too_short, ?_⟩
    simp only [ht, decode_varchar_cut (hs str rfl) hn]
    rfl

/-- The induction is on the columns: the value that is cut is an error, and those before it are read. -/
theorem decode_columns_cut : ∀ {row : Row} {columns : List Column} {i n : ℕ} {bytes : Bytes}, row.length = columns.length →
    (∀ k v, row[k]? = some v → get_null_bit bitmap (i + k) = v.isNull) → encode_columns bitmap i row columns = .ok bytes → Row.Short row →
      n < bytes.length → ∃ e, decode_columns bitmap i columns (bytes.take n) = .error e
  | [], [], i, n, bytes, _, _, h, _, hn => by
    cases h
    exact absurd hn (Nat.not_lt_zero _)
  | val :: row, col :: columns, i, n, bytes, hl, hbits, h, hshort, hn => by
    have hbit : get_null_bit bitmap i = val.isNull := hbits 0 val rfl
    have hbits' : ∀ k v, row[k]? = some v → get_null_bit bitmap (i + 1 + k) = v.isNull := by
      intro k v hv
      have hk := hbits (k + 1) v hv
      rwa [← Nat.add_assoc, Nat.add_right_comm] at hk
    have ih := @decode_columns_cut row columns (i + 1)
    have hshort' : Row.Short row := fun str hstr => hshort str (List.mem_cons_of_mem _ hstr)
    unfold encode_columns at h
    unfold decode_columns
    by_cases hnull : get_null_bit bitmap i = true
    · rw [if_pos hnull] at h ⊢
      obtain ⟨e, he⟩ := ih (Nat.succ.inj hl) hbits' h hshort' hn
      refine ⟨e, ?_⟩
      rw [he]
      rfl
    · rw [if_neg hnull] at h ⊢
      obtain ⟨b, hb, h⟩ := Eff.except_bind_ok h
      obtain ⟨bs, hbs, h⟩ := Eff.except_bind_ok h
      obtain rfl := Except.ok.inj h
      have hs : ∀ str, val = .varchar str → str.length < 2 ^ 16 := fun str hstr => hshort str (hstr ▸ List.mem_cons_self)
      by_cases hfirst : n < b.length
      · obtain ⟨e, he⟩ := decode_value_cut hb hs hfirst
        refine ⟨e, ?_⟩
        rw [List.take_append_of_le_length hfirst.le, he]
        rfl
      · rw [List.length_append] at hn
        obtain ⟨e, he⟩ := ih (n := n - b.length) (Nat.succ.inj hl) hbits' hbs hshort' (by omega)
        refine ⟨e, ?_⟩
        rw [List.take_append, List.take_of_length_le (Nat.le_of_not_lt hfirst), decode_value_append hb hs]
        show (decode_columns bitmap (i + 1) columns (bs.take (n - b.length)) >>= fun row => pure (val :: row)) = _
        rw [he]
        rfl

/-- **A row that is cut short is an error.** -/
theorem deserialize_cut {row : Row} {schema : TableSchema} {bytes : Bytes} (h : serialize row schema = .ok bytes) (hs : Row.Short row)
    {n : ℕ} (hn : n < bytes.length) : ∃ e, deserialize (bytes.take n) schema = .error e := by
  unfold serialize at h
  by_cases hl : row.length = schema.columns.length
  · rw [if_neg (not_not.2 hl)] at h
    obtain ⟨bitmap, hbm, h⟩ := Eff.except_bind_ok h
    obtain ⟨buf, hbuf, h⟩ := Eff.except_bind_ok h
    obtain rfl := Except.ok.inj h
    obtain ⟨hlen, hbits⟩ := get_null_bitmap_zero hl hbm
    unfold deserialize
    by_cases hfirst : ((bitmap ++ buf).take n).length < bitmap_size schema.columns.length
    · exact ⟨.buffer_too_short, if_pos hfirst⟩
    · rw [List.length_append] at hn
      rw [List.length_take, List.length_append] at hfirst
      have hle : bitmap.length ≤ n := by omega
      have hcolumns := decode_columns_cut (n := n - bitmap.length) hl
        (fun k v hv => by rw [Nat.zero_add]; exact hbits k v hv) hbuf hs (by omega)
      rw [if_neg (by rw [List.length_take, List.length_append]; exact hfirst), List.take_append, List.take_of_length_le hle, ← hlen,
        List.take_left, List.drop_left]
      exact hcolumns
  · rw [if_pos hl] at h
    cases h

/-! ### What is returned -/

theorem decode_value_typed {read : Value × Bytes} (h : decode_value col bytes = .ok read) : value_matches_type read.1 col.type = true := by
  unfold decode_value at h
  cases htype : col.type with
  | INT =>
    simp only [htype] at h
    obtain ⟨v, -, h⟩ := Eff.except_bind_ok h
    obtain rfl := Except.ok.inj h
    rfl
  | FLOAT =>
    simp only [htype] at h
    obtain ⟨v, -, h⟩ := Eff.except_bind_ok h
    obtain rfl := Except.ok.inj h
    rfl
  | BOOLEAN =>
    simp only [htype] at h
    cases bytes with
    | nil => cases h
    | cons b rest =>
      obtain rfl := Except.ok.inj h
      rfl
  | VARCHAR =>
    simp only [htype] at h
    obtain ⟨v, -, h⟩ := Eff.except_bind_ok h
    obtain rfl := Except.ok.inj h
    rfl

/-- NULL, or a value of the column's type. -/
def OfColumn (col : Column) (val : Value) : Prop := val = .null ∨ value_matches_type val col.type = true

theorem decode_columns_typed : ∀ {columns : List Column} {i : ℕ} {bytes : Bytes} {row : Row}, decode_columns bitmap i columns bytes = .ok row →
    row.length = columns.length ∧ InColumns OfColumn columns row
  | [], i, bytes, row, h => by
    obtain rfl := Except.ok.inj h
    exact ⟨rfl, inColumns_nil⟩
  | col :: columns, i, bytes, row, h => by
    have ih := @decode_columns_typed columns (i + 1)
    unfold decode_columns at h
    split at h
    · obtain ⟨others, hothers, h⟩ := Eff.except_bind_ok h
      obtain rfl := Except.ok.inj h
      obtain ⟨hlen, htyped⟩ := ih hothers
      exact ⟨congrArg Nat.succ hlen, inColumns_cons.2 ⟨.inl rfl, htyped⟩⟩
    · obtain ⟨read, hread, h⟩ := Eff.except_bind_ok h
      obtain ⟨others, hothers, h⟩ := Eff.except_bind_ok h
      obtain rfl := Except.ok.inj h
      obtain ⟨hlen, htyped⟩ := ih hothers
      exact ⟨congrArg Nat.succ hlen, inColumns_cons.2 ⟨.inr (decode_value_typed hread), htyped⟩⟩

theorem deserialize_typed {bytes : Bytes} {schema : TableSchema} {row : Row} (h : deserialize bytes schema = .ok row) :
    row.length = schema.columns.length ∧ InColumns OfColumn schema.columns row := by
  unfold deserialize at h
  dsimp only at h
  split at h
  · cases h
  · exact decode_columns_typed h

/-- **A row that is cut short is an error, and any bytes are an error or a row of the schema's types**: nothing is read outside of them. -/
theorem deserialize_safe :
    (∀ (row : Row) (schema : TableSchema) (bytes : Bytes), serialize row schema = .ok bytes → Row.Short row → ∀ n < bytes.length,
      ∃ e, InPlace.deserialize (bytes.take n) schema = .error (.threw e)) ∧
    ∀ (bytes : Bytes) (schema : TableSchema), (∃ e, InPlace.deserialize bytes schema = .error (.threw e)) ∨
      ∃ row, InPlace.deserialize bytes schema = .ok row ∧ row.length = schema.columns.length ∧ InColumns OfColumn schema.columns row := by
  refine ⟨fun row schema bytes h hs n hn => ?_, fun bytes schema => ?_⟩
  · obtain ⟨e, he⟩ := deserialize_cut h hs hn
    refine ⟨e, ?_⟩
    rw [deserialize_in_place, he]
    rfl
  · rw [deserialize_in_place]
    cases hrow : deserialize bytes schema with
    | error e => exact .inl ⟨e, rfl⟩
    | ok row => exact .inr ⟨row, rfl, deserialize_typed hrow⟩

end GSDBEngine
