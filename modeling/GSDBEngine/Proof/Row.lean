import GSDBEngine.Spec.Row
import GSDBEngine.Proof.Codec

/-!
# Rows are read back

`RowSerializer.deserialize_iff`: **the row that is read is the row that was written exactly if its
strings are shorter than `2 ^ 16`**; the length of a longer one does not fit the 16 bits before it.
-/

namespace GSDBEngine

namespace RowSerializer

/-! ### Bits -/

theorem byte_bit (b : UInt8) (i : Fin 8) : (b >>> UInt8.ofNat i.1 &&& 1 == 1) = b.toBitVec.getLsbD i.1 := by
  have h : ∀ i : Fin 8, ∀ b : Fin 256, (UInt8.ofFin b >>> UInt8.ofNat i.1 &&& 1 == 1) = (UInt8.ofFin b).toBitVec.getLsbD i.1 := by
    decide +kernel
  exact h i b.toFin

theorem one_shift_bit : ∀ i j : Fin 8, (1 <<< UInt8.ofNat j.1 : UInt8).toBitVec.getLsbD i.1 = decide (i = j) := by decide +kernel

theorem byte_bit_or (b : UInt8) (i j : Fin 8) :
    ((b ||| 1 <<< UInt8.ofNat j.1) >>> UInt8.ofNat i.1 &&& 1 == 1) = ((b >>> UInt8.ofNat i.1 &&& 1 == 1) || decide (i = j)) := by
  rw [byte_bit, byte_bit, UInt8.toBitVec_or, BitVec.getLsbD_or, one_shift_bit]

theorem get_set_null_bit {bitmap : Bytes} {i : ℕ} (h : i / 8 < bitmap.length) (k : ℕ) :
    get_null_bit (set_null_bit bitmap i) k = (get_null_bit bitmap k || decide (k = i)) := by
  unfold get_null_bit set_null_bit
  by_cases hk : k / 8 = i / 8
  · have hb := byte_bit_or (bitmap.getD (k / 8) 0) ⟨k % 8, Nat.mod_lt _ (by decide)⟩ ⟨i % 8, Nat.mod_lt _ (by decide)⟩
    have hki : (k % 8 = i % 8) ↔ k = i := by omega
    have hget : (bitmap.modify (i / 8) fun b => b ||| 1 <<< UInt8.ofNat (i % 8)).getD (k / 8) 0 =
        bitmap.getD (k / 8) 0 ||| 1 <<< UInt8.ofNat (i % 8) := by
      rw [hk, List.getD_eq_getElem?_getD, List.getD_eq_getElem?_getD, List.getElem?_modify_eq, List.getElem?_eq_getElem h]
      rfl
    rw [hget]
    simpa only [Fin.mk.injEq, hki] using hb
  · have hne : k ≠ i := fun e => hk (by rw [e])
    have hget : (bitmap.modify (i / 8) fun b => b ||| 1 <<< UInt8.ofNat (i % 8)).getD (k / 8) 0 = bitmap.getD (k / 8) 0 := by
      rw [List.getD_eq_getElem?_getD, List.getElem?_modify_ne _ _ (Ne.symm hk), List.getD_eq_getElem?_getD]
    rw [hget, decide_eq_false hne, Bool.or_false]

theorem set_null_bit_length (bitmap : Bytes) (i : ℕ) : (set_null_bit bitmap i).length = bitmap.length := List.length_modify ..

/-- The bits that a row sets. -/
theorem get_null_bitmap {row : Row} : ∀ {columns : List Column} {i : ℕ} {bitmap bitmap' : Bytes},
    null_bitmap i row columns bitmap = .ok bitmap' → row.length = columns.length → i + row.length ≤ 8 * bitmap.length →
    bitmap'.length = bitmap.length ∧
      ∀ k, get_null_bit bitmap' k = (get_null_bit bitmap k || decide (i ≤ k ∧ ∃ v, row[k - i]? = some v ∧ v.isNull = true)) := by
  induction row with
  | nil =>
    intro columns i bitmap bitmap' h hl _
    cases columns with
    | cons col columns => cases hl
    | nil =>
      cases h
      exact ⟨rfl, fun k => by simp⟩
  | cons val row ih =>
    intro columns i bitmap bitmap' h hl hi
    cases columns with
    | nil => cases hl
    | cons col columns =>
      rw [List.length_cons, List.length_cons] at hl
      rw [List.length_cons] at hi
      have hstep : ∀ k, (i ≤ k ∧ ∃ v, (val :: row)[k - i]? = some v ∧ v.isNull = true) ↔
          (k = i ∧ val.isNull = true) ∨ (i + 1 ≤ k ∧ ∃ v, row[k - (i + 1)]? = some v ∧ v.isNull = true) := by
        intro k
        by_cases hk : k = i
        · subst hk
          simp
        · by_cases hlt : i + 1 ≤ k
          · have : k - i = (k - (i + 1)) + 1 := by omega
            rw [this, List.getElem?_cons_succ]
            simp only [hk, hlt, false_and, true_and, false_or]
            exact and_iff_right (by omega)
          · simp only [hk, hlt, false_and, or_self, iff_false, not_and]
            omega
      unfold null_bitmap at h
      by_cases hn : val.isNull = true
      · rw [if_pos hn] at h
        split at h
        · obtain ⟨h1, h2⟩ := ih h (by omega) (by rw [set_null_bit_length]; omega)
          refine ⟨h1.trans (set_null_bit_length _ _), fun k => ?_⟩
          rw [h2, get_set_null_bit (by omega), Bool.or_assoc, ← Bool.decide_or]
          congr 1
          refine decide_eq_decide.2 ((hstep k).trans ?_).symm
          simp only [hn, and_true]
        · cases h
      · rw [if_neg hn] at h
        obtain ⟨h1, h2⟩ := ih h (by omega) (by omega)
        refine ⟨h1, fun k => ?_⟩
        rw [h2]
        congr 1
        refine decide_eq_decide.2 ((hstep k).trans ?_).symm
        simp only [hn, and_false, false_or, Bool.false_eq_true]

/-- The bit of a column says whether its value is NULL. -/
theorem get_null_bitmap_zero {row : Row} {columns : List Column} {bitmap : Bytes} (hl : row.length = columns.length)
    (h : null_bitmap 0 row columns (List.replicate (bitmap_size columns.length) 0) = .ok bitmap) :
    bitmap.length = bitmap_size columns.length ∧ ∀ k v, row[k]? = some v → get_null_bit bitmap k = v.isNull := by
  have hb := Nat.div_add_mod (columns.length + 7) 8
  obtain ⟨h1, h2⟩ := get_null_bitmap h hl (by rw [List.length_replicate, bitmap_size]; omega)
  refine ⟨h1.trans List.length_replicate, fun k v hv => ?_⟩
  have hz : get_null_bit (List.replicate (bitmap_size columns.length) 0) k = false := by
    have : (List.replicate (bitmap_size columns.length) (0 : UInt8)).getD (k / 8) 0 = 0 := by
      rw [List.getD_eq_getElem?_getD, List.getElem?_replicate]
      split <;> rfl
    rw [get_null_bit, this]
    simp
  rw [h2, hz, Bool.false_or]
  simp [hv]

/-! ### Values -/

theorem decode_uint32_append (v : UInt32) (rest : Bytes) : decode_uint32 (append_u32 v.toNat ++ rest) = .ok (v, rest) := by
  have h : read_uint32 (append_u32 v.toNat ++ rest) = some (v, rest) := reads_uint32 v rest
  rw [decode_uint32, h]
  rfl

/-- The low 16 bits of the length, and as many bytes. -/
theorem decode_varchar_append (str rest : Bytes) : decode_varchar (encode_varchar str ++ rest) =
    .ok ((str ++ rest).take (str.length % 2 ^ 16), (str ++ rest).drop (str.length % 2 ^ 16)) := by
  have h8 : ∀ m, (UInt8.ofNat m).toNat = m % 256 := fun m => by simp
  have hlen : (UInt8.ofNat str.length).toNat + 2 ^ 8 * (UInt8.ofNat (str.length / 2 ^ 8)).toNat = str.length % 2 ^ 16 := by
    rw [h8, h8]
    omega
  have hle : str.length % 2 ^ 16 ≤ (str ++ rest).length := by
    have := Nat.mod_le str.length (2 ^ 16)
    rw [List.length_append]
    omega
  show (if (UInt8.ofNat str.length).toNat + 2 ^ 8 * (UInt8.ofNat (str.length / 2 ^ 8)).toNat ≤ (str ++ rest).length then
    pure ((str ++ rest).take _, (str ++ rest).drop _) else throw RowErr.buffer_too_short) = _
  rw [hlen, if_pos hle]
  rfl

section value

variable {col : Column} {val : Value} {bytes : Bytes}

/-- What is encoded has the column's type. -/
theorem encode_value_cases (h : encode_value col val = .ok bytes) :
    (∃ v, col.type = .INT ∧ val = .int v ∧ bytes = append_u32 v.toUInt32.toNat) ∨
      (∃ v, col.type = .FLOAT ∧ val = .float v ∧ bytes = append_u32 v.bits.toNat) ∨
      (∃ v, col.type = .BOOLEAN ∧ val = .boolean v ∧ bytes = [if v then 1 else 0]) ∨
      ∃ str, col.type = .VARCHAR ∧ val = .varchar str ∧ bytes = encode_varchar str ∧ str.length ≤ col.max_length.toNat := by
  unfold encode_value at h
  split at h
  · cases h
    exact Or.inl ⟨_, by assumption, rfl, rfl⟩
  · cases h
    exact Or.inr (Or.inl ⟨_, by assumption, rfl, rfl⟩)
  · cases h
    exact Or.inr (Or.inr (Or.inl ⟨_, by assumption, rfl, rfl⟩))
  · split at h
    · cases h
    · cases h
      exact Or.inr (Or.inr (Or.inr ⟨_, by assumption, rfl, rfl, by omega⟩))
  · cases h

/-- A value other than a string is read back. -/
theorem decode_value_append (h : encode_value col val = .ok bytes) (hs : ∀ str, val = .varchar str → str.length < 2 ^ 16)
    (rest : Bytes) : decode_value col (bytes ++ rest) = .ok (val, rest) := by
  obtain ⟨v, ht, rfl, rfl⟩ | ⟨v, ht, rfl, rfl⟩ | ⟨v, ht, rfl, rfl⟩ | ⟨str, ht, rfl, rfl, -⟩ := encode_value_cases h
  · unfold decode_value
    rw [ht]
    show (decode_uint32 (append_u32 v.toUInt32.toNat ++ rest) >>= _) = _
    rw [decode_uint32_append]
    show Except.ok (Value.int v.toUInt32.toInt32, rest) = _
    rw [Int32.toInt32_toUInt32]
  · unfold decode_value
    rw [ht]
    show (decode_uint32 (append_u32 v.bits.toNat ++ rest) >>= _) = _
    rw [decode_uint32_append]
    rfl
  · unfold decode_value
    rw [ht]
    cases v <;> rfl
  · unfold decode_value
    rw [ht]
    show (decode_varchar (encode_varchar str ++ rest) >>= _) = _
    rw [decode_varchar_append, Nat.mod_eq_of_lt (hs str rfl), List.take_left, List.drop_left]
    rfl

/-- A string too long for its length is read back cut off. -/
theorem decode_value_long {str : Bytes} (h : encode_value col (.varchar str) = .ok bytes) (hs : 2 ^ 16 ≤ str.length) (rest : Bytes) :
    ∃ str' rest', decode_value col (bytes ++ rest) = .ok (.varchar str', rest') ∧ str' ≠ str := by
  obtain ⟨v, -, hv, -⟩ | ⟨v, -, hv, -⟩ | ⟨v, -, hv, -⟩ | ⟨str', ht, hv, rfl, -⟩ := encode_value_cases h
  · cases hv
  · cases hv
  · cases hv
  · cases hv
    have hmod := Nat.mod_lt str.length (show 0 < 2 ^ 16 by decide)
    refine ⟨(str ++ rest).take (str.length % 2 ^ 16), (str ++ rest).drop (str.length % 2 ^ 16), ?_, fun e => ?_⟩
    · unfold decode_value
      rw [ht]
      show (decode_varchar (encode_varchar str ++ rest) >>= _) = _
      rw [decode_varchar_append]
      rfl
    · have := congrArg List.length e
      rw [List.length_take, List.length_append] at this
      omega

end value

/-! ### Rows -/

theorem bind_ok {α β : Type} {m : Except RowErr α} {f : α → Except RowErr β} {b : β} (h : (m >>= f) = .ok b) :
    ∃ a, m = .ok a ∧ f a = .ok b := by
  cases m with
  | error e => cases h
  | ok a => exact ⟨a, rfl, h⟩

/-- **The columns from the `i`-th on.** -/
theorem decode_columns_iff {bitmap : Bytes} {row : Row} : ∀ {columns : List Column} {i : ℕ} {bytes : Bytes} (rest : Bytes),
    row.length = columns.length → (∀ k v, row[k]? = some v → get_null_bit bitmap (i + k) = v.isNull) →
    encode_columns bitmap i row columns = .ok bytes →
    (decode_columns bitmap i columns (bytes ++ rest) = .ok row ↔ Row.Short row) := by
  induction row with
  | nil =>
    intro columns i bytes rest hl _ _
    cases columns with
    | cons col columns => cases hl
    | nil => exact ⟨fun _ str hs => absurd hs List.not_mem_nil, fun _ => rfl⟩
  | cons val row ih =>
    intro columns i bytes rest hl hbits h
    cases columns with
    | nil => cases hl
    | cons col columns =>
      have hl' : row.length = columns.length := Nat.succ.inj hl
      have hbit : get_null_bit bitmap i = val.isNull := hbits 0 val rfl
      have hbits' : ∀ k v, row[k]? = some v → get_null_bit bitmap (i + 1 + k) = v.isNull := fun k v hv => by
        have := hbits (k + 1) v hv
        rwa [show i + (k + 1) = i + 1 + k by omega] at this
      unfold encode_columns at h
      unfold decode_columns
      by_cases hn : get_null_bit bitmap i = true
      · rw [if_pos hn] at h ⊢
        have hnull : val = .null := by
          cases val <;> first | rfl | (rw [hn] at hbit; cases hbit)
        subst hnull
        have hshort : Row.Short (.null :: row) ↔ Row.Short row := by simp [Row.Short]
        rw [hshort, ← ih rest hl' hbits' h]
        refine ⟨fun hd => ?_, fun hd => by rw [hd]; rfl⟩
        obtain ⟨row', h1, h2⟩ := bind_ok hd
        cases h2
        exact h1
      · rw [if_neg hn] at h ⊢
        obtain ⟨b, hb, h⟩ := bind_ok h
        obtain ⟨bs, hbs, h⟩ := bind_ok h
        cases h
        have hrest := ih rest hl' hbits' hbs
        rw [List.append_assoc]
        by_cases hs : ∀ str, val = .varchar str → str.length < 2 ^ 16
        · have hshort : Row.Short (val :: row) ↔ Row.Short row := by
            refine ⟨fun hr str hm => hr str (List.mem_cons_of_mem _ hm), fun hr str hm => ?_⟩
            rcases List.mem_cons.1 hm with e | hm
            · exact hs str e.symm
            · exact hr str hm
          rw [decode_value_append hb hs, hshort, ← hrest]
          refine ⟨fun hd => ?_, fun hd => ?_⟩
          · have hd' : (decode_columns bitmap (i + 1) columns (bs ++ rest) >>= fun row => pure (val :: row)) = .ok (val :: row) := hd
            obtain ⟨row', h1, h2⟩ := bind_ok hd'
            cases h2
            exact h1
          · show (decode_columns bitmap (i + 1) columns (bs ++ rest) >>= _) = _
            rw [hd]
            rfl
        · -- the first string that is too long
          have : ∃ str, val = .varchar str ∧ 2 ^ 16 ≤ str.length := by
            by_contra hc
            refine hs fun str e => ?_
            by_contra hlt
            exact hc ⟨str, e, by omega⟩
          obtain ⟨str, rfl, hlong⟩ := this
          obtain ⟨str', rest', hd, hne⟩ := decode_value_long hb hlong (bs ++ rest)
          rw [hd]
          refine ⟨fun he => ?_, fun hr => absurd (hr str List.mem_cons_self) (by omega)⟩
          have he' : (decode_columns bitmap (i + 1) columns rest' >>= fun row => pure (Value.varchar str' :: row)) =
            .ok (Value.varchar str :: row) := he
          obtain ⟨row', -, h2⟩ := bind_ok he'
          cases h2
          exact absurd rfl hne

/-- **The row that is read is the row that was written exactly if its strings are short.** -/
theorem deserialize_iff {row : Row} {schema : TableSchema} {bytes : Bytes} (h : serialize row schema = .ok bytes) :
    deserialize bytes schema = .ok row ↔ Row.Short row := by
  unfold serialize at h
  by_cases hl : row.length = schema.columns.length
  · rw [if_neg (not_not.2 hl)] at h
    obtain ⟨bitmap, hbm, h⟩ := bind_ok h
    obtain ⟨buf, hbuf, h⟩ := bind_ok h
    cases h
    obtain ⟨hlen, hbits⟩ := get_null_bitmap_zero hl hbm
    have := decode_columns_iff [] hl (i := 0) (fun k v hv => by rw [Nat.zero_add]; exact hbits k v hv) hbuf
    rw [List.append_nil] at this
    rw [← this, deserialize, if_neg (by rw [List.length_append]; omega), ← hlen, List.take_left, List.drop_left]
  · rw [if_pos hl] at h
    cases h

/-! ### Strings that are read -/

/-- A length of 16 bits. -/
theorem decode_varchar_short {bytes : Bytes} {read : Bytes × Bytes} (h : decode_varchar bytes = .ok read) : read.1.length < 2 ^ 16 := by
  unfold decode_varchar at h
  split at h
  · rename_i b₀ b₁ bytes
    have h₀ := b₀.toNat_lt
    have h₁ := b₁.toNat_lt
    dsimp only at h
    split at h
    · obtain rfl := Except.ok.inj h
      rw [List.length_take]
      omega
    · cases h
  · cases h

theorem decode_value_short {col : Column} {bytes str : Bytes} {read : Value × Bytes} (h : decode_value col bytes = .ok read)
    (hstr : read.1 = .varchar str) : str.length < 2 ^ 16 := by
  unfold decode_value at h
  cases htype : col.type with
  | INT | FLOAT =>
    simp only [htype] at h
    obtain ⟨v, -, h⟩ := bind_ok h
    obtain rfl := Except.ok.inj h
    cases hstr
  | BOOLEAN =>
    simp only [htype] at h
    cases bytes with
    | nil => cases h
    | cons b rest =>
      obtain rfl := Except.ok.inj h
      cases hstr
  | VARCHAR =>
    simp only [htype] at h
    obtain ⟨v, hv, h⟩ := bind_ok h
    obtain rfl := Except.ok.inj h
    obtain rfl := Value.varchar.inj hstr
    exact decode_varchar_short hv

theorem decode_columns_short {bitmap : Bytes} : ∀ {columns : List Column} {i : ℕ} {bytes : Bytes} {row : Row},
    decode_columns bitmap i columns bytes = .ok row → Row.Short row
  | [], i, bytes, row, h => by
    obtain rfl := Except.ok.inj h
    exact fun str hmem => absurd hmem List.not_mem_nil
  | col :: columns, i, bytes, row, h => by
    have ih := @decode_columns_short bitmap columns (i + 1)
    unfold decode_columns at h
    split at h
    · obtain ⟨others, hothers, h⟩ := bind_ok h
      obtain rfl := Except.ok.inj h
      intro str hmem
      rcases List.mem_cons.1 hmem with heq | hmem
      · cases heq
      · exact ih hothers str hmem
    · obtain ⟨read, hread, h⟩ := bind_ok h
      obtain ⟨others, hothers, h⟩ := bind_ok h
      obtain rfl := Except.ok.inj h
      intro str hmem
      rcases List.mem_cons.1 hmem with heq | hmem
      · exact decode_value_short hread heq.symm
      · exact ih hothers str hmem

/-- **The strings of a row that is read are short**, whatever the bytes are. -/
theorem deserialize_short {bytes : Bytes} {schema : TableSchema} {row : Row} (h : deserialize bytes schema = .ok row) : Row.Short row := by
  unfold deserialize at h
  dsimp only at h
  split at h
  · cases h
  · exact decode_columns_short h

/-! ### Which rows are written -/

/-- Of every column and its value. -/
def InColumns (P : Column → Value → Prop) (columns : List Column) (row : Row) : Prop :=
  ∀ (k : ℕ) (col : Column) (v : Value), columns[k]? = some col → row[k]? = some v → P col v

theorem inColumns_nil {P : Column → Value → Prop} {columns : List Column} : InColumns P columns [] :=
  fun k col v _ hv => by simp at hv

theorem inColumns_cons {P : Column → Value → Prop} {col : Column} {columns : List Column} {val : Value} {row : Row} :
    InColumns P (col :: columns) (val :: row) ↔ P col val ∧ InColumns P columns row := by
  refine ⟨fun h => ⟨h 0 col val rfl rfl, fun k c v hc hv => h (k + 1) c v hc hv⟩, fun ⟨h0, h⟩ k c v hc hv => ?_⟩
  cases k with
  | zero =>
    cases hc
    cases hv
    exact h0
  | succ k => exact h k c v hc hv

theorem null_bitmap_ok {row : Row} : ∀ {columns : List Column} {i : ℕ} {bitmap : Bytes}, row.length = columns.length →
    ((∃ bitmap', null_bitmap i row columns bitmap = .ok bitmap') ↔
      InColumns (fun col v => v.isNull = true → col.is_nullable = true) columns row) := by
  induction row with
  | nil =>
    intro columns i bitmap _
    exact ⟨fun _ => inColumns_nil, fun _ => ⟨bitmap, by cases columns <;> rfl⟩⟩
  | cons val row ih =>
    intro columns i bitmap hl
    cases columns with
    | nil => cases hl
    | cons col columns =>
      have hl' : row.length = columns.length := Nat.succ.inj hl
      rw [inColumns_cons]
      unfold null_bitmap
      by_cases hn : val.isNull = true
      · rw [if_pos hn]
        by_cases hc : col.is_nullable = true
        · rw [if_pos hc, ih hl']
          exact (and_iff_right fun _ => hc).symm
        · rw [if_neg hc]
          exact ⟨fun ⟨_, h⟩ => (by cases h), fun h => absurd (h.1 hn) hc⟩
      · rw [if_neg hn, ih hl']
        exact (and_iff_right fun h => absurd h hn).symm

theorem encode_columns_ok {bitmap : Bytes} {row : Row} : ∀ {columns : List Column} {i : ℕ}, row.length = columns.length →
    (∀ k v, row[k]? = some v → get_null_bit bitmap (i + k) = v.isNull) →
    ((∃ bytes, encode_columns bitmap i row columns = .ok bytes) ↔
      InColumns (fun col v => v.isNull = false → ∃ bytes, encode_value col v = .ok bytes) columns row) := by
  induction row with
  | nil =>
    intro columns i _ _
    exact ⟨fun _ => inColumns_nil, fun _ => ⟨[], by cases columns <;> rfl⟩⟩
  | cons val row ih =>
    intro columns i hl hbits
    cases columns with
    | nil => cases hl
    | cons col columns =>
      have hl' : row.length = columns.length := Nat.succ.inj hl
      have hbits' : ∀ k v, row[k]? = some v → get_null_bit bitmap (i + 1 + k) = v.isNull := fun k v hv => by
        have := hbits (k + 1) v hv
        rwa [show i + (k + 1) = i + 1 + k by omega] at this
      have hbit : get_null_bit bitmap i = val.isNull := hbits 0 val rfl
      have hcons : encode_columns bitmap i (val :: row) (col :: columns) =
          if get_null_bit bitmap i then encode_columns bitmap (i + 1) row columns
          else encode_value col val >>= fun bytes => encode_columns bitmap (i + 1) row columns >>= fun rest =>
            pure (bytes ++ rest) := rfl
      rw [inColumns_cons, ← ih hl' hbits', hcons]
      by_cases hn : val.isNull = true
      · rw [if_pos (hbit.trans hn)]
        exact (and_iff_right fun h => absurd h (by rw [hn]; decide)).symm
      · rw [if_neg (by rw [hbit]; exact hn)]
        have hn' : val.isNull = false := by simpa using hn
        refine ⟨fun ⟨bytes, h⟩ => ?_, fun ⟨h0, ⟨bs, hbs⟩⟩ => ?_⟩
        · obtain ⟨b, hb, h⟩ := bind_ok h
          obtain ⟨bs, hbs, -⟩ := bind_ok h
          exact ⟨fun _ => ⟨b, hb⟩, bs, hbs⟩
        · obtain ⟨b, hb⟩ := h0 hn'
          refine ⟨b ++ bs, ?_⟩
          rw [hb]
          show (encode_columns bitmap (i + 1) row columns >>= _) = _
          rw [hbs]
          rfl

/-- **A row is written exactly if every column takes its value.** -/
theorem serialize_ok {row : Row} {schema : TableSchema} : (∃ bytes, serialize row schema = .ok bytes) ↔
    row.length = schema.columns.length ∧ InColumns Takes schema.columns row := by
  unfold serialize
  by_cases hl : row.length = schema.columns.length
  · rw [if_neg (not_not.2 hl)]
    refine ⟨fun ⟨bytes, h⟩ => ?_, fun ⟨_, h⟩ => ?_⟩
    · obtain ⟨bitmap, hbm, h⟩ := bind_ok h
      obtain ⟨buf, hbuf, -⟩ := bind_ok h
      have hbits := (get_null_bitmap_zero hl hbm).2
      have hnull := (null_bitmap_ok hl).1 ⟨bitmap, hbm⟩
      have hval := (encode_columns_ok (i := 0) hl fun k v hv => by rw [Nat.zero_add]; exact hbits k v hv).1 ⟨buf, hbuf⟩
      refine ⟨hl, fun i col v hc hv => ?_⟩
      unfold Takes
      by_cases hn : v.isNull = true
      · rw [if_pos hn]
        exact hnull i col v hc hv hn
      · rw [if_neg hn]
        exact hval i col v hc hv (by simpa using hn)
    · have hnull : InColumns (fun col v => v.isNull = true → col.is_nullable = true) schema.columns row :=
        fun k col v hc hv hn => by
          have := h k col v hc hv
          rwa [Takes, if_pos hn] at this
      have hval : InColumns (fun col v => v.isNull = false → ∃ bytes, encode_value col v = .ok bytes) schema.columns row :=
        fun k col v hc hv hn => by
          have := h k col v hc hv
          rwa [Takes, if_neg (by rw [hn]; decide)] at this
      obtain ⟨bitmap, hbm⟩ := (null_bitmap_ok (i := 0) hl).2 hnull
      have hbits := (get_null_bitmap_zero hl hbm).2
      obtain ⟨buf, hbuf⟩ := (encode_columns_ok (i := 0) hl fun k v hv => by rw [Nat.zero_add]; exact hbits k v hv).2 hval
      refine ⟨bitmap ++ buf, ?_⟩
      show (null_bitmap 0 row schema.columns _ >>= _) = _
      rw [hbm]
      show (encode_columns bitmap 0 row schema.columns >>= _) = _
      rw [hbuf]
      rfl
  · rw [if_pos hl]
    exact ⟨fun ⟨_, h⟩ => (by cases h), fun h => absurd h.1 hl⟩

end RowSerializer

end GSDBEngine
