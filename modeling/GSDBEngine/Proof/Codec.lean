import GSDBEngine.Spec.Catalog
import GSDBEngine.Proof.Frames

/-!
# The catalog's bytes are read back

Every `read_` takes what its `write_` put down, as long as the whole is shorter than `2 ^ 32` bytes:
that bounds every count and every length that was written in 32 bits.

* `reads_table`, `reads_index`: the two records.
* `Catalog.deserialize_serialize`: **the catalog of a page is the one that was serialized, if it has a
  table.**
-/

namespace GSDBEngine

open Reader

/-! ### Primitives -/

theorem reads_uint8 (v : UInt8) : Takes read_uint8 (write_uint8 v) v := fun _ => rfl

theorem reads_bool (b : Bool) : Takes read_bool (write_bool b) b := by
  cases b <;> exact fun _ => rfl

theorem reads_uint32 (v : UInt32) : Takes read_uint32 (write_uint32 v) v := by
  intro rest
  have h : read_uint32 (append_u32 v.toNat ++ rest) =
      some (UInt32.ofNat (WALManager.read_u32 (append_u32 v.toNat ++ rest)), rest) := rfl
  rw [write_uint32, h, WALManager.read_u32_append, Nat.mod_eq_of_lt v.toNat_lt]
  simp

theorem size_toNat {n : ℕ} (h : n < 2 ^ 32) : (UInt32.ofNat n).toNat = n := UInt32.toNat_ofNat_of_lt h

theorem write_size_length (n : ℕ) : (write_size n).length = 4 := rfl

theorem write_uint32_length (v : UInt32) : (write_uint32 v).length = 4 := rfl

theorem reads_string {str : Bytes} (h : (write_string str).length < 2 ^ 32) : Takes read_string (write_string str) str := by
  rw [write_string, List.length_append, write_size_length] at h
  refine (reads_uint32 _).bind fun rest => ?_
  rw [size_toNat (by omega), if_pos (by rw [List.length_append]; omega), List.take_left, List.drop_left]

theorem reads_list {α : Type} {read : PageReader α} {write : α → Bytes}
    (hr : ∀ x, (write x).length < 2 ^ 32 → Takes read (write x) x) (h1 : ∀ x, 1 ≤ (write x).length) {l : List α}
    (h : (write_list write l).length < 2 ^ 32) : Takes (read_list read) (write_list write l) l := by
  rw [write_list, List.length_append, write_size_length] at h
  have hl := List.length_le_length_flatMap h1 l
  refine (reads_uint32 _).bind ?_
  rw [size_toNat (by omega)]
  refine Takes.many fun x hx => hr x ?_
  have := List.length_le_flatMap (f := write) hx
  omega

theorem reads_uint32_list {l : List UInt32} (h : (write_list write_uint32 l).length < 2 ^ 32) :
    Takes (read_list read_uint32) (write_list write_uint32 l) l :=
  reads_list (fun v _ => reads_uint32 v) (fun v => by rw [write_uint32_length]; omega) h

theorem one_le_write_string (str : Bytes) : 1 ≤ (write_string str).length := by
  rw [write_string, List.length_append, write_size_length]
  omega

theorem reads_string_list {l : List Bytes} (h : (write_list write_string l).length < 2 ^ 32) :
    Takes (read_list read_string) (write_list write_string l) l :=
  reads_list (fun _ => reads_string) one_le_write_string h

/-! ### Values and enumerations -/

theorem reads_value {v : Value} (h : (write_value v).length < 2 ^ 32) : Takes read_value (write_value v) v := by
  cases v with
  | null => exact fun _ => rfl
  | int v =>
    refine (reads_uint8 1).bind ?_
    have := (reads_uint32 v.toUInt32).map (f := fun u => Value.int u.toInt32)
    rwa [Int32.toInt32_toUInt32] at this
  | float v => exact (reads_uint8 2).bind ((reads_uint32 v.bits).map (f := fun u => Value.float ⟨u⟩))
  | boolean v => exact (reads_uint8 3).bind ((reads_bool v).map (f := Value.boolean))
  | varchar v =>
    refine (reads_uint8 4).bind ((reads_string ?_).map (f := Value.varchar))
    rw [write_value, List.length_append] at h
    omega

theorem reads_type (t : ColumnType) : Takes read_type (write_uint8 t.toByte) t := by
  cases t <;> exact fun _ => rfl

theorem reads_op (op : CheckOp) : Takes read_op (write_uint8 op.toByte) op := by
  cases op <;> exact fun _ => rfl

theorem reads_on_delete (a : FkOnDelete) : Takes read_on_delete (write_uint8 a.toByte) a := by
  cases a <;> exact fun _ => rfl

theorem reads_default {has_default : Bool} {v : Value} (hv : has_default = false → v = .null)
    (h : (if has_default then write_value v else []).length < 2 ^ 32) :
    Takes (read_default has_default) (if has_default then write_value v else []) ⟨v, hv⟩ := by
  cases has_default with
  | false =>
    obtain rfl := hv rfl
    exact fun _ => rfl
  | true =>
    exact (reads_value h).map (f := fun v => (⟨v, fun h => by cases h⟩ : { v : Value // true = false → v = .null }))

/-! ### Records -/

theorem reads_column {col : Column} (h : (write_column col).length < 2 ^ 32) : Takes read_column (write_column col) col := by
  simp only [write_column, List.length_append] at h
  refine (reads_string (by omega)).bind ((reads_type _).bind ((reads_uint32 _).bind ((reads_bool _).bind
    ((reads_bool _).bind ((reads_bool _).bind ((reads_bool _).bind ?_))))))
  exact (reads_default col.no_default (by omega)).map
    (f := fun v => (⟨col.name, col.type, col.max_length, col.is_nullable, col.is_primary_key, col.auto_increment,
      col.has_default, v.1, v.2⟩ : Column))

theorem reads_check {c : CheckConstraint} (h : (write_check c).length < 2 ^ 32) : Takes read_check (write_check c) c := by
  simp only [write_check, List.length_append] at h
  refine (reads_uint32 _).bind ((reads_op _).bind ?_)
  exact (reads_value (by omega)).map (f := CheckConstraint.mk c.column_index c.op)

theorem reads_foreign_key {fk : ForeignKeyConstraint} (h : (write_foreign_key fk).length < 2 ^ 32) :
    Takes read_foreign_key (write_foreign_key fk) fk := by
  simp only [write_foreign_key, List.length_append] at h
  refine (reads_uint32_list (by omega)).bind ((reads_string (by omega)).bind ((reads_uint32_list (by omega)).bind
    ((reads_on_delete _).bind ((reads_string (by omega)).bind ?_))))
  exact (reads_string (by omega)).map
    (f := ForeignKeyConstraint.mk fk.column_indices fk.ref_table fk.ref_column_indices fk.on_delete fk.child_index_name)

theorem reads_table {schema : TableSchema} (h : (write_table schema).length < 2 ^ 32) :
    Takes read_table (write_table schema) schema := by
  simp only [write_table, List.length_append] at h
  have hcol : ∀ col, 1 ≤ (write_column col).length := fun col => by
    simp only [write_column, List.length_append, write_uint32_length]
    omega
  have hck : ∀ c, 1 ≤ (write_check c).length := fun c => by
    simp only [write_check, List.length_append, write_uint32_length]
    omega
  have hfk : ∀ fk, 1 ≤ (write_foreign_key fk).length := fun fk => by
    simp only [write_foreign_key, write_list, List.length_append, write_size_length]
    omega
  have hcols : (write_list write_column schema.columns).length < 2 ^ 32 := by omega
  have hcks : (write_list write_check schema.checks).length < 2 ^ 32 := by omega
  have hfks : (write_list write_foreign_key schema.foreign_keys).length < 2 ^ 32 := by omega
  refine (reads_string (by omega)).bind ((reads_uint32 _).bind ((reads_uint32_list (by omega)).bind
    ((reads_list (fun _ => reads_column) hcol hcols).bind ((reads_list (fun _ => reads_check) hck hcks).bind
      ((reads_list (fun _ => reads_foreign_key) hfk hfks).bind ?_)))))
  exact (reads_string (by omega)).map
    (f := fun sql => (⟨schema.name, schema.columns, schema.root_page, schema.primary_key_indices, schema.checks,
      schema.foreign_keys, sql⟩ : TableSchema))

theorem reads_index {idx : IndexSchema} (h : (write_index idx).length < 2 ^ 32) : Takes read_index (write_index idx) idx := by
  simp only [write_index, List.length_append] at h
  refine (reads_string (by omega)).bind ((reads_string (by omega)).bind ((reads_string_list (by omega)).bind
    ((reads_uint32 _).bind ?_)))
  exact (reads_bool _).map (f := IndexSchema.mk idx.name idx.table_name idx.column_names idx.root_page)

/-! ### Names -/

section byName

variable {α : Type} {name : α → Bytes}

theorem lookup_foldl_insert (n : Bytes) {l : List α} (hl : (l.map name).Nodup) : ∀ m : NameMap α,
    (∀ x ∈ l, name x = n → (l.foldl (fun m x => m.insert (name x) x) m).lookup n = some x) ∧
      ((∀ x ∈ l, name x ≠ n) → (l.foldl (fun m x => m.insert (name x) x) m).lookup n = m.lookup n) := by
  induction l with
  | nil => exact fun m => ⟨fun _ hx => absurd hx List.not_mem_nil, fun _ => rfl⟩
  | cons y l ih =>
    intro m
    rw [List.map_cons, List.nodup_cons] at hl
    obtain ⟨h1, h2⟩ := ih hl.2 (m.insert (name y) y)
    refine ⟨fun x hx hn => ?_, fun h => ?_⟩
    · rcases List.mem_cons.1 hx with rfl | hx
      · -- no later element has the name
        have : ∀ z ∈ l, name z ≠ n := fun z hz e => hl.1 (List.mem_map.2 ⟨z, hz, e.trans hn.symm⟩)
        rw [List.foldl_cons, h2 this, ← hn]
        exact AList.lookup_insert m
      · exact h1 x hx hn
    · rw [List.foldl_cons, h2 fun z hz => h z (List.mem_cons_of_mem y hz)]
      exact AList.lookup_insert_ne (Ne.symm (h y List.mem_cons_self))

/-- Under its name. -/
def Keyed (name : α → Bytes) (m : NameMap α) : Prop := ∀ n x, m.lookup n = some x → name x = n

theorem Keyed.mem {m : NameMap α} (h : Keyed name m) {e : (_ : Bytes) × α} (he : e ∈ m.entries) : name e.2 = e.1 :=
  h _ _ (AList.mem_lookup_iff.2 he)

theorem Keyed.byName {m : NameMap α} (h : Keyed name m) (n : Bytes) :
    (Catalog.byName name (m.entries.map Sigma.snd)).lookup n = m.lookup n := by
  have hkeys : (m.entries.map Sigma.snd).map name = m.entries.map Sigma.fst := by
    rw [List.map_map]
    exact List.map_congr_left fun e he => h.mem he
  have hl : ((m.entries.map Sigma.snd).map name).Nodup := by
    rw [hkeys]
    exact m.nodupKeys
  obtain ⟨h1, h2⟩ := lookup_foldl_insert n hl ∅
  cases hx : m.lookup n with
  | none =>
    refine (h2 fun x hx' hn => ?_).trans (AList.lookup_empty n)
    obtain ⟨e, he, rfl⟩ := List.mem_map.1 hx'
    rw [h.mem he] at hn
    have := AList.mem_lookup_iff.2 he
    rw [hn, hx] at this
    cases this
  | some x => exact h1 x (List.mem_map.2 ⟨_, AList.mem_lookup_iff.1 hx, rfl⟩) (h n x hx)

theorem keyed_empty : Keyed name (∅ : NameMap α) := fun n x hx => by
  rw [AList.lookup_empty] at hx
  cases hx

theorem Keyed.insert {m : NameMap α} (h : Keyed name m) {n : Bytes} {x : α} (hx : name x = n) : Keyed name (m.insert n x) := by
  intro n' x' h'
  by_cases hn : n' = n
  · subst hn
    rw [AList.lookup_insert] at h'
    cases h'
    exact hx
  · rw [AList.lookup_insert_ne hn] at h'
    exact h n' x' h'

theorem Keyed.of_subset {m m' : NameMap α} (h : Keyed name m) (hs : m'.entries ⊆ m.entries) : Keyed name m' :=
  fun n x hx => h n x (AList.mem_lookup_iff.2 (hs (AList.mem_lookup_iff.1 hx)))

theorem keyed_byName (l : List α) : Keyed name (Catalog.byName name l) := by
  have : ∀ m : NameMap α, Keyed name m → Keyed name (l.foldl (fun m x => m.insert (name x) x) m) := by
    induction l with
    | nil => exact fun m hm => hm
    | cons x l ih => exact fun m hm => ih _ (hm.insert rfl)
  exact this ∅ keyed_empty

end byName

/-! ### The catalog -/

namespace Catalog

/-- Every schema under its name. -/
structure Named (c : Catalog) : Prop where
  tables : Keyed TableSchema.name c.tables
  indexes : Keyed IndexSchema.name c.indexes

variable {c : Catalog}

theorem reads_catalog (h : c.serialize.length < 2 ^ 32) : Takes read_catalog c.serialize
    ⟨byName TableSchema.name (c.tables.entries.map Sigma.snd), byName IndexSchema.name (c.indexes.entries.map Sigma.snd)⟩ := by
  rw [serialize, List.length_append] at h
  have ht : ∀ schema, 1 ≤ (write_table schema).length := fun schema => by
    simp only [write_table, List.length_append, write_uint32_length]
    omega
  have hi : ∀ idx, 1 ≤ (write_index idx).length := fun idx => by
    simp only [write_index, List.length_append, write_uint32_length]
    omega
  have hts : (write_list write_table (c.tables.entries.map Sigma.snd)).length < 2 ^ 32 := by omega
  have his : (write_list write_index (c.indexes.entries.map Sigma.snd)).length < 2 ^ 32 := by omega
  refine (reads_list (fun _ => reads_table) ht hts).bind ?_
  exact (reads_list (fun _ => reads_index) hi his).map
    (f := fun indexes => (⟨_, byName IndexSchema.name indexes⟩ : Catalog))

/-- Four zeros: the tables' count. -/
theorem serialize_take_four (h : c.serialize.length < 2 ^ 32) (rest : Bytes) :
    (c.serialize ++ rest).take 4 = [0, 0, 0, 0] ↔ c.tables.entries = [] := by
  rw [serialize, List.length_append, write_list, List.length_append, write_size_length] at h
  have ht : (c.tables.entries.map Sigma.snd).length ≤ ((c.tables.entries.map Sigma.snd).flatMap write_table).length :=
    List.length_le_length_flatMap (fun schema => by
      simp only [write_table, List.length_append, write_uint32_length]
      omega) _
  rw [List.length_map] at ht
  have htake : (c.serialize ++ rest).take 4 = write_size c.tables.entries.length := by
    rw [serialize, write_list, List.length_map, List.append_assoc, List.append_assoc]
    exact List.take_left' (write_size_length _)
  have hz : ([0, 0, 0, 0] : Bytes) = write_size 0 := rfl
  rw [htake, hz]
  refine ⟨fun e => ?_, fun e => by rw [e]; rfl⟩
  have h1 := reads_uint32 (UInt32.ofNat c.tables.entries.length) []
  have h2 := reads_uint32 (UInt32.ofNat 0) []
  rw [show write_uint32 (UInt32.ofNat c.tables.entries.length) = write_uint32 (UInt32.ofNat 0) from e, h2] at h1
  have hn : UInt32.ofNat 0 = UInt32.ofNat c.tables.entries.length := congrArg Prod.fst (Option.some.inj h1)
  have := congrArg UInt32.toNat hn
  rw [size_toNat (by omega), size_toNat (by omega)] at this
  exact List.eq_nil_of_length_eq_zero this.symm

/-- **What is read back.** Without a table the page is taken for that of an empty catalog. -/
theorem deserialize_serialize (hc : c.Named) (h : c.serialize.length < 2 ^ 32) (rest : Bytes) :
    ∃ cat, deserialize (c.serialize ++ rest) = some cat ∧
      (cat.Same c ↔ (c.tables.entries = [] → c.indexes.entries = [])) := by
  unfold deserialize
  by_cases ht : c.tables.entries = []
  · rw [if_pos ((serialize_take_four h rest).2 ht)]
    refine ⟨_, rfl, fun hs _ => ?_, fun hi => ?_⟩
    · cases hl : c.indexes.entries with
      | nil => rfl
      | cons e l =>
        have he : c.indexes.lookup e.1 = some e.2 := AList.mem_lookup_iff.2 (by rw [hl]; exact List.mem_cons_self)
        have := hs.2 e.1
        rw [he] at this
        cases this
    · have h1 : c.tables = ∅ := AList.ext ht
      have h2 : c.indexes = ∅ := AList.ext (hi ht)
      refine ⟨fun n => ?_, fun n => ?_⟩
      · rw [h1]; rfl
      · rw [h2]; rfl
  · rw [if_neg fun e => ht ((serialize_take_four h rest).1 e), reads_catalog h rest]
    exact ⟨_, rfl, fun _ e => absurd e ht, fun _ => ⟨hc.tables.byName, hc.indexes.byName⟩⟩

end Catalog

end GSDBEngine
