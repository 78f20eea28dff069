import GSDBEngine.Proof.Row
import GSDBEngine.Proof.Ddl

/-!
# What is stored is read back

The two formats on disk: the bytes of a row, and those of the catalog in page 1.

* `RowSerializer.round_trip_iff`: **a row is read back exactly if its strings are shorter than `2 ^ 16`**, as they are
  where every column's length is.
* `Catalog.deserialize_page`: **the catalog of page 1 is the one that was serialized**, and what is behind it is not read.
-/

namespace GSDBEngine

/-! ### Rows -/

/-- Columns whose lengths fit the 16 bits let no longer string through. -/
theorem RowSerializer.short_of_lengths {row : Row} {schema : TableSchema} {bytes : Bytes} (h : serialize row schema = .ok bytes)
    (hmax : ∀ col ∈ schema.columns, col.max_length.toNat < 2 ^ 16) : row.Short := by
  intro str hmem
  obtain ⟨hl, htakes⟩ := serialize_ok.1 ⟨bytes, h⟩
  obtain ⟨k, hk, hval⟩ := List.mem_iff_getElem.1 hmem
  have hlt : k < schema.columns.length := by omega
  obtain ⟨col, hcol⟩ : ∃ col, schema.columns[k]? = some col := ⟨_, List.getElem?_eq_getElem hlt⟩
  have htake := htakes k _ _ hcol (List.getElem?_eq_some_iff.2 ⟨hk, hval⟩)
  obtain ⟨out, hout⟩ : ∃ out, encode_value col (.varchar str) = .ok out := htake
  obtain ⟨v, -, hv, -⟩ | ⟨v, -, hv, -⟩ | ⟨v, -, hv, -⟩ | ⟨str', -, hv, -, hle⟩ := encode_value_cases hout
  · cases hv
  · cases hv
  · cases hv
  · cases hv
    have hshort := hmax col (List.mem_of_getElem? hcol)
    omega

/-- **A row that was written is read back**, bit for bit, exactly if its strings are shorter than `2 ^ 16`. -/
theorem RowSerializer.round_trip_iff {row : Row} {schema : TableSchema} {bytes : Bytes} (h : serialize row schema = .ok bytes) :
    (deserialize bytes schema = .ok row ↔ ∀ str, Value.varchar str ∈ row → str.length < 2 ^ 16) ∧
      ((∀ col ∈ schema.columns, col.max_length.toNat < 2 ^ 16) → deserialize bytes schema = .ok row) :=
  ⟨deserialize_iff h, fun hmax => (deserialize_iff h).2 (short_of_lengths h hmax)⟩

/-- `CREATE TABLE t (id INT PRIMARY KEY, v VARCHAR(n))`. -/
def create_varchar (varchar_len : UInt32) : CreateTableStmt Unit where
  table_name := bytes "t"
  columns := [int_column "id" true "" "",
    { int_column "v" false "" "" with type_name := bytes "VARCHAR", varchar_len := varchar_len }]
  table_checks := []
  table_primary_key := []
  table_unique := []
  foreign_keys := []
  source_text := []

/-- The schema of it. -/
def varchar_schema (varchar_len : UInt32) : TableSchema where
  name := bytes "t"
  columns := [⟨bytes "id", .INT, 0, false, true, false, false, .null, fun _ => rfl⟩,
    ⟨bytes "v", .VARCHAR, varchar_len, true, false, false, false, .null, fun _ => rfl⟩]
  root_page := UInt32.ofNat INVALID_PAGE
  primary_key_indices := [0]
  checks := []
  foreign_keys := []
  create_sql := []

theorem RowSerializer.round_trip_iff_short :
    (deserialize [0, 1, 0, 0, 0, 2, 0, 104, 105] (varchar_schema 10) = .ok [.int 1, .varchar [104, 105]] ↔
      ∀ str, Value.varchar str ∈ ([.int 1, .varchar [104, 105]] : Row) → str.length < 2 ^ 16) ∧
    ((∀ col ∈ (varchar_schema 10).columns, col.max_length.toNat < 2 ^ 16) →
      deserialize [0, 1, 0, 0, 0, 2, 0, 104, 105] (varchar_schema 10) = .ok [.int 1, .varchar [104, 105]]) :=
  round_trip_iff (by decide +kernel)

/-- **A string of `2 ^ 16` bytes** in a VARCHAR(70000). -/
theorem RowSerializer.long_string_lost : table_schema (create_varchar 70000) Catalog.empty = .ok (varchar_schema 70000, []) ∧
    ∃ bytes, serialize [.int 1, .varchar (List.replicate (2 ^ 16) 97)] (varchar_schema 70000) = .ok bytes ∧
      deserialize bytes (varchar_schema 70000) ≠ .ok [.int 1, .varchar (List.replicate (2 ^ 16) 97)] := by
  have hlost : ∀ str : Bytes, str.length = 2 ^ 16 → ∃ bytes, serialize [.int 1, .varchar str] (varchar_schema 70000) = .ok bytes ∧
      deserialize bytes (varchar_schema 70000) ≠ .ok [.int 1, .varchar str] := by
    intro str hstr
    have htakes : InColumns Takes (varchar_schema 70000).columns [.int 1, .varchar str] := by
      refine inColumns_cons.2 ⟨⟨_, rfl⟩, inColumns_cons.2 ⟨⟨encode_varchar str, if_neg ?_⟩, inColumns_nil⟩⟩
      rw [hstr]
      decide
    obtain ⟨bytes, hbytes⟩ := serialize_ok.2 ⟨rfl, htakes⟩
    refine ⟨bytes, hbytes, fun hread => ?_⟩
    have hshort := (deserialize_iff hbytes).1 hread str (List.mem_cons_of_mem _ List.mem_cons_self)
    omega
  exact ⟨by decide +kernel, hlost _ List.length_replicate⟩

/-! ### The catalog -/

namespace Catalog

variable {c : Catalog}

/-- **Page 1 gives back the catalog that was serialized**, also an empty one; the bytes behind are neither needed nor read. -/
theorem deserialize_page (hc : c.Named) (hfits : c.serialize.length ≤ PAGE_SIZE)
    (hindexes : ∀ name idx, c.indexes.lookup name = some idx → (c.tables.lookup idx.table_name).isSome = true) :
    ∃ cat, cat.Same c ∧ deserialize (c.serialize ++ List.replicate (PAGE_SIZE - c.serialize.length) 0) = some cat ∧
      ∀ rest, deserialize (c.serialize ++ rest) = some cat ∧
        (c.tables.entries ≠ [] → read_catalog (c.serialize ++ rest) = some (cat, rest)) := by
  have hlen : c.serialize.length < 2 ^ 32 := lt_of_le_of_lt hfits (by decide)
  by_cases ht : c.tables.entries = []
  · have hempty : c.indexes.entries = [] := by
      cases hl : c.indexes.entries with
      | nil => rfl
      | cons e l =>
        -- an index would name a table
        have he := hindexes e.1 e.2 (AList.mem_lookup_iff.2 (by rw [hl]; exact List.mem_cons_self))
        rw [show c.tables = ∅ from AList.ext ht] at he
        cases he
    have hdata : ∀ rest, deserialize (c.serialize ++ rest) = some empty := fun rest =>
      if_pos ((serialize_take_four hlen rest).2 ht)
    refine ⟨empty, ⟨fun name => ?_, fun name => ?_⟩, hdata _, fun rest => ⟨hdata rest, fun hne => absurd ht hne⟩⟩
    · rw [show c.tables = ∅ from AList.ext ht]
      rfl
    · rw [show c.indexes = ∅ from AList.ext hempty]
      rfl
  · have hdata : ∀ rest, deserialize (c.serialize ++ rest) =
        some ⟨byName TableSchema.name (c.tables.entries.map Sigma.snd), byName IndexSchema.name (c.indexes.entries.map Sigma.snd)⟩ := by
      intro rest
      unfold deserialize
      rw [if_neg fun hz => ht ((serialize_take_four hlen rest).1 hz), reads_catalog hlen rest]
      rfl
    exact ⟨_, ⟨hc.tables.byName, hc.indexes.byName⟩, hdata _, fun rest => ⟨hdata rest, fun _ => reads_catalog hlen rest⟩⟩

/-- A table with an index on its column. -/
def one_index : Catalog :=
  ⟨AList.singleton small_table.name small_table, AList.singleton [105] ⟨[105], small_table.name, [[105, 100]], 3, true⟩⟩

theorem deserialize_page_index : ∃ cat, cat.Same one_index ∧
    deserialize (one_index.serialize ++ List.replicate (PAGE_SIZE - one_index.serialize.length) 0) = some cat ∧
      ∀ rest, deserialize (one_index.serialize ++ rest) = some cat ∧
        (one_index.tables.entries ≠ [] → read_catalog (one_index.serialize ++ rest) = some (cat, rest)) := by
  refine deserialize_page ⟨fun n x hx => ?_, fun n x hx => ?_⟩ (by decide +kernel) fun n x hx => ?_
  · cases List.mem_singleton.1 (AList.mem_lookup_iff.1 hx)
    rfl
  · cases List.mem_singleton.1 (AList.mem_lookup_iff.1 hx)
    rfl
  · cases List.mem_singleton.1 (AList.mem_lookup_iff.1 hx)
    decide

end Catalog

end GSDBEngine
