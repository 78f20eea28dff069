import GSDBEngine.Spec.Access
import GSDBEngine.Proof.Reroot

/-!
# Rows that are made of index entries

An entry is an indexed value with a primary key behind it. A covering read takes the two apart and puts them where they
came from.

* `IndexMatch.Proper`: what `find_index_prefix` returns. `covering_row_spec`: **the row that an entry gives.**
* `build_predicate_congr`, `project_row_congr`: a query sees the columns that it reads, and no others.
* `scan_covering_iff`: **a covering read keeps its promise exactly where the ranges and the names are as they should be.**
-/

namespace GSDBEngine

open Eff

variable {Q : Type} {tbl : Table} {S : Contents} {s : TableState} {m : IndexMatch} {idx : IndexBinding} {schema : TableSchema}
  {where_ : Option (WhereExpr Q)} {table_alias : Bytes} {columns : List SelectColumn} {order_by : List OrderByClause}

/-! ### The index -/

/-- Nothing is compared with NULL. -/
structure ColumnConstraint.NoNull (cc : ColumnConstraint) : Prop where
  eq : ∀ v, cc.eq = some v → v.isNull = false
  lo : ∀ v, cc.lo = some v → v.isNull = false
  hi : ∀ v, cc.hi = some v → v.isNull = false

theorem ColumnConstraint.noNull_empty : ColumnConstraint.empty.NoNull :=
  ⟨fun _ h => (by cases h), fun _ h => (by cases h), fun _ h => (by cases h)⟩

theorem ColumnConstraint.NoNull.add {cc : ColumnConstraint} (h : cc.NoNull) {v : Value} (hv : v.isNull = false) (op : CompareOp) :
    (cc.add op v).NoNull := by
  unfold ColumnConstraint.add
  split
  · exact ⟨fun w hw => by rw [← Option.some.inj hw, hv], h.lo, h.hi⟩
  · exact ⟨h.eq, fun w hw => by rw [← Option.some.inj hw, hv], h.hi⟩
  · exact ⟨h.eq, fun w hw => by rw [← Option.some.inj hw, hv], h.hi⟩
  · exact ⟨h.eq, h.lo, fun w hw => by rw [← Option.some.inj hw, hv]⟩
  · exact ⟨h.eq, h.lo, fun w hw => by rw [← Option.some.inj hw, hv]⟩
  · exact h

theorem coerce_isNull {v w : Value} {col_type : ColumnType} (h : coerce_equality_value v col_type = some w) (hv : v.isNull = false) :
    w.isNull = false := by
  unfold coerce_equality_value at h
  split at h
  · obtain rfl := Option.some.inj h
    rfl
  · split at h
    · cases h
    · split at h
      · obtain rfl := Option.some.inj h
        rfl
      · cases h
  · obtain rfl := Option.some.inj h
    exact hv

theorem ColumnConstraint.NoNull.coerce {cc : ColumnConstraint} (h : cc.NoNull) (col_type : ColumnType) : (cc.coerce col_type).NoNull := by
  refine ⟨fun v hv => (by cases hv), fun v hv => ?_, fun v hv => ?_⟩
  · obtain ⟨w, hw, hcoerce⟩ := Option.bind_eq_some_iff.1 hv
    exact coerce_isNull hcoerce (h.lo w hw)
  · obtain ⟨w, hw, hcoerce⟩ := Option.bind_eq_some_iff.1 hv
    exact coerce_isNull hcoerce (h.hi w hw)

theorem seed_value_isNull {c : CompareExpr Q} {outer : Option OuterContext} {v : Value}
    (h : c.seed_value schema table_alias outer = .ok (some v)) : v.isNull = false := by
  unfold CompareExpr.seed_value at h
  have hif : ∀ w : Value, (if w.isNull = true then none else some w) = some v → v.isNull = false := fun w hw => by
    split at hw
    · cases hw
    · rename_i hnull
      obtain rfl := Option.some.inj hw
      rwa [Bool.not_eq_true] at hnull
  split at h
  · exact hif _ (Except.ok.inj h)
  · split at h
    · cases h
    · split at h
      · cases h
      · obtain ⟨found, -, h⟩ := except_bind_ok h
        split at h
        · cases h
        · obtain ⟨w, -, h⟩ := except_bind_ok h
          exact hif w (Except.ok.inj h)

/-- Whatever is collected. -/
def Constraints.NoNull (constraints : Constraints) : Prop := ∀ col_name cc, constraints col_name = some cc → cc.NoNull

theorem collect_compare_noNull {c : CompareExpr Q} {outer : Option OuterContext} {out out' : Constraints}
    (h : collect_compare schema table_alias outer c out = .ok out') (hout : out.NoNull) : out'.NoNull := by
  unfold collect_compare at h
  split at h
  · rw [← Except.ok.inj h]
    exact hout
  · split at h
    · rw [← Except.ok.inj h]
      exact hout
    · obtain ⟨seed, hseed, h⟩ := except_bind_ok h
      cases seed with
      | none =>
        rw [← Except.ok.inj h]
        exact hout
      | some v =>
        rw [← Except.ok.inj h]
        intro col_name cc hcc
        have hold : ((out c.column.column_name).getD .empty).NoNull := by
          cases ho : out c.column.column_name with
          | none => exact ColumnConstraint.noNull_empty
          | some cc' => exact hout _ cc' ho
        by_cases heq : col_name = c.column.column_name
        · rw [heq, Function.update_self] at hcc
          rw [← Option.some.inj hcc]
          exact hold.add (seed_value_isNull hseed) c.op
        · rw [Function.update_of_ne heq] at hcc
          exact hout _ cc hcc

theorem collect_noNull {outer : Option OuterContext} : ∀ {expr : WhereExpr Q} {out out' : Constraints},
    collect_and_constraints schema table_alias outer expr out = .ok out' → out.NoNull → out'.NoNull
  | .leaf (.COMPARE c), out, out', h, hout => collect_compare_noNull h hout
  | .leaf (.EXISTS q), out, out', h, hout => by
    rw [← Except.ok.inj h]
    exact hout
  | .and left right, out, out', h, hout => by
    obtain ⟨out₁, h₁, h⟩ := except_bind_ok h
    exact collect_noNull h (collect_noNull h₁ hout)
  | .or left right, out, out', h, hout => by
    rw [← Except.ok.inj h]
    exact hout
  | .not left, out, out', h, hout => by
    rw [← Except.ok.inj h]
    exact hout

/-- Values and a range for columns of an index. -/
structure Usable (found : Key × ColumnConstraint) (width : ℕ) : Prop where
  length : found.1.length + (if found.2.is_range then 1 else 0) ≤ width
  indexable : is_indexable found.1 = true
  bounds : found.2.NoNull

theorem usable_nil {range : ColumnConstraint} {width : ℕ} (h : range.NoNull) : Usable ([], range) (width + 1) := by
  refine ⟨?_, rfl, h⟩
  show 0 + (if range.is_range then 1 else 0) ≤ width + 1
  split <;> omega

theorem Usable.cons {found : Key × ColumnConstraint} {width : ℕ} (h : Usable found width) {v : Value} (hv : v.isNull = false) :
    Usable (v :: found.1, found.2) (width + 1) := by
  refine ⟨?_, ?_, h.bounds⟩
  · have hle := h.length
    show found.1.length + 1 + (if found.2.is_range then 1 else 0) ≤ width + 1
    omega
  · unfold is_indexable
    rw [List.all_cons, hv]
    exact h.indexable

theorem match_columns_usable {constraints : Constraints} (h : constraints.NoNull) : ∀ column_names : List Bytes,
    Usable (match_columns constraints schema column_names) column_names.length
  | [] => ⟨Nat.le_refl 0, rfl, ColumnConstraint.noNull_empty⟩
  | col_name :: column_names => by
    have ih := match_columns_usable h column_names
    unfold match_columns
    split
    · rename_i cc col_idx hcc hidx
      have hcc := h _ cc hcc
      dsimp only
      split
      · rename_i v hv
        split
        · exact usable_nil ColumnConstraint.noNull_empty
        · rename_i coerced hcoerce
          exact ih.cons (coerce_isNull hcoerce (hcc.eq v hv))
      · exact usable_nil (hcc.coerce _)
    · exact usable_nil ColumnConstraint.noNull_empty

/-- **What is searched for** fits the index, and is no NULL. -/
structure IndexMatch.Proper (m : IndexMatch) (tbl : Table) : Prop where
  mem : m.index ∈ tbl.indexes
  length : m.effective_len ≤ m.index.schema.column_names.length
  indexable : is_indexable m.fixed = true
  bounds : m.range.NoNull

theorem best_match_mem {constraints : Constraints} : ∀ {indexes : List IndexBinding} {best : Option IndexMatch},
    indexes.foldl (fun best idx =>
      if (best.map IndexMatch.effective_len).getD 0 < (idx.matched constraints schema).effective_len then some (idx.matched constraints schema)
      else best) best = some m → best = some m ∨ ∃ idx ∈ indexes, m = idx.matched constraints schema
  | [], best, h => .inl h
  | idx :: indexes, best, h => by
    rw [List.foldl_cons] at h
    rcases best_match_mem h with h | ⟨idx', hmem, h⟩
    · split at h
      · exact .inr ⟨idx, List.mem_cons_self, (Option.some.inj h).symm⟩
      · exact .inl h
    · exact .inr ⟨idx', List.mem_cons_of_mem _ hmem, h⟩

theorem find_index_prefix_proper {outer : Option OuterContext} (h : find_index_prefix tbl where_ table_alias outer = .ok (some m)) :
    m.Proper tbl := by
  unfold find_index_prefix at h
  cases where_ with
  | none => cases h
  | some expr =>
    obtain ⟨constraints, hcollect, h⟩ := except_bind_ok h
    have hnull := collect_noNull hcollect fun _ _ h => by cases h
    rcases best_match_mem (Except.ok.inj h) with h | ⟨idx, hmem, rfl⟩
    · cases h
    · have husable : Usable (match_columns constraints tbl.schema idx.schema.column_names) idx.schema.column_names.length :=
        match_columns_usable hnull _
      exact ⟨hmem, husable.length, husable.indexable, husable.bounds⟩

/-! ### The entries -/

/-- Where the two searches cut a key. -/
def IndexMatch.split (m : IndexMatch) : ℕ := if m.range.is_range then m.fixed.length + 1 else m.index.schema.column_names.length

theorem lookup_eq (h : m.Proper tbl) :
    m.lookup_with_values s = .ok ((m.scan_keys s).map fun key => (key.take m.split, key.drop m.split)) := by
  have hlen := h.length
  unfold IndexMatch.effective_len at hlen
  unfold IndexMatch.lookup_with_values IndexMatch.split
  by_cases hrange : m.range.is_range = true
  · rw [if_pos hrange, if_pos hrange]
    rw [if_pos hrange] at hlen
    have hfind : m.find_range_keys s = .ok (m.scan_keys s) := by
      unfold IndexMatch.find_range_keys
      have hsome : ¬ ((m.range.lo.isNone && m.range.hi.isNone) = true) := by
        unfold ColumnConstraint.is_range at hrange
        cases hlo : m.range.lo <;> cases hhi : m.range.hi <;> simp_all
      have hnull : ¬ ((m.range.lo.any Value.isNull || m.range.hi.any Value.isNull) = true) := by
        rw [Bool.or_eq_true, Option.any_eq_true, Option.any_eq_true]
        rintro (⟨v, hv, hn⟩ | ⟨v, hv, hn⟩)
        · rw [h.bounds.lo v hv] at hn
          cases hn
        · rw [h.bounds.hi v hv] at hn
          cases hn
      rw [if_neg hsome, if_neg (by omega), h.indexable, if_neg (by decide), if_neg hnull]
      rfl
    rw [hfind]
    rfl
  · rw [if_neg hrange, if_neg hrange]
    rw [if_neg hrange] at hlen
    have hfind : m.find_keys s = .ok (m.scan_keys s) := by
      unfold IndexMatch.find_keys
      rw [h.indexable, if_neg (by decide), if_neg (by omega)]
      rfl
    rw [hfind]
    rfl

/-- **The keys that are scanned** are those of the rows whose entries match. -/
theorem mem_scan_keys (hrep : tbl.Represents s.trees S) (h : m.Proper tbl) {key : Key} :
    key ∈ m.scan_keys s ↔ ∃ e, m.Scans S e ∧ key = m.index.value e.2 ++ e.1 := by
  have himage := hrep.indexes m.index h.mem
  unfold IndexMatch.scan_keys
  rw [List.mem_filter, List.mem_map]
  constructor
  · rintro ⟨⟨⟨k, v⟩, hmem, rfl⟩, hsel⟩
    obtain ⟨-, e, he, hix, rfl⟩ := (himage k v).1 hmem
    exact ⟨e, ⟨he, hix, hsel⟩, rfl⟩
  · rintro ⟨e, ⟨he, hix, hsel⟩, rfl⟩
    exact ⟨⟨(_, []), (himage _ _).2 ⟨rfl, e, he, hix, rfl⟩, rfl⟩, hsel⟩

/-! ### The rows -/

/-- An index on columns of the table. -/
theorem binding_columns (htbl : ∃ l, Table.construct tbl.schema l = .ok tbl) (hi : idx ∈ tbl.indexes) :
    idx.column_indices.length = idx.schema.column_names.length ∧
      ∀ (i : ℕ) col_name, idx.schema.column_names[i]? = some col_name →
        ∃ col_idx, tbl.schema.column_index col_name = some col_idx ∧ idx.column_indices[i]? = some col_idx := by
  obtain ⟨l, hl⟩ := htbl
  obtain ⟨hbinds, htbl⟩ := Table.construct_eq_ok.1 hl
  rw [htbl] at hi
  obtain ⟨index, hmem, rfl⟩ := List.mem_map.1 hi
  refine ⟨List.length_map _, fun i col_name hname => ?_⟩
  obtain ⟨col_idx, hcol⟩ := Option.isSome_iff_exists.1 ((hbinds index hmem).2 col_name (List.mem_of_getElem? hname))
  refine ⟨col_idx, hcol, ?_⟩
  have hname : index.column_names[i]? = some col_name := hname
  show (index.column_names.map fun col_name => (tbl.schema.column_index col_name).getD 0)[i]? = _
  rw [List.getElem?_map, hname, Option.map_some, hcol]
  rfl

/-- Values put into a row that has them there already. -/
theorem fill_index_columns_spec {stored : Row} {index_key : Key} : ∀ {column_names : List Bytes} {i : ℕ} {row : Row},
    row.length = stored.length →
    (∀ j col_name, column_names[j]? = some col_name → ∃ c, schema.column_index col_name = some c ∧ c < stored.length ∧ index_key[i + j]? = stored[c]?) →
    ∃ row', fill_index_columns schema index_key i column_names row = .ok row' ∧ row'.length = stored.length ∧
      ∀ c, ((∃ col_name ∈ column_names, schema.column_index col_name = some c) ∧ row'[c]? = stored[c]?) ∨
        ((¬ ∃ col_name ∈ column_names, schema.column_index col_name = some c) ∧ row'[c]? = row[c]?)
  | [], i, row, hlen, _ => ⟨row, rfl, hlen, fun c => .inr ⟨fun ⟨_, h, _⟩ => absurd h List.not_mem_nil, rfl⟩⟩
  | col_name :: column_names, i, row, hlen, h => by
    obtain ⟨c, hc, hlt, hval⟩ := h 0 col_name rfl
    obtain ⟨v, hv⟩ : ∃ v, stored[c]? = some v := ⟨_, List.getElem?_eq_getElem hlt⟩
    have hrest : ∀ j name, column_names[j]? = some name →
        ∃ c, schema.column_index name = some c ∧ c < stored.length ∧ index_key[i + 1 + j]? = stored[c]? := fun j name hname => by
      have hj := h (j + 1) name hname
      rwa [show i + (j + 1) = i + 1 + j by omega] at hj
    have hset : (row.set c v).length = stored.length := by rw [List.length_set, hlen]
    obtain ⟨row', hfill, hlen', hall⟩ := fill_index_columns_spec hset hrest
    refine ⟨row', ?_, hlen', fun c' => ?_⟩
    · unfold fill_index_columns
      rw [hc]
      dsimp only
      rw [Nat.add_zero] at hval
      rw [hval, hv]
      exact hfill
    · rcases hall c' with ⟨⟨name, hmem, hname⟩, heq⟩ | ⟨hnone, heq⟩
      · exact .inl ⟨⟨name, List.mem_cons_of_mem _ hmem, hname⟩, heq⟩
      · by_cases hsame : c' = c
        · refine .inl ⟨⟨col_name, List.mem_cons_self, by rw [hsame, hc]⟩, ?_⟩
          rw [heq, hsame, List.getElem?_set_self (by omega), hv]
        · refine .inr ⟨?_, ?_⟩
          · rintro ⟨name, hmem, hname⟩
            rcases List.mem_cons.1 hmem with rfl | hmem
            · rw [hc] at hname
              exact hsame (Option.some.inj hname).symm
            · exact hnone ⟨name, hmem, hname⟩
          · rw [heq, List.getElem?_set_ne fun h => hsame h.symm]

theorem fill_key_columns_spec {stored : Row} {pk : Key} : ∀ {primary_key_indices : List UInt32} {i : ℕ} {row : Row},
    row.length = stored.length →
    (∀ j c, primary_key_indices[j]? = some c → c.toNat < stored.length ∧ pk[i + j]? = stored[c.toNat]?) →
    ∃ row', fill_key_columns pk i primary_key_indices row = .ok row' ∧ row'.length = stored.length ∧
      ∀ c, (c ∈ primary_key_indices.map UInt32.toNat ∧ row'[c]? = stored[c]?) ∨
        (c ∉ primary_key_indices.map UInt32.toNat ∧ row'[c]? = row[c]?)
  | [], i, row, hlen, _ => ⟨row, rfl, hlen, fun c => .inr ⟨List.not_mem_nil, rfl⟩⟩
  | pk_idx :: primary_key_indices, i, row, hlen, h => by
    obtain ⟨hlt, hval⟩ := h 0 pk_idx rfl
    obtain ⟨v, hv⟩ : ∃ v, stored[pk_idx.toNat]? = some v := ⟨_, List.getElem?_eq_getElem hlt⟩
    have hrest : ∀ j c, primary_key_indices[j]? = some c → c.toNat < stored.length ∧ pk[i + 1 + j]? = stored[c.toNat]? := fun j c hc => by
      have hj := h (j + 1) c hc
      rwa [show i + (j + 1) = i + 1 + j by omega] at hj
    have hset : (row.set pk_idx.toNat v).length = stored.length := by rw [List.length_set, hlen]
    obtain ⟨row', hfill, hlen', hall⟩ := fill_key_columns_spec hset hrest
    refine ⟨row', ?_, hlen', fun c => ?_⟩
    · unfold fill_key_columns
      rw [Nat.add_zero] at hval
      rw [hval, hv]
      exact hfill
    · rw [List.map_cons, List.mem_cons]
      rcases hall c with ⟨hmem, heq⟩ | ⟨hnone, heq⟩
      · exact .inl ⟨.inr hmem, heq⟩
      · by_cases hsame : c = pk_idx.toNat
        · refine .inl ⟨.inl hsame, ?_⟩
          rw [heq, hsame, List.getElem?_set_self (by omega), hv]
        · refine .inr ⟨fun hor => hor.elim hsame hnone, ?_⟩
          rw [heq, List.getElem?_set_ne fun h => hsame h.symm]

/-- **The row that an entry gives**: the stored one in the columns of the index and of the key, NULL elsewhere. -/
theorem covering_row_spec (htbl : ∃ l, Table.construct tbl.schema l = .ok tbl) (hi : idx ∈ tbl.indexes) {e : Key × Row} (he : tbl.Fits e) :
    ∃ row, covering_row tbl.schema idx.schema (idx.value e.2) e.1 = .ok row ∧ ∀ c, c < tbl.schema.columns.length →
      (c ∈ idx.column_indices ∨ c ∈ tbl.schema.primary_key_indices.map UInt32.toNat) ∧ row[c]? = e.2[c]? ∨
        ¬ (c ∈ idx.column_indices ∨ c ∈ tbl.schema.primary_key_indices.map UInt32.toNat) ∧ row[c]? = some .null := by
  obtain ⟨hwidth, hcols⟩ := binding_columns htbl hi
  have hlen := he.takes.1
  have hget : ∀ {c}, c < e.2.length → ((e.2[c]?).getD .null : Value) = e.2[c]?.getD .null ∧ some ((e.2[c]?).getD .null) = e.2[c]? := fun hc => by
    rw [List.getElem?_eq_getElem hc]
    exact ⟨rfl, rfl⟩
  have hindex : ∀ j col_name, idx.schema.column_names[j]? = some col_name →
      ∃ c, tbl.schema.column_index col_name = some c ∧ c < e.2.length ∧ (idx.value e.2)[0 + j]? = e.2[c]? := by
    intro j col_name hname
    obtain ⟨c, hc, hidx⟩ := hcols j col_name hname
    have hlt : c < e.2.length := by
      rw [hlen]
      exact column_index_lt hc
    refine ⟨c, hc, hlt, ?_⟩
    unfold IndexBinding.value
    rw [Nat.zero_add, List.getElem?_map, hidx]
    exact (hget hlt).2
  have hkey : ∀ j c, tbl.schema.primary_key_indices[j]? = some c → c.toNat < e.2.length ∧ e.1[0 + j]? = e.2[c.toNat]? := by
    intro j c hc
    obtain ⟨hkey, hmem⟩ := extract_primary_key_go he.key
    obtain ⟨v, hv, -⟩ := hmem c (List.mem_of_getElem? hc)
    refine ⟨(List.getElem?_eq_some_iff.1 hv).1, ?_⟩
    rw [hkey, Nat.zero_add, List.getElem?_map, hc, Option.map_some, hv]
    rfl
  have hnulls : (List.replicate tbl.schema.columns.length Value.null).length = e.2.length := by rw [List.length_replicate, hlen]
  obtain ⟨row₁, hfill, hlen₁, hall₁⟩ := fill_index_columns_spec hnulls hindex
  obtain ⟨row, hfill', -, hall⟩ := fill_key_columns_spec hlen₁ hkey
  have hmem : ∀ c, (∃ col_name ∈ idx.schema.column_names, tbl.schema.column_index col_name = some c) ↔ c ∈ idx.column_indices := by
    intro c
    constructor
    · rintro ⟨col_name, hname, hc⟩
      obtain ⟨j, hj⟩ := List.getElem?_of_mem hname
      obtain ⟨c', hc', hidx⟩ := hcols j col_name hj
      rw [hc] at hc'
      rw [Option.some.inj hc']
      exact List.mem_of_getElem? hidx
    · intro hc
      obtain ⟨j, hj⟩ := List.getElem?_of_mem hc
      have hlt : j < idx.schema.column_names.length := by
        rw [← hwidth]
        exact (List.getElem?_eq_some_iff.1 hj).1
      obtain ⟨c', hc', hidx⟩ := hcols j _ (List.getElem?_eq_getElem hlt)
      rw [hj] at hidx
      rw [Option.some.inj hidx]
      exact ⟨_, List.getElem_mem hlt, hc'⟩
  refine ⟨row, ?_, fun c hc => ?_⟩
  · unfold covering_row
    rw [hfill]
    exact hfill'
  · rcases hall c with ⟨hpk, heq⟩ | ⟨hpk, heq⟩
    · exact .inl ⟨.inr hpk, heq⟩
    · rcases hall₁ c with ⟨hidx, heq₁⟩ | ⟨hidx, heq₁⟩
      · exact .inl ⟨.inl ((hmem c).1 hidx), heq.trans heq₁⟩
      · refine .inr ⟨fun hor => hor.elim (fun h => hidx ((hmem c).2 h)) hpk, ?_⟩
        rw [heq, heq₁, List.getElem?_replicate, if_pos hc]

/-! ### What a query sees -/

section congr

variable {row row' : Row} {runner : SubqueryRunner Q} {cache : SubqueryCache Q} {covered : List Bytes}

/-- Two rows with the same values where the columns resolve. -/
def AgreeOn (schema : TableSchema) (table_alias : Bytes) (refs : List ColumnRef) (row row' : Row) : Prop :=
  ∀ ref ∈ refs, ∀ c, try_resolve_column ref schema table_alias = some c → row[c]? = row'[c]?

theorem get_congr {c : ℕ} (h : row[c]? = row'[c]?) : row.get c = row'.get c := by
  unfold Row.get
  rw [h]

theorem resolve_value_congr {ref : ColumnRef} (h : ∀ c, try_resolve_column ref schema table_alias = some c → row[c]? = row'[c]?) :
    resolve_value ref row ⟨schema, none, table_alias, []⟩ none = resolve_value ref row' ⟨schema, none, table_alias, []⟩ none := by
  unfold resolve_value Scope.try_resolve
  cases hc : try_resolve_column ref schema table_alias with
  | none => rfl
  | some c => exact get_congr (h c hc)

theorem evaluate_compare_congr {c : CompareExpr Q} (hsub : c.subquery = none)
    (h : AgreeOn schema table_alias (where_refs (.leaf (.COMPARE c))) row row') :
    evaluate_compare runner (some cache) row ⟨schema, none, table_alias, []⟩ none c =
      evaluate_compare runner (some cache) row' ⟨schema, none, table_alias, []⟩ none c := by
  have hcol := resolve_value_congr (h c.column List.mem_cons_self)
  have hrhs : c.rhs row ⟨schema, none, table_alias, []⟩ none = c.rhs row' ⟨schema, none, table_alias, []⟩ none := by
    unfold CompareExpr.rhs
    cases href : c.operand_column with
    | none => rfl
    | some ref =>
      refine resolve_value_congr (h ref (List.mem_cons_of_mem _ ?_))
      rw [href]
      exact List.mem_cons_self
  have hin : in_candidates runner row ⟨schema, none, table_alias, []⟩ c cache =
      in_candidates runner row' ⟨schema, none, table_alias, []⟩ c cache := by
    unfold in_candidates
    rw [hsub]
    cases cache.in_values c <;> rfl
  unfold evaluate_compare
  simp only [hcol, hrhs, hin]

theorem evaluate_expr_congr : ∀ {expr : WhereExpr Q}, where_is_coverable table_alias schema covered expr = true →
    AgreeOn schema table_alias (where_refs expr) row row' →
    expr.eval (evaluate_leaf runner (some cache) row ⟨schema, none, table_alias, []⟩ none) =
      expr.eval (evaluate_leaf runner (some cache) row' ⟨schema, none, table_alias, []⟩ none)
  | .leaf (.COMPARE c), hcov, h => by
    have hsub : c.subquery = none := by
      simp only [where_is_coverable, Bool.and_eq_true, Bool.not_eq_true', Option.isSome_eq_false_iff, Option.isNone_iff_eq_none] at hcov
      exact hcov.1.1
    exact evaluate_compare_congr hsub h
  | .leaf (.EXISTS q), hcov, h => by cases hcov
  | .and left right, hcov, h => by
    obtain ⟨hl, hr⟩ := (Bool.and_eq_true_iff ..).1 hcov
    have ihl := evaluate_expr_congr hl fun ref hmem => h ref (List.mem_append_left _ hmem)
    have ihr := evaluate_expr_congr hr fun ref hmem => h ref (List.mem_append_right _ hmem)
    unfold Formula.eval
    rw [ihl, ihr]
  | .or left right, hcov, h => by
    obtain ⟨hl, hr⟩ := (Bool.and_eq_true_iff ..).1 hcov
    have ihl := evaluate_expr_congr hl fun ref hmem => h ref (List.mem_append_left _ hmem)
    have ihr := evaluate_expr_congr hr fun ref hmem => h ref (List.mem_append_right _ hmem)
    unfold Formula.eval
    rw [ihl, ihr]
  | .not left, hcov, h => by
    have hcov : where_is_coverable table_alias schema covered left = true := hcov
    have h : AgreeOn schema table_alias (where_refs left) row row' := h
    have ih := evaluate_expr_congr hcov h
    unfold Formula.eval
    rw [ih]

theorem project_column_congr {ref : ColumnRef} (h : ∀ c, try_resolve_column ref schema table_alias = some c → row[c]? = row'[c]?) :
    project_column ref row schema none table_alias [] = project_column ref row' schema none table_alias [] := by
  unfold try_resolve_column at h
  unfold project_column
  by_cases hq : ref.table_name ≠ []
  · by_cases hm : table_name_matches ref.table_name schema table_alias = true
    · rw [if_neg (by simp [hm])] at h
      rw [if_pos hq, if_pos hq, if_pos hm, if_pos hm]
      cases hc : schema.column_index ref.column_name with
      | none => rfl
      | some c =>
        dsimp only
        rw [get_congr (h c hc)]
    · rw [if_pos hq, if_pos hq, if_neg hm, if_neg hm]
      rfl
  · rw [if_neg (by simp [not_not.1 hq])] at h
    rw [if_neg hq, if_neg hq]
    cases hc : schema.column_index ref.column_name with
    | none => rfl
    | some c =>
      show (do let v ← row.get c; pure (value_to_string v)) = (do let v ← row'.get c; pure (value_to_string v))
      rw [get_congr (h c hc)]

theorem project_row_congr (hstar : columns.any SelectColumn.is_star = false)
    (h : AgreeOn schema table_alias ((columns.filter fun sc => !sc.is_literal).map SelectColumn.column) row row') :
    project_row columns row schema none table_alias [] = project_row columns row' schema none table_alias [] := by
  unfold project_row
  rw [hstar, if_neg (by decide), if_neg (by decide)]
  clear hstar
  induction columns with
  | nil => rfl
  | cons sc columns ih =>
    have hone : (if sc.is_literal then pure (value_to_string sc.literal) else project_column sc.column row schema none table_alias []) =
        (if sc.is_literal then pure (value_to_string sc.literal) else project_column sc.column row' schema none table_alias []) := by
      by_cases hlit : sc.is_literal = true
      · rw [if_pos hlit, if_pos hlit]
      · rw [if_neg hlit, if_neg hlit]
        refine project_column_congr (h sc.column (List.mem_map.2 ⟨sc, List.mem_filter.2 ⟨List.mem_cons_self, ?_⟩, rfl⟩))
        rw [Bool.not_eq_true] at hlit
        rw [hlit]
        rfl
    have hrest := ih fun ref hmem => h ref ?_
    · rw [List.mapM_cons, List.mapM_cons, hone, hrest]
    · obtain ⟨sc', hsc', rfl⟩ := List.mem_map.1 hmem
      obtain ⟨hsc', hlit⟩ := List.mem_filter.1 hsc'
      exact List.mem_map.2 ⟨sc', List.mem_filter.2 ⟨List.mem_cons_of_mem _ hsc', hlit⟩, rfl⟩

end congr

/-! ### The rows that are returned -/

section rows

variable {row : Row} {e : Key × Row} {runner : SubqueryRunner Q} {cache : SubqueryCache Q}

/-- A stored row is read back. -/
theorem select_stored (hrep : tbl.Represents s.trees S) (hS : tbl.Sound S) (he : e ∈ S) :
    run_query (tbl.select_by_key e.1) s = .ok (some e.2) := by
  obtain ⟨b, hfind⟩ := hrep.find_of_mem he rfl
  obtain ⟨e', he', hr, hbytes⟩ := hrep.find_some hfind
  obtain rfl := hS.one e' he' e he hr
  have hrun : tbl.select_by_key e'.1 s = .ok (some e'.2) s := by
    have hwp : wp (tbl.select_by_key e'.1) (fun _ _ => False) (fun r s' => r = some e'.2 ∧ s' = s) s := by
      unfold Table.select_by_key
      rw [wp_bind, wp_btree_search, hfind]
      dsimp only
      rw [hbytes, wp_bind]
      exact ⟨rfl, rfl⟩
    cases hsel : tbl.select_by_key e'.1 s with
    | ok r s' =>
      obtain ⟨rfl, rfl⟩ := wp_ok hwp hsel
      rfl
    | error err s' => exact (wp_error hwp hsel).elim
  unfold run_query
  rw [hrun]
  rfl

/-- The rows of the entries print as the stored rows do. -/
theorem covering_rows_same {pred : Row → Except ExecErr Bool} {width : ℕ} {index : IndexSchema} {schema' : TableSchema}
    (hrows : ∀ e, m.Scans S e → run_query (tbl.select_by_key e.1) s = .ok (some e.2) ∧
      (m.index.value e.2 ++ e.1).take width = m.index.value e.2 ∧ (m.index.value e.2 ++ e.1).drop width = e.1 ∧
      ∃ row, covering_row schema' index (m.index.value e.2) e.1 = .ok row ∧ pred row = pred e.2 ∧
        project_row columns row tbl.schema none table_alias [] = project_row columns e.2 tbl.schema none table_alias []) :
    ∀ (keys : List Key) (results : List ScanResult), (∀ key ∈ keys, ∃ e, m.Scans S e ∧ key = m.index.value e.2 ++ e.1) →
      covering_rows pred schema' index (keys.map fun key => (key.take width, key.drop width)) = .ok results →
      ∃ stored, fetch_rows tbl pred s (keys.map fun key => key.drop width) = .ok stored ∧
        (results.map fun sr => project_row columns sr.row tbl.schema none table_alias []) =
          stored.map fun sr => project_row columns sr.row tbl.schema none table_alias []
  | [], results, _, h => by
    obtain rfl := Except.ok.inj h
    exact ⟨[], rfl, rfl⟩
  | key :: keys, results, hkeys, h => by
    have ih := covering_rows_same hrows keys
    obtain ⟨e, hscan, rfl⟩ := hkeys key List.mem_cons_self
    obtain ⟨hsel, htake, hdrop, row, hrow, hpred, hproj⟩ := hrows e hscan
    rw [List.map_cons, htake, hdrop] at h
    unfold covering_rows at h
    rw [hrow] at h
    obtain ⟨_, hrow', h⟩ := except_bind_ok h
    obtain rfl := Except.ok.inj hrow'
    obtain ⟨found, hfound, h⟩ := except_bind_ok h
    obtain ⟨rest, hrest, h⟩ := except_bind_ok h
    obtain rfl := Except.ok.inj h
    obtain ⟨stored, hstored, hsame⟩ := ih rest (fun k hk => hkeys k (List.mem_cons_of_mem _ hk)) hrest
    refine ⟨if found then ⟨e.1, e.2⟩ :: stored else stored, ?_, ?_⟩
    · rw [List.map_cons, hdrop]
      unfold fetch_rows
      rw [hsel]
      show (lift_exec (pred e.2) >>= fun found => fetch_rows tbl pred s (keys.map fun key => key.drop width) >>= fun results =>
        pure (if found then ⟨e.1, e.2⟩ :: results else results)) = _
      rw [← hpred, hfound, hstored]
      rfl
    · cases found with
      | true =>
        show project_row columns row tbl.schema none table_alias [] :: _ = project_row columns e.2 tbl.schema none table_alias [] :: _
        rw [hproj, hsame]
      | false => exact hsame

end rows

/-! ### The promise -/

/-- An entry, cut where the index ends. -/
theorem cut_entry (hS : tbl.Sound S) (htbl : ∃ l, Table.construct tbl.schema l = .ok tbl)
    (hi : m.index ∈ tbl.indexes) {e : Key × Row} (he : e ∈ S) :
    (m.index.value e.2 ++ e.1).take m.index.schema.column_names.length = m.index.value e.2 ∧
      (m.index.value e.2 ++ e.1).drop m.index.schema.column_names.length = e.1 ∧ e.1.length = tbl.schema.primary_key_indices.length := by
  have hlen : (m.index.value e.2).length = m.index.schema.column_names.length :=
    (value_length ..).trans (binding_columns htbl hi).1
  refine ⟨?_, ?_, key_length (hS.fits e he).key⟩
  · rw [← hlen, List.take_left]
  · rw [← hlen, List.drop_left]

theorem readsColumn_lt {c : ℕ} (h : ReadsColumn tbl where_ table_alias columns order_by c) : c < tbl.schema.columns.length := by
  obtain ⟨ref, -, href⟩ := h
  unfold try_resolve_column at href
  split at href
  · cases href
  · exact column_index_lt href

section promise

variable {pred : Row → Except ExecErr Bool} {e : Key × Row}

theorem scans_key (hrep : tbl.Represents s.trees S) (hproper : m.Proper tbl) (hscan : m.Scans S e) :
    m.index.value e.2 ++ e.1 ∈ m.scan_keys s := (mem_scan_keys hrep hproper).2 ⟨e, hscan, rfl⟩

/-- An entry is cut where the index ends, as far as the promise about the index goes. -/
theorem CoversIndex.split (hindex : CoversIndex m S) (hscan : m.Scans S e) : m.split = m.index.schema.column_names.length := by
  unfold IndexMatch.split
  by_cases hrange : m.range.is_range = true
  · rw [if_pos hrange]
    exact (hindex hrange).resolve_right fun hnone => hnone e hscan
  · rw [if_neg hrange]

/-- An entry that is scanned, cut in two. -/
theorem CoversIndex.cut (htbl : ∃ l, Table.construct tbl.schema l = .ok tbl) (hS : tbl.Sound S) (hproper : m.Proper tbl)
    (hindex : CoversIndex m S) (hscan : m.Scans S e) :
    ((m.index.value e.2 ++ e.1).take m.split, (m.index.value e.2 ++ e.1).drop m.split) = (m.index.value e.2, e.1) := by
  obtain ⟨htake, hdrop, -⟩ := cut_entry hS htbl hproper.mem hscan.1
  rw [hindex.split hscan, htake, hdrop]

theorem CoveringRight.covers_index (h : CoveringRight tbl where_ pred table_alias columns order_by m S s)
    (hrep : tbl.Represents s.trees S) (hproper : m.Proper tbl) : CoversIndex m S := by
  intro hrange
  by_cases hnone : ∀ e, ¬ m.Scans S e
  · exact .inr hnone
  · left
    push Not at hnone
    obtain ⟨e, hscan⟩ := hnone
    have hle := (h.in_bounds _ (lookup_eq hproper) _ (List.mem_map_of_mem (scans_key hrep hproper hscan))).1
    have hlen := hproper.length
    unfold IndexMatch.effective_len at hlen
    unfold IndexMatch.split at hle
    rw [if_pos hrange] at hlen hle
    rw [List.length_take] at hle
    omega

theorem CoveringRight.covers_key (h : CoveringRight tbl where_ pred table_alias columns order_by m S s)
    (htbl : ∃ l, Table.construct tbl.schema l = .ok tbl) (hrep : tbl.Represents s.trees S) (hS : tbl.Sound S) (hproper : m.Proper tbl) :
    CoversKey tbl where_ table_alias columns order_by m S := by
  intro c hreads
  by_cases hown : c ∈ m.index.column_indices ∨ c ∈ tbl.schema.primary_key_indices.map UInt32.toNat
  · exact hown.imp_right Or.inl
  · refine .inr (.inr fun e hscan => ?_)
    have hentry := List.mem_map_of_mem (f := fun key => (key.take m.split, key.drop m.split)) (scans_key hrep hproper hscan)
    rw [(h.covers_index hrep hproper).cut htbl hS hproper hscan] at hentry
    obtain ⟨row, hrow, hall⟩ := covering_row_spec htbl hproper.mem (hS.fits e hscan.1)
    rcases hall c (readsColumn_lt hreads) with ⟨hor, -⟩ | ⟨-, hnull⟩
    · exact absurd hor hown
    · rw [← h.agrees _ (lookup_eq hproper) _ hentry row hrow e hscan.1 rfl c hreads, hnull]

/-- An entry's row agrees with the stored one wherever the query looks. -/
theorem CoversKey.agrees (hkey : CoversKey tbl where_ table_alias columns order_by m S)
    (htbl : ∃ l, Table.construct tbl.schema l = .ok tbl) (hS : tbl.Sound S) (hproper : m.Proper tbl) (hscan : m.Scans S e) :
    ∃ row, covering_row tbl.schema m.index.schema (m.index.value e.2) e.1 = .ok row ∧
      ∀ c, ReadsColumn tbl where_ table_alias columns order_by c → row[c]? = e.2[c]? := by
  obtain ⟨row, hrow, hall⟩ := covering_row_spec htbl hproper.mem (hS.fits e hscan.1)
  refine ⟨row, hrow, fun c hreads => ?_⟩
  rcases hall c (readsColumn_lt hreads) with ⟨-, heq⟩ | ⟨hown, hnull⟩
  · exact heq
  · rcases hkey c hreads with hmem | hmem | hstored
    · exact absurd (.inl hmem) hown
    · exact absurd (.inr hmem) hown
    · rw [hnull, hstored e hscan]

/-- What is looked up is of entries that are scanned. -/
theorem CoversIndex.looked_up (htbl : ∃ l, Table.construct tbl.schema l = .ok tbl) (hrep : tbl.Represents s.trees S) (hS : tbl.Sound S)
    (hproper : m.Proper tbl) (hindex : CoversIndex m S) {entries : List (Key × Key)} (hentries : m.lookup_with_values s = .ok entries)
    {x : Key × Key} (hx : x ∈ entries) : ∃ e, m.Scans S e ∧ x = (m.index.value e.2, e.1) := by
  rw [lookup_eq hproper] at hentries
  obtain rfl := Except.ok.inj hentries
  obtain ⟨key, hmem, rfl⟩ := List.mem_map.1 hx
  obtain ⟨e, hscan, rfl⟩ := (mem_scan_keys hrep hproper).1 hmem
  exact ⟨e, hscan, hindex.cut htbl hS hproper hscan⟩

variable {runner : SubqueryRunner Q} {cache : SubqueryCache Q}

/-- A query sees the same in a row that agrees with another one where it looks. -/
theorem reads_same {row row' : Row} (hcov : is_select_coverable where_ table_alias columns order_by tbl.schema
    (covered_names tbl.schema m.index.schema) = true)
    (h : ∀ c, ReadsColumn tbl where_ table_alias columns order_by c → row[c]? = row'[c]?) :
    build_predicate tbl where_ table_alias runner cache row = build_predicate tbl where_ table_alias runner cache row' ∧
      project_row columns row tbl.schema none table_alias [] = project_row columns row' tbl.schema none table_alias [] := by
  obtain ⟨hcols, hwhere⟩ := (Bool.and_eq_true_iff ..).1 hcov
  obtain ⟨hcols, -⟩ := (Bool.and_eq_true_iff ..).1 hcols
  constructor
  · unfold build_predicate evaluate_where
    cases where_ with
    | none => rfl
    | some expr =>
      refine evaluate_expr_congr hwhere fun ref href c hc => h c ⟨ref, ?_, hc⟩
      unfold read_refs
      rw [Option.toList_some, List.flatMap_singleton]
      exact List.mem_append_left _ (List.mem_append_left _ href)
  · have hstar : columns.any SelectColumn.is_star = false := by
      rw [List.any_eq_false]
      intro sc hsc
      have hone := List.all_eq_true.1 hcols sc hsc
      rw [Bool.and_eq_true, Bool.not_eq_true'] at hone
      rw [hone.1]
      decide
    refine project_row_congr hstar fun ref href c hc => h c ⟨ref, ?_, hc⟩
    unfold read_refs
    exact List.mem_append_left _ (List.mem_append_right _ href)

/-- **What is printed is what the stored rows would give.** -/
theorem covers_same (htbl : ∃ l, Table.construct tbl.schema l = .ok tbl) (hrep : tbl.Represents s.trees S) (hS : tbl.Sound S)
    (hm : find_index_prefix tbl where_ table_alias none = .ok (some m))
    (hcov : is_select_coverable where_ table_alias columns order_by tbl.schema (covered_names tbl.schema m.index.schema) = true)
    (hindex : CoversIndex m S) (hkey : CoversKey tbl where_ table_alias columns order_by m S) {results : List ScanResult}
    (hresults : scan_covering tbl where_ (build_predicate tbl where_ table_alias runner cache) table_alias columns order_by s =
      .ok (some results)) :
    ∃ stored, stored_rows tbl (build_predicate tbl where_ table_alias runner cache) m s = .ok stored ∧
      (results.map fun sr => project_row columns sr.row tbl.schema none table_alias []).Perm
        (stored.map fun sr => project_row columns sr.row tbl.schema none table_alias []) := by
  have hproper := find_index_prefix_proper hm
  unfold scan_covering at hresults
  rw [hm] at hresults
  obtain ⟨_, hfound, hresults⟩ := except_bind_ok hresults
  obtain rfl := Except.ok.inj hfound
  dsimp only at hresults
  rw [if_pos hcov, lookup_eq hproper] at hresults
  obtain ⟨entries, hentries, hresults⟩ := except_bind_ok hresults
  obtain rfl := Except.ok.inj hentries
  obtain ⟨rows, hrows, hresults⟩ := except_bind_ok hresults
  obtain rfl := Option.some.inj (Except.ok.inj hresults)
  have hentry : ∀ e, m.Scans S e → run_query (tbl.select_by_key e.1) s = .ok (some e.2) ∧
      (m.index.value e.2 ++ e.1).take m.split = m.index.value e.2 ∧ (m.index.value e.2 ++ e.1).drop m.split = e.1 ∧
      ∃ row, covering_row tbl.schema m.index.schema (m.index.value e.2) e.1 = .ok row ∧
        build_predicate tbl where_ table_alias runner cache row = build_predicate tbl where_ table_alias runner cache e.2 ∧
        project_row columns row tbl.schema none table_alias [] = project_row columns e.2 tbl.schema none table_alias [] := by
    intro e hscan
    obtain ⟨htake, hdrop⟩ := Prod.mk.inj (hindex.cut htbl hS hproper hscan)
    obtain ⟨row, hrow, heq⟩ := hkey.agrees htbl hS hproper hscan
    exact ⟨select_stored hrep hS hscan.1, htake, hdrop, row, hrow, reads_same hcov heq⟩
  obtain ⟨stored, hstored, hproj⟩ := covering_rows_same hentry (m.scan_keys s) rows (fun key => (mem_scan_keys hrep hproper).1) hrows
  refine ⟨stored, ?_, by rw [hproj]⟩
  unfold stored_rows
  rw [← hstored]
  by_cases hempty : m.scan_keys s = []
  · rw [hempty]
    rfl
  · obtain ⟨key, hmem⟩ := List.exists_mem_of_ne_nil _ hempty
    obtain ⟨e, hscan, -⟩ := (mem_scan_keys hrep hproper).1 hmem
    rw [hindex.split hscan]

/-- **A covering read keeps its promise** exactly if a range is over the last column of the index, and no column is read that has the
name of a key column only. -/
theorem scan_covering_iff (htbl : ∃ l, Table.construct tbl.schema l = .ok tbl) (hrep : tbl.Represents s.trees S) (hS : tbl.Sound S)
    (hm : find_index_prefix tbl where_ table_alias none = .ok (some m))
    (hcov : is_select_coverable where_ table_alias columns order_by tbl.schema (covered_names tbl.schema m.index.schema) = true) :
    CoveringRight tbl where_ (build_predicate tbl where_ table_alias runner cache) table_alias columns order_by m S s ↔
      CoversIndex m S ∧ CoversKey tbl where_ table_alias columns order_by m S := by
  have hproper := find_index_prefix_proper hm
  constructor
  · intro h
    exact ⟨h.covers_index hrep hproper, h.covers_key htbl hrep hS hproper⟩
  · rintro ⟨hindex, hkey⟩
    refine ⟨fun entries hentries x hx => ?_, fun entries hentries x hx row hrow stored hstored hpk c hreads => ?_,
      fun results hresults => covers_same htbl hrep hS hm hcov hindex hkey hresults⟩
    · obtain ⟨e, hscan, rfl⟩ := hindex.looked_up htbl hrep hS hproper hentries hx
      obtain ⟨-, -, hlen⟩ := cut_entry hS htbl hproper.mem hscan.1
      have hvalue : (m.index.value e.2).length = m.index.schema.column_names.length :=
        (value_length ..).trans (binding_columns htbl hproper.mem).1
      exact ⟨hvalue.ge, hlen.ge⟩
    · obtain ⟨e, hscan, rfl⟩ := hindex.looked_up htbl hrep hS hproper hentries hx
      obtain rfl := hS.one stored hstored e hscan.1 (congrArg Key.rank hpk)
      obtain ⟨row', hrow', heq⟩ := hkey.agrees htbl hS hproper hscan
      rw [hrow'] at hrow
      rw [← Except.ok.inj hrow]
      exact heq c hreads

end promise

/-! ### An index over two columns -/

def pair_column (name : UInt8) : Column := ⟨[name], .INT, 0, true, false, false, false, .null, fun _ => rfl⟩

/-- `CREATE TABLE t (k INT PRIMARY KEY, a INT, b INT)`. -/
def pair_schema : TableSchema where
  name := [116]
  columns := [pair_column 107, pair_column 97, pair_column 98]
  root_page := 1
  primary_key_indices := [0]
  checks := []
  foreign_keys := []
  create_sql := []

/-- `CREATE INDEX i ON t (a, b)`. -/
def pair_index : IndexSchema := ⟨[105], [116], [[97], [98]], 1, false⟩

def pair_table : Table := ⟨pair_schema, [pair_index.binding pair_schema]⟩

def pair_row : Key × Row := ([.int 1], [.int 1, .int 5, .int 7])

theorem pair_root : (1 : UInt32).toNat ≠ INVALID_PAGE := by decide

def pair_trees : Trees where
  tree
    | .table _ => ⟨⟨[(pair_row.1, [0, 1, 0, 0, 0, 5, 0, 0, 0, 7, 0, 0, 0])], List.pairwise_singleton ..⟩, 1, pair_root⟩
    | .index _ => ⟨⟨[([.int 5, .int 7, .int 1], [])], List.pairwise_singleton ..⟩, 1, pair_root⟩
  roots _ := ⟨1, pair_root⟩

def pair_state : TableState := ⟨pair_trees, 1, fun _ => 1, 2⟩

theorem pair_represents : pair_table.Represents pair_state.trees {pair_row} where
  rows k bytes h := by
    obtain ⟨rfl, rfl⟩ := Prod.mk.inj (List.mem_singleton.1 h)
    exact ⟨pair_row.2, rfl, rfl⟩
  stored e h := by
    obtain rfl : e = pair_row := h
    exact ⟨_, List.mem_singleton.2 rfl, rfl⟩
  indexes idx h key v := by
    obtain rfl := List.mem_singleton.1 h
    constructor
    · intro hmem
      obtain ⟨rfl, rfl⟩ := Prod.mk.inj (List.mem_singleton.1 hmem)
      exact ⟨rfl, pair_row, rfl, rfl, rfl⟩
    · rintro ⟨rfl, e, he, -, rfl⟩
      obtain rfl : e = pair_row := he
      exact List.mem_singleton.2 rfl

theorem pair_sound : pair_table.Sound {pair_row} where
  fits e h := by
    obtain rfl : e = pair_row := h
    refine ⟨rfl, ⟨_, rfl⟩, fun idx hi => ?_, by decide⟩
    obtain rfl := List.mem_singleton.1 hi
    rfl
  one e h e' h' _ := (Set.mem_singleton_iff.1 h).trans (Set.mem_singleton_iff.1 h').symm
  unique _ _ e h e' h' _ := (Set.mem_singleton_iff.1 h).trans (Set.mem_singleton_iff.1 h').symm

/-- `SELECT a`. -/
def select_a : List SelectColumn := [⟨false, false, .null, ⟨[], [97]⟩, .NONE⟩]

/-- `WHERE a op n`. -/
def where_a (op : CompareOp) (n : Int32) : Option (WhereExpr Unit) := some (.leaf (.COMPARE ⟨⟨[], [97]⟩, op, .int n, none, none⟩))

def pair_subqueries : SubqueryRunner Unit × SubqueryCache Unit :=
  (⟨fun _ _ => .ok false, fun _ _ => .ok []⟩, ⟨fun _ => .missing, fun _ => .missing⟩)

/-- `a = 5`. -/
def equal_match : IndexMatch := ⟨pair_index.binding pair_schema, [.int 5], .empty⟩

/-- `a > 3`. -/
def above_match : IndexMatch := ⟨pair_index.binding pair_schema, [], ⟨none, some (.int 3), false, none, false⟩⟩

theorem scan_covering_iff_equal :
    CoveringRight pair_table (where_a .EQ 5) (build_predicate pair_table (where_a .EQ 5) [] pair_subqueries.1 pair_subqueries.2) [] select_a []
      equal_match {pair_row} pair_state := by
  refine (scan_covering_iff ⟨[pair_index], rfl⟩ pair_represents pair_sound rfl rfl).2 ⟨fun h => (by cases h), fun c hreads => .inl ?_⟩
  obtain ⟨ref, href, hc⟩ := hreads
  have href : ref = ⟨[], [97]⟩ := by
    rcases List.mem_cons.1 href with h | h
    · exact h
    · exact List.mem_singleton.1 h
  rw [href] at hc
  obtain rfl : 1 = c := Option.some.inj hc
  exact List.mem_cons_self

/-- **The range is over the first column of two**: the key is cut behind it, and the second column is read behind the end. -/
theorem range_cuts_entry :
    (∃ l, Table.construct pair_table.schema l = .ok pair_table) ∧ pair_table.Represents pair_state.trees {pair_row} ∧
      pair_table.Sound {pair_row} ∧ find_index_prefix pair_table (where_a .GT 3) [] none = .ok (some above_match) ∧
      scan_covering pair_table (where_a .GT 3) (build_predicate pair_table (where_a .GT 3) [] pair_subqueries.1 pair_subqueries.2) [] select_a []
        pair_state = .error .out_of_bounds ∧
      ¬ CoveringRight pair_table (where_a .GT 3) (build_predicate pair_table (where_a .GT 3) [] pair_subqueries.1 pair_subqueries.2) [] select_a []
        above_match {pair_row} pair_state := by
  refine ⟨⟨[pair_index], rfl⟩, pair_represents, pair_sound, rfl, rfl, fun h => ?_⟩
  have hlookup : above_match.lookup_with_values pair_state = .ok [([.int 5], [.int 7, .int 1])] := rfl
  have hle := (h.in_bounds _ hlookup _ List.mem_cons_self).1
  exact absurd hle (by decide)

end GSDBEngine
