import GSDBEngine.Spec.ExecuteSelect
import GSDBEngine.Lib.SideBySide
import GSDBEngine.Proof.IndexScan
import GSDBEngine.Proof.OrderBy
import GSDBEngine.Proof.Join

/-!
# What a SELECT prints

The rows that an index covers are made of its entries, and the columns that nothing reads are NULL in them. The order, the first rows of it
and what is printed depend on the columns that are read, and on no others: a SELECT prints the same as if it had fetched every row.

* `plain_result_alike`: what is printed for rows that agree where the SELECT looks.
* `covering_rows_alike`: the rows of the entries, beside those that are stored.
* `select_covering`: **an index that covers a SELECT changes nothing of it.**
-/

namespace GSDBEngine

open Eff

variable {Q : Type} {tbl : Table} {S : Contents} {s : TableState} {m : IndexMatch} {stmt : SelectStmt Q} {where_ : Option (WhereExpr Q)}
  {table_alias : Bytes} {columns : List SelectColumn} {order_by : List OrderByClause}

/-! ### Rows that agree where a SELECT looks -/

/-- Two rows that agree in the columns that are read. -/
def ReadAlike (tbl : Table) (where_ : Option (WhereExpr Q)) (table_alias : Bytes) (columns : List SelectColumn) (order_by : List OrderByClause)
    (sr sr' : ScanResult) : Prop :=
  ∀ c, ReadsColumn tbl where_ table_alias columns order_by c → sr.row[c]? = sr'.row[c]?

section result

variable {rows rows' : List ScanResult}

/-- The name of an ORDER BY column. -/
theorem readsColumn_order_by {ob : OrderByClause} (hob : ob ∈ order_by) {c : ℕ}
    (h : resolve_column ob.operand.column tbl.schema table_alias = .ok c) : ReadsColumn tbl where_ table_alias columns order_by c := by
  refine ⟨ob.operand.column, ?_, ?_⟩
  · unfold read_refs
    exact List.mem_append_right _ (List.mem_map_of_mem hob)
  · unfold resolve_column at h
    unfold try_resolve_column
    split at h
    · cases h
    · rename_i hown
      rw [if_neg hown]
      cases hcol : tbl.schema.column_index ob.operand.column.column_name with
      | none =>
        rw [hcol] at h
        cases h
      | some idx =>
        rw [hcol] at h
        rw [Except.ok.inj h]

/-- Rows that are sorted by a column that is read. -/
theorem sort_alike {c : ℕ} (hc : ReadsColumn tbl where_ table_alias columns order_by c) (ascending : Bool)
    (h : List.Forall₂ (ReadAlike tbl where_ table_alias columns order_by) rows rows') :
    Alike (List.Forall₂ (ReadAlike tbl where_ table_alias columns order_by)) (sort_by_column c ascending ScanResult.row rows)
      (sort_by_column c ascending ScanResult.row rows') := by
  have hkey : ∀ a a', ReadAlike tbl where_ table_alias columns order_by a a' → sort_key c ScanResult.row a = sort_key c ScanResult.row a' := by
    intro a a' ha
    unfold sort_key
    rw [List.getD_eq_getElem?_getD, List.getD_eq_getElem?_getD, ha c hc]
  have hread : (rows.forM fun a => discard (a.row.get c) : Except ExecErr Unit) = rows'.forM fun a => discard (a.row.get c) :=
    Alike.forM (fun a a' ha => by rw [get_congr (ha c hc)]) h
  have hsorted : List.Forall₂ (ReadAlike tbl where_ table_alias columns order_by)
      (StableSort.sort (fun a b => order_by_less ascending (sort_key c ScanResult.row a) (sort_key c ScanResult.row b)) rows)
      (StableSort.sort (fun a b => order_by_less ascending (sort_key c ScanResult.row a) (sort_key c ScanResult.row b)) rows') :=
    StableSort.sort_forall₂ (fun a b a' b' ha hb => by rw [hkey a a' ha, hkey b b' hb]) h
  unfold sort_by_column
  rw [h.length_eq, hread]
  by_cases htwo : 2 ≤ rows'.length
  · rw [if_pos htwo, if_pos htwo]
    exact (Alike.of_eq rfl).bind fun _ _ _ => .ok hsorted
  · rw [if_neg htwo, if_neg htwo]
    exact .ok hsorted

/-- **What is printed** for rows that agree where the SELECT looks. -/
theorem plain_result_alike
    (hcov : is_select_coverable stmt.where_ stmt.table_alias stmt.columns stmt.order_by tbl.schema (covered_names tbl.schema m.index.schema) = true)
    (h : List.Forall₂ (ReadAlike tbl stmt.where_ stmt.table_alias stmt.columns stmt.order_by) rows rows') :
    stmt.plain_result ⟨tbl.schema, none, stmt.table_alias, []⟩ rows = stmt.plain_result ⟨tbl.schema, none, stmt.table_alias, []⟩ rows' := by
  have hsorted : Alike (List.Forall₂ (ReadAlike tbl stmt.where_ stmt.table_alias stmt.columns stmt.order_by))
      (stmt.sorted_rows ⟨tbl.schema, none, stmt.table_alias, []⟩ rows) (stmt.sorted_rows ⟨tbl.schema, none, stmt.table_alias, []⟩ rows') := by
    unfold SelectStmt.sorted_rows
    cases horder : stmt.order_by with
    | nil => exact .ok (horder ▸ h)
    | cons ob obs =>
      show Alike _ (resolve_column ob.operand.column tbl.schema stmt.table_alias >>= _) (resolve_column ob.operand.column tbl.schema stmt.table_alias >>= _)
      cases hres : resolve_column ob.operand.column tbl.schema stmt.table_alias with
      | error e => exact .inr ⟨e, rfl, rfl⟩
      | ok c =>
        have hc := @readsColumn_order_by Q tbl stmt.where_ stmt.table_alias stmt.columns (ob :: obs) ob List.mem_cons_self c hres
        exact sort_alike hc ob.ascending (horder ▸ h)
  have hlimited : ∀ {sorted sorted' : List ScanResult},
      List.Forall₂ (ReadAlike tbl stmt.where_ stmt.table_alias stmt.columns stmt.order_by) sorted sorted' →
      List.Forall₂ (ReadAlike tbl stmt.where_ stmt.table_alias stmt.columns stmt.order_by) (stmt.limit_rows sorted) (stmt.limit_rows sorted') := by
    intro sorted sorted' h
    unfold SelectStmt.limit_rows
    cases stmt.limit with
    | none => exact h
    | some lim => exact List.forall₂_take _ h
  have hprinted : ∀ {sorted sorted' : List ScanResult},
      List.Forall₂ (ReadAlike tbl stmt.where_ stmt.table_alias stmt.columns stmt.order_by) sorted sorted' →
      Alike (List.Forall₂ (· = ·)) (stmt.printed_rows ⟨tbl.schema, none, stmt.table_alias, []⟩ sorted)
        (stmt.printed_rows ⟨tbl.schema, none, stmt.table_alias, []⟩ sorted') := by
    intro sorted sorted' h
    refine Alike.mapM (fun sr sr' hsr => Alike.of_eq ?_) h
    exact (@reads_same Q tbl m stmt.where_ stmt.table_alias stmt.columns stmt.order_by
      ⟨fun _ _ => .ok false, fun _ _ => .ok []⟩ uncached sr.row sr'.row hcov hsr).2
  unfold SelectStmt.plain_result
  by_cases haggregate : (stmt.order_by.head?.any fun ob => !ob.operand.is_plain) = true
  · rw [if_pos haggregate, if_pos haggregate]
  · rw [if_neg haggregate, if_neg haggregate]
    refine Alike.eq (hsorted.bind fun sorted sorted' h => ?_)
    refine (hprinted (hlimited h)).bind fun printed printed' h => .ok ?_
    rw [List.forall₂_eq_eq_eq] at h
    rw [h]

end result

/-! ### The rows of the entries -/

section covering

variable {pred : Row → Except ExecErr Bool}

/-- An entry's row, where it agrees with the stored one. -/
structure EntryRow (tbl : Table) (pred : Row → Except ExecErr Bool) (where_ : Option (WhereExpr Q)) (table_alias : Bytes)
    (columns : List SelectColumn) (order_by : List OrderByClause) (m : IndexMatch) (e : Key × Row) (row : Row) : Prop where
  made : covering_row tbl.schema m.index.schema (m.index.value e.2) e.1 = .ok row
  tested : pred row = pred e.2
  read : ∀ c, ReadsColumn tbl where_ table_alias columns order_by c → row[c]? = e.2[c]?

/-- **The rows of the entries, beside those that are stored.** -/
theorem covering_rows_alike {width : ℕ} (hrows : ∀ e, m.Scans S e → run_query (tbl.select_by_key e.1) s = .ok (some e.2) ∧
      (m.index.value e.2 ++ e.1).take width = m.index.value e.2 ∧ (m.index.value e.2 ++ e.1).drop width = e.1 ∧
      ∃ row, EntryRow tbl pred where_ table_alias columns order_by m e row) :
    ∀ keys : List Key, (∀ key ∈ keys, ∃ e, m.Scans S e ∧ key = m.index.value e.2 ++ e.1) →
      Alike (List.Forall₂ (ReadAlike tbl where_ table_alias columns order_by))
        (covering_rows pred tbl.schema m.index.schema (keys.map fun key => (key.take width, key.drop width)))
        (fetch_rows tbl pred s (keys.map fun key => key.drop width))
  | [], _ => .ok .nil
  | key :: keys, hkeys => by
    have ih := covering_rows_alike hrows keys fun k hk => hkeys k (List.mem_cons_of_mem _ hk)
    obtain ⟨e, hscan, rfl⟩ := hkeys key List.mem_cons_self
    obtain ⟨hsel, htake, hdrop, row, hmade, htested, hread⟩ := hrows e hscan
    rw [List.map_cons, List.map_cons, htake, hdrop]
    unfold covering_rows fetch_rows
    rw [hmade, hsel, except_ok_bind, except_ok_bind, htested]
    refine (Alike.of_eq rfl).bind fun found found' hfound => ?_
    subst hfound
    refine ih.bind fun results stored h => .ok ?_
    cases found with
    | true => exact .cons hread h
    | false => exact h

end covering

/-! ### A SELECT that an index covers -/

section select

variable {runner : SubqueryRunner Q} {precompute : WhereExpr Q → Except ExecErr (SubqueryCache Q)} {tables : Bytes → Option Table}

/-- An index covers what a SELECT reads: a range is over its last column, and no column is read that has the name of a key column only. -/
def CoversSelect (tbl : Table) (stmt : SelectStmt Q) (S : Contents) : Prop :=
  ∀ m, find_index_prefix tbl stmt.where_ stmt.table_alias none = .ok (some m) →
    is_select_coverable stmt.where_ stmt.table_alias stmt.columns stmt.order_by tbl.schema (covered_names tbl.schema m.index.schema) = true →
    CoversIndex m S ∧ CoversKey tbl stmt.where_ stmt.table_alias stmt.columns stmt.order_by m S

/-- The rows that are made of the entries print as those that are fetched, or no index covers the SELECT. -/
theorem scan_covering_cases (htbl : ∃ l, Table.construct tbl.schema l = .ok tbl) (hrep : tbl.Represents s.trees S) (hS : tbl.Sound S)
    (hcovers : CoversSelect tbl stmt S) (cache : SubqueryCache Q) :
    scan_covering tbl stmt.where_ (build_predicate tbl stmt.where_ stmt.table_alias runner cache) stmt.table_alias stmt.columns stmt.order_by s =
        .ok none ∨
      Alike (fun covering fetched => ∃ rows, covering = some rows ∧
          stmt.plain_result ⟨tbl.schema, none, stmt.table_alias, []⟩ rows = stmt.plain_result ⟨tbl.schema, none, stmt.table_alias, []⟩ fetched)
        (scan_covering tbl stmt.where_ (build_predicate tbl stmt.where_ stmt.table_alias runner cache) stmt.table_alias stmt.columns stmt.order_by s)
        (scan_with_index tbl stmt.where_ (build_predicate tbl stmt.where_ stmt.table_alias runner cache) stmt.table_alias none s) := by
  unfold scan_covering scan_with_index
  cases hfind : find_index_prefix tbl stmt.where_ stmt.table_alias none with
  | error e => exact .inr (.inr ⟨.exec e, rfl, rfl⟩)
  | ok found =>
    cases found with
    | none => exact .inl rfl
    | some m =>
      by_cases hcov : is_select_coverable stmt.where_ stmt.table_alias stmt.columns stmt.order_by tbl.schema
          (covered_names tbl.schema m.index.schema) = true
      · right
        obtain ⟨hindex, hkey⟩ := hcovers m hfind hcov
        have hproper := find_index_prefix_proper hfind
        -- what each entry gives
        have hentry : ∀ e, m.Scans S e → run_query (tbl.select_by_key e.1) s = .ok (some e.2) ∧
            (m.index.value e.2 ++ e.1).take m.split = m.index.value e.2 ∧ (m.index.value e.2 ++ e.1).drop m.split = e.1 ∧
            ∃ row, EntryRow tbl (build_predicate tbl stmt.where_ stmt.table_alias runner cache) stmt.where_ stmt.table_alias stmt.columns
              stmt.order_by m e row := by
          intro e hscan
          obtain ⟨htake, hdrop⟩ := Prod.mk.inj (hindex.cut htbl hS hproper hscan)
          obtain ⟨row, hmade, hread⟩ := hkey.agrees htbl hS hproper hscan
          exact ⟨select_stored hrep hS hscan.1, htake, hdrop, row, hmade, (reads_same hcov hread).1, hread⟩
        have halike := covering_rows_alike hentry (m.scan_keys s) fun key => (mem_scan_keys hrep hproper).1
        show Alike _ (if _ then m.lookup_with_values s >>= _ else _) (m.index_lookup s >>= _)
        rw [if_pos hcov, lookup_eq hproper, index_lookup_eq hproper, except_ok_bind, except_ok_bind]
        rw [← bind_pure (fetch_rows tbl _ s _)]
        exact halike.bind fun rows fetched h => .ok ⟨rows, rfl, plain_result_alike hcov h⟩
      · left
        show (if _ then m.lookup_with_values s >>= _ else _) = _
        rw [if_neg hcov]
        rfl

/-- The rows of a plain SELECT print as those that are fetched from the table. -/
theorem plain_rows_alike (htbl : ∃ l, Table.construct tbl.schema l = .ok tbl) (hrep : tbl.Represents s.trees S) (hS : tbl.Sound S)
    (hcovers : stmt.joins = [] → CoversSelect tbl stmt S) :
    Alike (fun found fetched => stmt.plain_result found.2 found.1 = stmt.plain_result fetched.2 fetched.1)
      (stmt.plain_rows runner precompute tables tbl s) (stmt.filtered_rows runner precompute tables tbl s) := by
  have hsame : ∀ x : Except SelectErr (List ScanResult × Scope),
      Alike (fun found fetched => stmt.plain_result found.2 found.1 = stmt.plain_result fetched.2 fetched.1) x x := by
    intro x
    cases x with
    | error e => exact .inr ⟨e, rfl, rfl⟩
    | ok found => exact .ok rfl
  unfold SelectStmt.plain_rows SelectStmt.filtered_rows
  cases hjoins : stmt.joins with
  | cons join joins =>
    dsimp only
    exact hsame _
  | nil =>
    dsimp only
    unfold SelectStmt.table_rows
    cases hcache : stmt.where_cache precompute with
    | error e => exact hsame _
    | ok cache =>
      rcases @scan_covering_cases Q tbl S s stmt runner htbl hrep hS (hcovers hjoins) cache with hnone | halike
      · -- both fetch the rows
        show Alike _ ((scan_covering ..).mapError SelectErr.scan >>= _) ((scan_with_index ..).mapError SelectErr.scan >>= _)
        rw [hnone]
        exact hsame _
      · refine (halike.mapError SelectErr.scan).bind fun covering fetched h => ?_
        obtain ⟨rows, rfl, hprinted⟩ := h
        exact .ok hprinted

/-- **An index that covers a SELECT changes nothing of it.** -/
theorem select_kind_covering (htbl : ∃ l, Table.construct tbl.schema l = .ok tbl) (hrep : tbl.Represents s.trees S) (hS : tbl.Sound S)
    (hcovers : stmt.joins = [] → CoversSelect tbl stmt S) :
    stmt.select_kind runner precompute tables tbl s (stmt.plain_rows runner precompute tables tbl s) =
      stmt.select_kind runner precompute tables tbl s (stmt.filtered_rows runner precompute tables tbl s) := by
  have halike := @plain_rows_alike Q tbl S s stmt runner precompute tables htbl hrep hS hcovers
  have hplain : (stmt.plain_rows runner precompute tables tbl s >>= fun found => (stmt.plain_result found.2 found.1).mapError fun e => SelectErr.scan (.exec e)) =
      stmt.filtered_rows runner precompute tables tbl s >>= fun found => (stmt.plain_result found.2 found.1).mapError fun e => SelectErr.scan (.exec e) := by
    refine Alike.eq (halike.bind fun found fetched h => ?_)
    rw [h]
    exact Alike.of_eq rfl
  unfold SelectStmt.select_kind
  split
  · rfl
  · split
    · rfl
    · split
      · rfl
      · exact hplain

end select

end GSDBEngine
