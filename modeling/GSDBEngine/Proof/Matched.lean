import GSDBEngine.Proof.Covering
import GSDBEngine.Proof.Scans
import GSDBEngine.Proof.GroupBy

/-!
# The rows that WHERE finds

A scan with the help of an index fetches the rows of the keys that the index gives, and tests each. Where the entries were cut behind a
range column that is not the last one, the keys are too long, and nothing is fetched with them.

* `fetch_rows_spec`: what is fetched for a list of keys. `plain_scan_spec`: what a scan without an index returns.
* `scan_with_index_entries`: **whatever is found is a row of the table that matches, once.**
-/

namespace GSDBEngine

open Eff

variable {Q : Type} {tbl : Table} {s : TableState} {S : Contents} {pred : Row → Except ExecErr Bool} {where_ : Option (WhereExpr Q)}
  {table_alias : Bytes} {outer : Option OuterContext} {m : IndexMatch}

/-- A search by key, of any key. -/
theorem select_cases (hrep : tbl.Represents s.trees S) (pk : Key) :
    (∃ e ∈ S, e.1.rank = pk.rank ∧ run_query (tbl.select_by_key pk) s = .ok (some e.2)) ∨
      (∀ e ∈ S, e.1.rank ≠ pk.rank) ∧ run_query (tbl.select_by_key pk) s = .ok none := by
  cases hfind : (s.trees.tree tbl.rows).entries.find? pk with
  | none =>
    have hsel : tbl.select_by_key pk s = .ok none s := by
      have hwp : wp (tbl.select_by_key pk) (fun _ _ => False) (fun r s' => r = none ∧ s' = s) s := by
        unfold Table.select_by_key
        rw [wp_bind, wp_btree_search, hfind]
        exact ⟨rfl, rfl⟩
      cases hrun : tbl.select_by_key pk s with
      | ok r s' =>
        obtain ⟨rfl, rfl⟩ := wp_ok hwp hrun
        rfl
      | error err s' => exact (wp_error hwp hrun).elim
    refine .inr ⟨hrep.find_none.1 hfind, ?_⟩
    unfold run_query
    rw [hsel]
    rfl
  | some bytes =>
    obtain ⟨e, he, hr, hbytes⟩ := hrep.find_some hfind
    have hsel : tbl.select_by_key pk s = .ok (some e.2) s := by
      have hwp : wp (tbl.select_by_key pk) (fun _ _ => False) (fun r s' => r = some e.2 ∧ s' = s) s := by
        unfold Table.select_by_key
        rw [wp_bind, wp_btree_search, hfind]
        dsimp only
        rw [hbytes, wp_bind]
        exact ⟨rfl, rfl⟩
      cases hrun : tbl.select_by_key pk s with
      | ok r s' =>
        obtain ⟨rfl, rfl⟩ := wp_ok hwp hrun
        rfl
      | error err s' => exact (wp_error hwp hrun).elim
    refine .inl ⟨e, he, hr, ?_⟩
    unfold run_query
    rw [hsel]
    rfl

/-- What is fetched for keys: the rows under them that match. -/
structure Fetched (S : Contents) (pred : Row → Except ExecErr Bool) (pks : List Key) (results : List ScanResult) : Prop where
  sound : ∀ r ∈ results, pred r.row = .ok true ∧ ∃ e ∈ S, e.1.rank = r.primary_key.rank ∧ e.2 = r.row
  keys : (results.map ScanResult.primary_key).Sublist pks
  complete : ∀ pk ∈ pks, ∀ e ∈ S, e.1.rank = pk.rank → pred e.2 = .ok true → ⟨pk, e.2⟩ ∈ results

theorem fetch_rows_spec (hrep : tbl.Represents s.trees S) (hS : tbl.Sound S) : ∀ {pks : List Key} {results : List ScanResult},
    fetch_rows tbl pred s pks = .ok results → Fetched S pred pks results
  | [], results, h => by
    obtain rfl := Except.ok.inj h
    exact ⟨fun _ hr => absurd hr List.not_mem_nil, List.Sublist.refl _, fun _ hpk => absurd hpk List.not_mem_nil⟩
  | pk :: pks, results, h => by
    have ih := @fetch_rows_spec hrep hS pks
    unfold fetch_rows at h
    rcases select_cases hrep pk with ⟨e, he, hr, hsel⟩ | ⟨hno, hsel⟩
    · rw [hsel] at h
      obtain ⟨_, hread, h⟩ := except_bind_ok h
      obtain rfl := Except.ok.inj hread
      obtain ⟨found, hfound, h⟩ := except_bind_ok h
      obtain ⟨rest, hrest, h⟩ := except_bind_ok h
      obtain rfl := Except.ok.inj h
      have hpred := lift_exec_ok hfound
      obtain ⟨hsound, hkeys, hcomplete⟩ := ih hrest
      refine ⟨fun r hmem => ?_, ?_, fun pk' hpk' e' he' hr' hpred' => ?_⟩
      · cases found with
        | false => exact hsound r hmem
        | true =>
          rcases List.mem_cons.1 hmem with rfl | hmem
          · exact ⟨hpred, e, he, hr, rfl⟩
          · exact hsound r hmem
      · cases found with
        | false => exact hkeys.cons _
        | true => exact hkeys.cons_cons _
      · rcases List.mem_cons.1 hpk' with rfl | hpk'
        · obtain rfl := hS.one e' he' e he (hr'.trans hr.symm)
          obtain rfl := Except.ok.inj (hpred.symm.trans hpred')
          exact List.mem_cons_self
        · have hmem := hcomplete pk' hpk' e' he' hr' hpred'
          cases found with
          | false => exact hmem
          | true => exact List.mem_cons_of_mem _ hmem
    · rw [hsel] at h
      obtain ⟨_, hread, h⟩ := except_bind_ok h
      obtain rfl := Except.ok.inj hread
      obtain ⟨hsound, hkeys, hcomplete⟩ := ih h
      refine ⟨hsound, hkeys.cons _, fun pk' hpk' e' he' hr' hpred' => ?_⟩
      rcases List.mem_cons.1 hpk' with rfl | hpk'
      · exact absurd hr' (hno e' he')
      · exact hcomplete pk' hpk' e' he' hr' hpred'

/-- Nothing fails if no test does. -/
theorem fetch_rows_total (hrep : tbl.Represents s.trees S) (hpred : ∀ e ∈ S, ∃ b, pred e.2 = .ok b) :
    ∀ pks : List Key, ∃ results, fetch_rows tbl pred s pks = .ok results
  | [] => ⟨[], rfl⟩
  | pk :: pks => by
    obtain ⟨rest, hrest⟩ := fetch_rows_total hrep hpred pks
    unfold fetch_rows
    rcases select_cases hrep pk with ⟨e, he, -, hsel⟩ | ⟨-, hsel⟩
    · obtain ⟨b, hb⟩ := hpred e he
      rw [hsel]
      dsimp only [bind, Except.bind]
      rw [hb, hrest]
      exact ⟨_, rfl⟩
    · rw [hsel]
      exact ⟨rest, hrest⟩

/-! ### The keys that an index gives -/

/-- The keys of an index's entries. -/
theorem index_lookup_eq (h : m.Proper tbl) : m.index_lookup s = .ok ((m.scan_keys s).map fun key => key.drop m.split) := by
  unfold IndexMatch.index_lookup
  rw [lookup_eq h]
  show Except.ok (List.map Prod.snd (List.map _ _)) = _
  rw [List.map_map]
  rfl

/-- A key that was cut in front of the last column of the index is too long. -/
theorem lookup_key_of_rank (htbl : ∃ l, Table.construct tbl.schema l = .ok tbl) (hS : tbl.Sound S) (h : m.Proper tbl)
    {e e' : Key × Row} (he : e ∈ S) (he' : e' ∈ S) (hr : e'.1.rank = Key.rank ((m.index.value e.2 ++ e.1).drop m.split)) :
    m.split = m.index.schema.column_names.length ∧ (m.index.value e.2 ++ e.1).drop m.split = e.1 := by
  obtain ⟨-, hdrop, hkey⟩ := cut_entry hS htbl h.mem he
  have hkey' := key_length (hS.fits e' he').key
  have hvalue : (m.index.value e.2).length = m.index.schema.column_names.length := (value_length ..).trans (binding_columns htbl h.mem).1
  have hsplit : m.split ≤ m.index.schema.column_names.length := by
    have hlen := h.length
    unfold IndexMatch.effective_len at hlen
    unfold IndexMatch.split
    split
    · rename_i hrange
      rwa [if_pos hrange] at hlen
    · exact le_refl _
  have hlen := congrArg List.length hr
  rw [Key.rank_length, Key.rank_length, List.length_drop, List.length_append] at hlen
  have heq : m.split = m.index.schema.column_names.length := by omega
  exact ⟨heq, by rw [heq]; exact hdrop⟩

/-- The scanned keys are there once. -/
theorem scan_keys_nodup (m : IndexMatch) (s : TableState) : (m.scan_keys s).Nodup := by
  unfold IndexMatch.scan_keys
  refine List.Nodup.filter _ ?_
  refine (List.pairwise_map.2 ((s.trees.tree (.index m.index.schema.name)).entries.sorted.imp ?_))
  intro a b hlt heq
  exact hlt.ne (congrArg Key.rank heq)

/-! ### Without an index -/

/-- A scan that meets a test that fails. -/
theorem scan_go_error (hrep : tbl.Represents s.trees S) {predicate : Predicate} {e : Key × Row} (he : e ∈ S) (hnone : predicate e.2 = none) :
    ∃ err, Table.scan.go tbl predicate (s.trees.tree tbl.rows).entries.entries = .error err := by
  obtain ⟨bytes, hmem, hread⟩ := hrep.stored e he
  have hgo : ∀ l : List (Key × Bytes), (e.1, bytes) ∈ l → ∃ err, Table.scan.go tbl predicate l = .error err := by
    intro l hl
    induction l with
    | nil => exact absurd hl List.not_mem_nil
    | cons x l ih =>
      obtain ⟨key, b⟩ := x
      unfold Table.scan.go
      cases hx : deserialize_row tbl.schema b with
      | error err => exact ⟨err, rfl⟩
      | ok row =>
        dsimp only [bind, Except.bind]
        cases hp : predicate row with
        | none => exact ⟨_, rfl⟩
        | some found =>
          rcases List.mem_cons.1 hl with heq | hl
          · obtain ⟨rfl, rfl⟩ := Prod.mk.inj heq
            obtain rfl := Except.ok.inj (hread.symm.trans hx)
            rw [hp] at hnone
            cases hnone
          · obtain ⟨err, herr⟩ := ih hl
            rw [herr]
            exact ⟨err, rfl⟩
  exact hgo _ hmem

/-- What a plain scan returns: the rows that match, each once. No test fails. -/
structure Scanned (S : Contents) (pred : Row → Except ExecErr Bool) (results : List ScanResult) : Prop where
  total : ∀ e ∈ S, ∃ b, pred e.2 = .ok b
  mem : ∀ r, r ∈ results ↔ r.entry ∈ S ∧ pred r.row = .ok true
  nodup : (results.map ScanResult.entry).Nodup

theorem plain_scan_spec (hrep : tbl.Represents s.trees S) {results : List ScanResult}
    (h : run_query (tbl.scan fun row => (pred row).toOption) s = .ok results) : Scanned S pred results := by
  have hoption : ∀ row b, (pred row).toOption = some b ↔ pred row = .ok b := by
    intro row b
    cases pred row with
    | error e => exact ⟨fun h => (by cases h), fun h => by cases h⟩
    | ok b' => exact ⟨fun h => congrArg Except.ok (Option.some.inj h), fun h => congrArg some (Except.ok.inj h)⟩
  have htotal : ∀ e ∈ S, ((pred e.2).toOption).isSome = true := by
    intro e he
    by_contra hnone
    obtain ⟨s', hrun⟩ := run_query_ok h
    have hrun : (liftE (Table.scan.go tbl (fun row => (pred row).toOption) (s.trees.tree tbl.rows).entries.entries) : TableM _) s = .ok results s' := hrun
    have hnone : (pred e.2).toOption = none := Option.not_isSome_iff_eq_none.1 hnone
    obtain ⟨err, herr⟩ := @scan_go_error tbl s S hrep (fun row => (pred row).toOption) e he hnone
    rw [herr] at hrun
    cases hrun
  obtain ⟨results', hscan, hnodup, hmem⟩ := @Table.scan_spec _ _ _ hrep (fun row => (pred row).toOption) htotal
  have hsame : results = results' := by
    unfold run_query at h
    rw [hscan] at h
    exact (Except.ok.inj h).symm
  subst hsame
  refine ⟨fun e he => ?_, fun r => ?_, ?_⟩
  · obtain ⟨b, hb⟩ := Option.isSome_iff_exists.1 (htotal e he)
    exact ⟨b, (hoption _ _).1 hb⟩
  · rw [hmem, hoption]
  · have hmap : results.map ScanResult.primary_key = (results.map ScanResult.entry).map Prod.fst := by
      rw [List.map_map]
      rfl
    rw [hmap] at hnodup
    exact List.Nodup.of_map _ hnodup

/-! ### With an index -/

/-- **Whatever is found is a row of the table that matches, once.** -/
theorem scan_with_index_entries (htbl : ∃ l, Table.construct tbl.schema l = .ok tbl) (hrep : tbl.Represents s.trees S) (hS : tbl.Sound S)
    {results : List ScanResult} (h : scan_with_index tbl where_ pred table_alias outer s = .ok results) :
    (∀ r ∈ results, r.entry ∈ S ∧ pred r.row = .ok true) ∧ (results.map ScanResult.entry).Nodup := by
  unfold scan_with_index at h
  obtain ⟨found, hfind, h⟩ := except_bind_ok h
  have hfind := lift_exec_ok hfind
  cases found with
  | none =>
    have hscanned := plain_scan_spec hrep h
    exact ⟨fun r hr => (hscanned.mem r).1 hr, hscanned.nodup⟩
  | some m =>
    have hproper := find_index_prefix_proper hfind
    dsimp only at h
    rw [index_lookup_eq hproper] at h
    have hfetched := fetch_rows_spec hrep hS h
    -- a key with which a row was fetched is the row's
    have hkey : ∀ r ∈ results, ∃ e ∈ S, m.index.value e.2 ++ e.1 ∈ m.scan_keys s ∧ r.entry = e ∧
        m.split = m.index.schema.column_names.length := by
      intro r hr
      have hpk := hfetched.keys.subset (List.mem_map_of_mem hr)
      obtain ⟨key, hkey, heq⟩ := List.mem_map.1 hpk
      obtain ⟨e, hscan, rfl⟩ := (mem_scan_keys hrep hproper).1 hkey
      obtain ⟨-, e', he', hrank, hrow⟩ := hfetched.sound r hr
      rw [← heq] at hrank
      obtain ⟨hsplit, hdrop⟩ := lookup_key_of_rank htbl hS hproper hscan.1 he' hrank
      rw [hdrop] at hrank heq
      obtain rfl := hS.one e' he' e hscan.1 hrank
      exact ⟨e', he', hkey, Prod.ext heq.symm hrow.symm, hsplit⟩
    refine ⟨fun r hr => ?_, ?_⟩
    · obtain ⟨e, he, -, hentry, -⟩ := hkey r hr
      exact ⟨by rw [hentry]; exact he, (hfetched.sound r hr).1⟩
    · by_cases hempty : results = []
      · rw [hempty]
        exact List.nodup_nil
      · obtain ⟨r, hr⟩ := List.exists_mem_of_ne_nil _ hempty
        obtain ⟨-, -, -, -, hsplit⟩ := hkey r hr
        have hnodup : ((m.scan_keys s).map fun key => key.drop m.split).Nodup := by
          refine List.Nodup.map_on (fun key hkey key' hkey' heq => ?_) (scan_keys_nodup m s)
          obtain ⟨e, hscan, rfl⟩ := (mem_scan_keys hrep hproper).1 hkey
          obtain ⟨e', hscan', rfl⟩ := (mem_scan_keys hrep hproper).1 hkey'
          rw [hsplit, (cut_entry hS htbl hproper.mem hscan.1).2.1, (cut_entry hS htbl hproper.mem hscan'.1).2.1] at heq
          rw [hS.one e hscan.1 e' hscan'.1 (by rw [heq])]
        have hkeys := hfetched.keys.nodup hnodup
        have hmap : results.map ScanResult.primary_key = (results.map ScanResult.entry).map Prod.fst := by
          rw [List.map_map]
          rfl
        rw [hmap] at hkeys
        exact List.Nodup.of_map _ hkeys

end GSDBEngine
