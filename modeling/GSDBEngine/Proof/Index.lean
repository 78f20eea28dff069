import GSDBEngine.Proof.Scans

/-!
# What a search of an index returns

The searches of an index cut the keys of a scan into the indexed values and the primary key.

* `index_search`: `find` and `find_with_values` cut at the width of the index and return the entries; `find_range` and
  `find_range_with_values` cut behind the range column, **right only where it is the last of the index**.
-/

namespace GSDBEngine

open KeyRank BTree Eff

variable {fixed : SqlKey} {b : RangeBounds} {v : Value} {s : Store SqlKey}

/-! ### The searches -/

variable {idx : Index} {S : List (IndexEntry idx)} {α : Type}

/-- The tree of the store holds the keys of the entries, and no others; `S` is in the order of the keys. -/
def Contains (s : Store SqlKey) (S : List (IndexEntry idx)) : Prop :=
  ∃ μ d A O, Holds s μ ∧ TreeOK μ.view μ.root d A O ∧ (content μ.view A).map (fun e => e.key.1) = S.map IndexEntry.key

/-- A filter of the entries of the tree, by their keys, is one of the entries of the index. -/
theorem map_filter_key {es : List (LeafEntry SqlKey)} (h : es.map (fun e => e.key.1) = S.map IndexEntry.key) (q : Key → Bool)
    (g : Key → α) : (es.filter fun e => q e.key.1).map (fun e => g e.key.1) = (S.filter fun e => q e.key).map fun e => g e.key := by
  have hes : (es.filter fun e => q e.key.1).map (fun e => g e.key.1) = ((es.map fun e => e.key.1).filter q).map g := by
    rw [List.filter_map, List.map_map]
    rfl
  rw [hes, h, List.filter_map, List.map_map]
  rfl

theorem on_tree_ok {m : M SqlKey α} {a : α} {s' : Store SqlKey} (h : m s = .ok a s') : on_tree m s = .ok a s' := by
  unfold on_tree
  rw [h]

/-- What the searches do with the entries of a scan. -/
theorem map_scan {m : IndexM (List (LeafEntry SqlKey))} {es : List (LeafEntry SqlKey)} (h : m s = .ok es s)
    (f : List (LeafEntry SqlKey) → α) : (m >>= fun es => pure (f es)) s = .ok (f es) s := by
  show EStateM.bind m _ s = _
  unfold EStateM.bind
  rw [h]
  rfl

/-- What begins the value of an entry has no NULL. -/
theorem IndexEntry.Begins.indexable {e : IndexEntry idx} (h : e.Begins fixed) : is_indexable fixed.1 = true := by
  rw [is_indexable, List.all_eq_true]
  intro v hv
  have hmem : v.rank ∈ e.value.1.rank := h.subset (List.mem_map_of_mem hv)
  obtain ⟨w, hw, heq⟩ := List.mem_map.1 hmem
  have hnull := List.all_eq_true.1 e.indexable w hw
  rw [Bool.not_eq_true'] at hnull ⊢
  rw [← hnull]
  exact Key.isNull_of_rank heq.symm

/-- The key of an entry begins with a prefix of the columns where its value does. -/
theorem IndexEntry.begins_iff {e : IndexEntry idx} (hlen : fixed.1.length ≤ idx.width) : fixed.1.rank <+: e.key.rank ↔ e.Begins fixed := by
  have hkey : e.key.rank = e.value.1.rank ++ e.primary_key.1.rank := Key.rank_append _ _
  rw [hkey]
  constructor
  · intro h
    refine List.prefix_of_prefix_length_le h (List.prefix_append _ _) ?_
    rw [Key.rank_length, Key.rank_length, e.width]
    exact hlen
  · exact fun h => h.trans (List.prefix_append _ _)

theorem IndexEntry.inRange_iff {e : IndexEntry idx} (hlen : fixed.1.length < idx.width) :
    (fixed.1.rank <+: e.key.rank ∧ ∃ v ∈ e.key[fixed.1.length]?, b.Within v) ↔ e.InRange fixed b := by
  rw [e.begins_iff hlen.le, IndexEntry.key, List.getElem?_append_left (by rw [e.width]; exact hlen)]
  rfl

/-- The scan of `find` and `find_with_values`. -/
theorem scan_prefix_ok (h : Contains s S) (hlen : fixed.1.length ≤ idx.width) : ∃ es, idx.scan_prefix fixed s = .ok es s ∧
    ∀ {α : Type} (g : Key → α), es.map (fun e => g e.key.1) = (S.filter fun e => decide (e.Begins fixed)).map fun e => g e.key := by
  obtain ⟨μ, d, A, O, hs, ht, hkeys⟩ := h
  unfold Index.scan_prefix
  by_cases hix : is_indexable fixed.1 = true
  · rw [if_neg (by rw [hix]; exact fun hf => by cases hf), if_neg (not_lt.2 hlen)]
    refine ⟨_, on_tree_ok (reads_run (reads_prefixScan fixed) hs (run_prefixScan ht.chained)), fun g => ?_⟩
    rw [map_filter_key hkeys (fun k => decide (fixed.1.rank <+: k.rank)) g]
    simp only [IndexEntry.begins_iff hlen]
  · rw [if_pos (Bool.not_eq_true _ ▸ hix)]
    refine ⟨[], rfl, fun g => ?_⟩
    rw [List.filter_eq_nil_iff.2 fun e _ => by rw [decide_eq_true_eq]; exact fun hb => hix hb.indexable]
    rfl

/-- No bound is NULL. -/
def RangeBounds.Usable (b : RangeBounds) : Prop := (∀ lo ∈ b.lo, lo.1.isNull = false) ∧ ∀ hi ∈ b.hi, hi.1.isNull = false

theorem RangeBounds.within_iff (hb : b.Usable) : b.Within v ↔ b.Admits v :=
  ⟨fun h => ⟨fun lo hlo => (h.1 lo hlo).2, fun hi hhi => (h.2 hi hhi).2⟩,
    fun h => ⟨fun lo hlo => ⟨hb.1 lo hlo, h.1 lo hlo⟩, fun hi hhi => ⟨hb.2 hi hhi, h.2 hi hhi⟩⟩⟩

/-- A range with a NULL for a bound holds nothing. -/
theorem RangeBounds.usable_of_within (h : b.Within v) : b.Usable :=
  ⟨fun lo hlo => (h.1 lo hlo).1, fun hi hhi => (h.2 hi hhi).1⟩

theorem RangeBounds.usable_iff : b.Usable ↔
    ¬ ((b.lo.any fun lo => lo.1.isNull) || (b.hi.any fun hi => hi.1.isNull)) = true := by
  unfold Usable
  cases b.lo <;> cases b.hi <;> simp

/-- The scan of `find_range` and `find_range_with_values`. -/
theorem scan_range_ok (h : Contains s S) (hlen : fixed.1.length < idx.width) (hsome : b.lo.isSome = true ∨ b.hi.isSome = true) :
    ∃ es, idx.scan_range fixed b s = .ok es s ∧
      ∀ {α : Type} (g : Key → α), es.map (fun e => g e.key.1) = (S.filter fun e => decide (e.InRange fixed b)).map fun e => g e.key := by
  obtain ⟨μ, d, A, O, hs, ht, hkeys⟩ := h
  have hnone : ¬ (b.lo.isNone && b.hi.isNone) = true := by
    rw [Bool.and_eq_true, Option.isNone_iff_eq_none, Option.isNone_iff_eq_none]
    rintro ⟨hlo, hhi⟩
    rw [hlo, hhi] at hsome
    rcases hsome with hf | hf <;> cases hf
  have hempty : (∀ e : IndexEntry idx, ¬ e.InRange fixed b) → S.filter (fun e => decide (e.InRange fixed b)) = [] := by
    intro hno
    exact List.filter_eq_nil_iff.2 fun e _ => by rw [decide_eq_true_eq]; exact hno e
  unfold Index.scan_range
  rw [if_neg hnone, if_neg (not_le.2 hlen)]
  by_cases hix : is_indexable fixed.1 = true
  · rw [if_neg (by rw [hix]; exact fun hf => by cases hf)]
    by_cases hb : b.Usable
    · rw [if_neg (RangeBounds.usable_iff.1 hb)]
      have hlong : ∀ e ∈ content μ.view A, fixed.1.length < e.key.1.length := by
        intro e he
        have hmem := List.mem_map_of_mem (f := fun e : LeafEntry SqlKey => e.key.1) he
        rw [hkeys] at hmem
        obtain ⟨a, -, ha⟩ := List.mem_map.1 hmem
        rw [← ha, IndexEntry.key, List.length_append, a.width]
        omega
      refine ⟨_, on_tree_ok (reads_run (reads_boundedScan fixed b) hs
        (run_boundedScan ht.chained hsome fun e he _ => hlong e he)), fun g => ?_⟩
      simp only [← RangeBounds.within_iff hb]
      rw [map_filter_key hkeys (fun k => decide (fixed.1.rank <+: k.rank ∧ ∃ v ∈ k[fixed.1.length]?, b.Within v)) g]
      simp only [IndexEntry.inRange_iff hlen]
    · rw [if_pos (by rwa [RangeBounds.usable_iff, not_not] at hb)]
      refine ⟨[], rfl, fun g => ?_⟩
      rw [hempty]
      · rfl
      · rintro e ⟨-, v, -, hv⟩
        exact hb (RangeBounds.usable_of_within hv)
  · rw [if_pos (Bool.not_eq_true _ ▸ hix)]
    refine ⟨[], rfl, fun g => ?_⟩
    rw [hempty fun e he => hix he.1.indexable]
    rfl

/-! ### The cut -/

theorem IndexEntry.take_key (e : IndexEntry idx) : List.take idx.width e.key = e.value.1 := List.take_left' e.width

theorem IndexEntry.drop_key (e : IndexEntry idx) : List.drop idx.width e.key = e.primary_key.1 := List.drop_left' e.width

/-- Behind fewer columns than the index has there is more than the primary key. -/
theorem IndexEntry.drop_eq_iff (e : IndexEntry idx) {n : ℕ} (hn : n ≤ idx.width) : List.drop n e.key = e.primary_key.1 ↔ n = idx.width := by
  constructor
  · intro h
    have hl := congrArg List.length h
    rw [List.length_drop, IndexEntry.key, List.length_append, e.width] at hl
    omega
  · rintro rfl
    exact e.drop_key

theorem findsPrefix (h : Contains s S) (hlen : fixed.1.length ≤ idx.width) : Index.FindsPrefix s S fixed := by
  obtain ⟨es, hscan, hmap⟩ := scan_prefix_ok h hlen
  have hpks := hmap fun k => k.drop idx.width
  have hpairs := hmap fun k => (k.take idx.width, k.drop idx.width)
  simp only [IndexEntry.take_key, IndexEntry.drop_key] at hpks hpairs
  constructor
  · rw [← hpks]
    exact map_scan hscan fun es => es.map fun e => e.key.1.drop idx.width
  · rw [← hpairs]
    exact map_scan hscan fun es => es.map fun e => (e.key.1.take idx.width, e.key.1.drop idx.width)

/-- What the searches by range return. -/
theorem find_range_eq (h : Contains s S) (hlen : fixed.1.length < idx.width) (hsome : b.lo.isSome = true ∨ b.hi.isSome = true) :
    idx.find_range fixed b s =
        .ok ((S.filter fun e => decide (e.InRange fixed b)).map fun e => e.key.drop (fixed.1.length + 1)) s ∧
      idx.find_range_with_values fixed b s = .ok ((S.filter fun e => decide (e.InRange fixed b)).map fun e =>
        (e.key.take (fixed.1.length + 1), e.key.drop (fixed.1.length + 1))) s := by
  obtain ⟨es, hscan, hmap⟩ := scan_range_ok h hlen hsome
  constructor
  · rw [← hmap fun k => k.drop (fixed.1.length + 1)]
    exact map_scan hscan fun es => es.map fun e => e.key.1.drop (fixed.1.length + 1)
  · rw [← hmap fun k => (k.take (fixed.1.length + 1), k.drop (fixed.1.length + 1))]
    exact map_scan hscan fun es => es.map fun e => (e.key.1.take (fixed.1.length + 1), e.key.1.drop (fixed.1.length + 1))

theorem findsRange_iff (h : Contains s S) (hlen : fixed.1.length < idx.width) (hsome : b.lo.isSome = true ∨ b.hi.isSome = true) :
    Index.FindsRange s S fixed b ↔ fixed.1.length + 1 = idx.width ∨ ∀ e ∈ S, ¬ e.InRange fixed b := by
  obtain ⟨hpks, hpairs⟩ := find_range_eq h hlen hsome
  unfold Index.FindsRange
  rw [hpks, hpairs]
  constructor
  · rintro ⟨heq, -⟩
    refine or_iff_not_imp_left.2 fun hne e he hin => hne ?_
    have hmaps := (EStateM.Result.ok.inj heq).1
    have hcut := List.map_inj_left.1 hmaps e (List.mem_filter.2 ⟨he, decide_eq_true hin⟩)
    exact (e.drop_eq_iff hlen).1 hcut
  · rintro (hw | hno)
    · rw [hw]
      simp only [IndexEntry.take_key, IndexEntry.drop_key, and_self]
    · rw [List.filter_eq_nil_iff.2 fun e he => by rw [decide_eq_true_eq]; exact hno e he]
      exact ⟨rfl, rfl⟩

/-- **The searches of an index.** Those by prefix return the whole primary keys and values of the entries that begin with it;
those by range do where the range column is the last of the index, or nothing is in the range. -/
theorem index_search (h : Contains s S) : (∀ fixed : SqlKey, fixed.1.length ≤ idx.width → Index.FindsPrefix s S fixed) ∧
    ∀ (fixed : SqlKey) (b : RangeBounds), fixed.1.length < idx.width → b.lo.isSome = true ∨ b.hi.isSome = true →
      (Index.FindsRange s S fixed b ↔ fixed.1.length + 1 = idx.width ∨ ∀ e ∈ S, ¬ e.InRange fixed b) :=
  ⟨fun _ => findsPrefix h, fun _ _ => findsRange_iff h⟩

/-- A tree that holds the map of the keys of the entries. -/
theorem contains_of_map {m : TreeMap SqlKey} (h : IsMap s m) (hS : m.entries.map (fun e => e.1.1) = S.map IndexEntry.key) :
    Contains s S := by
  obtain ⟨-, μ, d, A, O, hs, hm⟩ := h
  refine ⟨μ, d, A, O, hs, hm.tree, ?_⟩
  rw [← hS, ← hm.entries, List.map_map]
  rfl

/-! ### An index of two columns

One entry with the values 1 and 2, and the primary key 7. A range over the first column gives 2, 7 for the primary key. -/

namespace TwoColumns

open StaleId LostLeaf QuarterRun

def byDeptAge : Index where
  schema := { name := [105], table_name := [116], column_names := [[97], [98]], root_page := 0, is_unique := false }
  pk_arity := 1

def entry : IndexEntry byDeptAge where
  value := ⟨[.int 1, .int 2], rfl⟩
  primary_key := keyOf 7
  width := rfl
  arity := rfl
  indexable := rfl

def inserted : List (Op SqlKey) := [.insert ⟨[.int 1, .int 2, .int 7], rfl⟩ []]

def store : Store SqlKey := (exec inserted newTree).2

theorem contains_entry : Contains store [entry] := by
  have hq : Quarter inserted := by
    intro key value h
    simp only [inserted, List.mem_cons, Op.insert.injEq, List.not_mem_nil, or_false] at h
    obtain ⟨rfl, rfl⟩ := h
    unfold quarterCell
    decide
  have hov : NoOverflow (exec inserted newTree).1 := noOverflow_of_settled (by decide +kernel)
  exact contains_of_map (run_map (construct_map newSystem_ready newTree_ok) hq hov).2 rfl

/-- From 1 on. -/
def fromOne : RangeBounds where
  lo := some ⟨.int 1, rfl⟩
  lo_inclusive := true
  hi := none
  hi_inclusive := true

def noPrefix : SqlKey := ⟨[], rfl⟩

end TwoColumns

open TwoColumns in
theorem index_search_entry : (∀ fixed : SqlKey, fixed.1.length ≤ byDeptAge.width → Index.FindsPrefix store [entry] fixed) ∧
    ∀ (fixed : SqlKey) (b : RangeBounds), fixed.1.length < byDeptAge.width → b.lo.isSome = true ∨ b.hi.isSome = true →
      (Index.FindsRange store [entry] fixed b ↔ fixed.1.length + 1 = byDeptAge.width ∨ ∀ e ∈ [entry], ¬ e.InRange fixed b) :=
  index_search contains_entry

open TwoColumns in
/-- A range over the first of two columns. -/
theorem find_range_cuts_short : Contains store [entry] ∧ noPrefix.1.length < byDeptAge.width ∧ fromOne.lo.isSome = true ∧
    entry.InRange noPrefix fromOne ∧ ¬ Index.FindsRange store [entry] noPrefix fromOne := by
  refine ⟨contains_entry, by decide, rfl, by decide, fun h => ?_⟩
  rcases (findsRange_iff contains_entry (by decide) (Or.inl rfl)).1 h with hw | hno
  · exact absurd hw (by decide)
  · exact hno entry (by simp) (by decide)

end GSDBEngine
