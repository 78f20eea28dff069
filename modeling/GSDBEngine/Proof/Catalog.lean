import GSDBEngine.Proof.Codec
import GSDBEngine.Lib.Eff

/-!
# When a change of the catalog is all or nothing

The maps are edited before they are known to fit the page, and `persist` does not put them back.

* `CatalogCall.edited`: the maps after a change, if its name is there, or is free.
* `CatalogCall.atomic_iff`: **a change is all or nothing exactly if it is refused for its name, if the edited
  catalog fits the page and has a table or no index, or if the edit left everything as it was.**
* `oversized_table_stays`: a table whose text fills the page.
-/

namespace GSDBEngine

open Eff

/-- The maps after a change; none if it is refused for its name. -/
def CatalogCall.edited : CatalogCall → Catalog → Option Catalog
  | create_table schema, c =>
    if (c.tables.lookup schema.name).isSome then none else some { c with tables := c.tables.insert schema.name schema }
  | drop_table table_name, c =>
    if (c.tables.lookup table_name).isNone then none
    else some ⟨c.tables.erase table_name, NameMap.eraseIf c.indexes fun idx => idx.table_name = table_name⟩
  | create_index index, c =>
    if (c.indexes.lookup index.name).isSome then none else some { c with indexes := c.indexes.insert index.name index }
  | drop_index index_name, c =>
    if (c.indexes.lookup index_name).isNone then none else some { c with indexes := c.indexes.erase index_name }
  | update_table_root table_name new_root_page, c =>
    (c.tables.lookup table_name).map fun schema =>
      { c with tables := c.tables.insert table_name { schema with root_page := new_root_page } }
  | update_index_root index_name new_root_page, c =>
    (c.indexes.lookup index_name).map fun index =>
      { c with indexes := c.indexes.insert index_name { index with root_page := new_root_page } }

/-- The condition: on the maps before the change, and on the change. -/
def CatalogCall.Safe (call : CatalogCall) (c : Catalog) : Prop :=
  ∀ cat, call.edited c = some cat →
    if cat.serialize.length ≤ PAGE_SIZE then cat.tables.entries = [] → cat.indexes.entries = [] else cat.Same c

/-- The error of that refusal. -/
def CatalogCall.refusal : CatalogCall → CatalogErr
  | create_table schema => .table_exists schema.name
  | drop_table table_name => .no_table table_name
  | create_index index => .index_exists index.name
  | drop_index index_name => .no_index index_name
  | update_table_root table_name _ => .no_table table_name
  | update_index_root index_name _ => .no_index index_name

/-! ### One change -/

theorem CatalogManager.get_eq (s : CatalogManager) : (EStateM.get : CatalogM CatalogManager) s = .ok s s := rfl

theorem CatalogManager.persist_eq (s : CatalogManager) :
    CatalogManager.persist s = if s.serialize.length > PAGE_SIZE then .error .too_large s
      else .ok () { s with page := s.serialize ++ List.replicate (PAGE_SIZE - s.serialize.length) 0 } := by
  by_cases h : s.serialize.length > PAGE_SIZE
  · rw [if_pos h]
    simp only [persist, bind, EStateM.bind, get, getThe, MonadStateOf.get, CatalogManager.get_eq, if_pos h]
    rfl
  · rw [if_neg h]
    simp only [persist, bind, EStateM.bind, get, getThe, MonadStateOf.get, CatalogManager.get_eq, if_neg h]
    rfl

namespace CatalogCall

variable {call : CatalogCall} {s : CatalogManager} {cat : Catalog}

/-- A check, an edit, `persist`. -/
theorem checked (p : Catalog → Prop) [DecidablePred p] (e : CatalogErr) (f : Catalog → Catalog) (s : CatalogManager) :
    (do
      let s ← get
      if p s.toCatalog then throw e
      set { s with toCatalog := f s.toCatalog }
      CatalogManager.persist : CatalogM Unit) s =
    match if p s.toCatalog then none else some (f s.toCatalog) with
    | none => .error e s
    | some cat => CatalogManager.persist { s with toCatalog := cat } := by
  simp only [bind, EStateM.bind, get, getThe, MonadStateOf.get, CatalogManager.get_eq, set]
  by_cases h : p s.toCatalog
  · rw [if_pos h, if_pos h]
    rfl
  · rw [if_neg h, if_neg h]
    rfl

theorem body_eq (call : CatalogCall) (s : CatalogManager) :
    call.body s = match call.edited s.toCatalog with
      | none => .error call.refusal s
      | some cat => CatalogManager.persist { s with toCatalog := cat } := by
  cases call with
  | create_table schema =>
    exact checked (fun c => (c.tables.lookup schema.name).isSome) (.table_exists schema.name)
      (fun c => { c with tables := c.tables.insert schema.name schema }) s
  | drop_table table_name =>
    exact checked (fun c => (c.tables.lookup table_name).isNone) (.no_table table_name)
      (fun c => ⟨c.tables.erase table_name, NameMap.eraseIf c.indexes fun idx => idx.table_name = table_name⟩) s
  | create_index index =>
    exact checked (fun c => (c.indexes.lookup index.name).isSome) (.index_exists index.name)
      (fun c => { c with indexes := c.indexes.insert index.name index }) s
  | drop_index index_name =>
    exact checked (fun c => (c.indexes.lookup index_name).isNone) (.no_index index_name)
      (fun c => { c with indexes := c.indexes.erase index_name }) s
  | update_table_root table_name new_root_page =>
    simp only [body, CatalogManager.update_table_root, bind, EStateM.bind, get, getThe, MonadStateOf.get, CatalogManager.get_eq, edited]
    cases s.tables.lookup table_name <;> rfl
  | update_index_root index_name new_root_page =>
    simp only [body, CatalogManager.update_index_root, bind, EStateM.bind, get, getThe, MonadStateOf.get, CatalogManager.get_eq, edited]
    cases s.indexes.lookup index_name <;> rfl

/-- Under their names still. -/
theorem named_edited (hs : s.Named) (h : call.edited s.toCatalog = some cat) : cat.Named := by
  obtain ⟨ht, hi⟩ := hs
  cases call with
  | create_table schema =>
    obtain ⟨-, hc⟩ := Option.ite_none_left_eq_some.1 h
    cases hc
    exact ⟨ht.insert rfl, hi⟩
  | drop_table table_name =>
    obtain ⟨-, hc⟩ := Option.ite_none_left_eq_some.1 h
    cases hc
    exact ⟨ht.of_subset (List.kerase_sublist _ _).subset, hi.of_subset (List.filter_subset_self _)⟩
  | create_index index =>
    obtain ⟨-, hc⟩ := Option.ite_none_left_eq_some.1 h
    cases hc
    exact ⟨ht, hi.insert rfl⟩
  | drop_index index_name =>
    obtain ⟨-, hc⟩ := Option.ite_none_left_eq_some.1 h
    cases hc
    exact ⟨ht, hi.of_subset (List.kerase_sublist _ _).subset⟩
  | update_table_root table_name new_root_page =>
    obtain ⟨schema, hl, rfl⟩ := Option.map_eq_some_iff.1 h
    have hn : schema.name = table_name := ht _ _ hl
    exact ⟨ht.insert hn, hi⟩
  | update_index_root index_name new_root_page =>
    obtain ⟨index, hl, rfl⟩ := Option.map_eq_some_iff.1 h
    have hn : index.name = index_name := hi _ _ hl
    exact ⟨ht, hi.insert hn⟩

theorem named_body (hs : s.Named) :
    wp call.body (fun _ s' => s'.Named) (fun _ s' => s'.Named) s := by
  unfold wp
  rw [body_eq]
  cases h : call.edited s.toCatalog with
  | none => exact hs
  | some cat =>
    have hn := named_edited hs h
    simp only [CatalogManager.persist_eq]
    by_cases hl : cat.serialize.length > PAGE_SIZE
    · rw [if_pos hl]
      exact hn
    · rw [if_neg hl]
      exact hn

end CatalogCall

/-- **Every schema is under its name.** -/
theorem CatalogManager.Reachable.named {s : CatalogManager} (h : CatalogManager.Reachable s) : s.Named := by
  induction h with
  | new => exact ⟨keyed_empty, keyed_empty⟩
  | returned _ hr ih => exact wp_ok (CatalogCall.named_body ih) hr
  | threw _ hr ih => exact wp_error (CatalogCall.named_body ih) hr
  | load _ hd ih =>
    unfold Catalog.deserialize at hd
    split at hd
    · cases hd
      exact ⟨keyed_empty, keyed_empty⟩
    · obtain ⟨⟨cat, rest⟩, hr, rfl⟩ := Option.map_eq_some_iff.1 hd
      obtain ⟨p, -, hr⟩ := Option.bind_eq_some_iff.1 hr
      obtain ⟨q, -, hr⟩ := Option.bind_eq_some_iff.1 hr
      cases hr
      exact ⟨keyed_byName _, keyed_byName _⟩

/-! ### All or nothing -/

theorem Catalog.Same.refl (c : Catalog) : c.Same c := ⟨fun _ => rfl, fun _ => rfl⟩

namespace CatalogCall

variable {call : CatalogCall} {s : CatalogManager} {cat : Catalog}

theorem atomic_eq_wp : call.Atomic s ↔
    wp call.body (fun _ s' => s'.toCatalog.Same s.toCatalog)
      (fun _ s' => ∃ cat, Catalog.deserialize s'.page = some cat ∧ cat.Same s'.toCatalog) s := by
  unfold Atomic wp
  cases call.body s <;> exact Iff.rfl

/-- Refused for its name: nothing was done. -/
theorem atomic_of_refused (h : call.edited s.toCatalog = none) : call.Atomic s := by
  rw [atomic_eq_wp, wp, body_eq, h]
  exact Catalog.Same.refl _

/-- `persist` throws, and the edit stays. -/
theorem atomic_of_large (h : call.edited s.toCatalog = some cat) (hl : PAGE_SIZE < cat.serialize.length) :
    call.Atomic s ↔ cat.Same s.toCatalog := by
  rw [atomic_eq_wp, wp, body_eq, h]
  simp only [CatalogManager.persist_eq]
  rw [if_pos hl]

/-- What page 1 has then is the edited catalog, unless that has an index and no table. -/
theorem atomic_of_fits (hs : s.Named) (h : call.edited s.toCatalog = some cat) (hl : cat.serialize.length ≤ PAGE_SIZE) :
    call.Atomic s ↔ (cat.tables.entries = [] → cat.indexes.entries = []) := by
  have hp : PAGE_SIZE < 2 ^ 32 := by decide
  obtain ⟨cat', hd, hsame⟩ := Catalog.deserialize_serialize (named_edited hs h) (Nat.lt_of_le_of_lt hl hp)
    (List.replicate (PAGE_SIZE - cat.serialize.length) 0)
  rw [atomic_eq_wp, wp, body_eq, h]
  simp only [CatalogManager.persist_eq]
  rw [if_neg (Nat.not_lt.2 hl), ← hsame]
  refine ⟨fun ⟨c, hc, hsc⟩ => ?_, fun hsc => ⟨cat', hd, hsc⟩⟩
  rw [hd] at hc
  cases hc
  exact hsc

/-- **A change is all or nothing exactly under the condition.** -/
theorem atomic_iff (hr : CatalogManager.Reachable s) (call : CatalogCall) : call.Atomic s ↔ call.Safe s.toCatalog := by
  cases h : call.edited s.toCatalog with
  | none =>
    refine ⟨fun _ cat hc => ?_, fun _ => atomic_of_refused h⟩
    rw [h] at hc
    cases hc
  | some cat =>
    have hsafe : call.Safe s.toCatalog ↔
        if cat.serialize.length ≤ PAGE_SIZE then cat.tables.entries = [] → cat.indexes.entries = [] else cat.Same s.toCatalog := by
      refine ⟨fun hs => hs cat h, fun hs cat' hc => ?_⟩
      rw [h] at hc
      cases hc
      exact hs
    rw [hsafe]
    by_cases hl : cat.serialize.length ≤ PAGE_SIZE
    · rw [if_pos hl]
      exact atomic_of_fits hr.named h hl
    · rw [if_neg hl]
      exact atomic_of_large h (Nat.lt_of_not_le hl)

end CatalogCall

/-! ### A statement as long as the page -/

/-- `CREATE TABLE t (id INT)`, and as many blanks as the page has bytes. -/
def padded_table : TableSchema where
  name := [116]
  columns := [⟨[105, 100], .INT, 0, true, false, false, false, .null, fun _ => rfl⟩]
  root_page := 2
  primary_key_indices := []
  checks := []
  foreign_keys := []
  create_sql := "CREATE TABLE t (id INT)".toUTF8.toList ++ List.replicate PAGE_SIZE 32

def small_table : TableSchema := { padded_table with create_sql := [] }

theorem CatalogCall.atomic_small : (CatalogCall.create_table small_table).Atomic .new :=
  (CatalogCall.atomic_iff .new (.create_table small_table)).2 fun cat h => by
    cases h
    rw [if_pos (by decide +kernel)]
    intro e
    cases e

theorem padded_table_large : PAGE_SIZE < (Catalog.serialize ⟨AList.insert padded_table.name padded_table ∅, ∅⟩).length := by
  have h : Catalog.serialize ⟨AList.insert padded_table.name padded_table ∅, ∅⟩ =
      write_size 1 ++ (write_table padded_table ++ []) ++ write_size 0 := rfl
  have hsql : PAGE_SIZE ≤ padded_table.create_sql.length := by
    rw [padded_table, List.length_append, List.length_replicate]
    exact Nat.le_add_left ..
  rw [h]
  simp only [List.length_append, write_size_length, write_table, write_string]
  omega

/-- The table that does not fit was refused, and is in memory. -/
theorem oversized_table_stays : CatalogManager.Reachable .new ∧ ¬ (CatalogCall.create_table padded_table).Atomic .new := by
  refine ⟨.new, fun h => ?_⟩
  have hs := (CatalogCall.atomic_of_large rfl padded_table_large).1 h
  have := hs.1 padded_table.name
  rw [AList.lookup_insert] at this
  cases this

end GSDBEngine
