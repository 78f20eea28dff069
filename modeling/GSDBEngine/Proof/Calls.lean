import GSDBEngine.Proof.AutoIncrement
import GSDBEngine.Proof.Reroot
import GSDBEngine.Proof.Covering

/-!
# What a call does

A call of a table is accepted, and then the contents change by its effect, or it is refused and changes nothing. Nothing can go
wrong behind the first write.

* `Batch.replaceable`: what a batch has checked is that its rows can be replaced.
* `call_spec`: **a call does everything or nothing**, and a unique index that refuses it would be broken.
* `call_read_back`: what a call has written is read back if its strings are short.
-/

namespace GSDBEngine

open Eff

namespace Table

variable {tbl : Table} {s s' : TableState} {S : Contents} {nv : NewValues} {old new : Key × Row} {next : UInt32}

/-! ### Selected rows -/

theorem selected_key (hS : tbl.Sound S) {key : Key} (hold : old ∈ S) (hr : old.1.rank = key.rank) :
    { e | e ∈ S ∧ e.1.rank = key.rank } = {old} := by
  ext e
  refine ⟨fun he => hS.one e he.1 old hold (he.2.trans hr.symm), ?_⟩
  rintro rfl
  exact ⟨hold, hr⟩

/-- One row that can be replaced. -/
theorem replaceable_one (hnew : tbl.Becomes nv old new) (hn : tbl.New (S \ {old}) new) : tbl.Replaceable S nv {old} where
  each e he := by
    obtain rfl := Set.mem_singleton_iff.1 he
    exact ⟨new, hnew, hn⟩
  apart e he e' he' hne := by
    obtain rfl := Set.mem_singleton_iff.1 he
    exact absurd (Set.mem_singleton_iff.1 he').symm hne

/-- What the row becomes is all that is written. -/
theorem becomes_one (hnew : tbl.Becomes nv old new) : { e | ∃ o ∈ ({old} : Contents), tbl.Becomes nv o e } = {new} := by
  ext e
  constructor
  · rintro ⟨o, ho, he⟩
    obtain rfl := Set.mem_singleton_iff.1 ho
    exact he.eq hnew
  · rintro rfl
    exact ⟨old, rfl, hnew⟩

/-- **A batch that passes the checks can be replaced at once.** -/
theorem Batch.replaceable {ms : List ScanResult} {us : List PlannedUpdate} (h : tbl.Batch S nv ms us) (hfits : ∀ u ∈ us, tbl.Fits u.new) :
    (ms.map ScanResult.entry).Nodup ∧ tbl.Replaceable S nv { e | ∃ m ∈ ms, e = m.entry } := by
  have hmem : ∀ {e}, e ∈ { e | ∃ m ∈ ms, e = m.entry } → ∃ u ∈ us, e = u.old := fun he => by
    rw [← h.matched] at he
    exact he
  refine ⟨?_, fun e he => ?_, fun e he e' he' hne new new' hnew hnew' => ?_⟩
  · rw [← h.olds]
    exact List.pairwise_map.2 (h.planned.apart.imp fun hapart => hapart.1)
  · obtain ⟨u, hu, rfl⟩ := hmem he
    refine ⟨u.new, (h.drafted u hu).becomes, hfits u hu, fun e he => (h.planned.free u hu e he.1 he.2).1, fun idx hi e he => ?_⟩
    exact (h.planned.free u hu e he.1 he.2).2 idx hi
  · obtain ⟨u, hu, rfl⟩ := hmem he
    obtain ⟨u', hu', rfl⟩ := hmem he'
    obtain rfl := hnew.eq (h.drafted u hu).becomes
    obtain rfl := hnew'.eq (h.drafted u' hu').becomes
    -- it is the same to stay clear of each other, in either order
    have : Std.Symm fun u u' : PlannedUpdate => u.old ≠ u'.old ∧ u.new_key.rank ≠ u'.new_key.rank ∧
        ∀ idx ∈ tbl.indexes, ¬ idx.Conflict u.new_row u'.new_row :=
      ⟨fun _ _ hapart => ⟨hapart.1.symm, hapart.2.1.symm, fun idx hi hc => hapart.2.2 idx hi hc.symm⟩⟩
    have hapart := h.planned.apart.forall hu hu' fun heq => hne (by rw [heq])
    exact hapart.2

/-! ### The calls -/

theorem insert_call (hb : tbl.Bound) (h : tbl.Storing s S) {row : Row} (hnum : ∀ v ∈ row, v.isNaN = false) :
    wp ((TableCall.insert row).run tbl)
      (fun err s' => s' = s ∧ ¬ (TableCall.insert row).Accepted tbl s.next_auto_increment S ∧
        ∀ name, err.unique_index = some name → ∃ idx ∈ tbl.indexes, idx.schema.name = name ∧
          (TableCall.insert row).Collides tbl s.next_auto_increment S idx)
      (fun _ s' => (TableCall.insert row).Accepted tbl s.next_auto_increment S ∧
        tbl.Storing s' ((TableCall.insert row).effect tbl s.next_auto_increment S) ∧ Frame s s' tbl.Owns) s := by
  show wp (tbl.insert row >>= fun _ => pure ()) _ _ s
  rw [wp_bind]
  refine wp_mono (insert_stores hb h hnum) (fun key s' h' => ?_) fun err s' h' => ?_
  · obtain ⟨hnew, hstoring, hframe, -⟩ := h'
    have heffect : (TableCall.insert row).effect tbl s.next_auto_increment S =
        Insert.insert (key, tbl.assigned s.next_auto_increment row) S := by
      ext e
      simp only [TableCall.effect, TableCall.selected, TableCall.written, Set.sdiff_empty, Set.mem_union, Set.mem_ofPred_eq,
        Set.mem_insert_iff, or_comm (a := e ∈ S)]
      refine or_congr_left ⟨fun he => ?_, ?_⟩
      · have hkey := he.2
        rw [he.1, hnew.fits.key] at hkey
        exact Prod.ext (Except.ok.inj hkey).symm he.1
      · rintro rfl
        exact ⟨rfl, hnew.fits.key⟩
    rw [wp_pure, heffect]
    exact ⟨⟨key, hnew⟩, hstoring, hframe⟩
  · obtain ⟨rfl, hno, -, hunique⟩ := h'
    refine ⟨rfl, fun ⟨key, hnew⟩ => hno key hnew, fun name hname => ?_⟩
    obtain ⟨idx, hi, hidx, key, hkey, e, he, hc⟩ := hunique name hname
    exact ⟨idx, hi, hidx, (key, tbl.assigned s'.next_auto_increment row), ⟨rfl, hkey⟩, e, he, hc⟩

theorem update_call (hb : tbl.Bound) (hrep : tbl.Represents s.trees S) (hS : tbl.Sound S) {key : Key} (hnv : ∀ p ∈ nv, p.2.isNaN = false) :
    wp ((TableCall.update key nv).run tbl)
      (fun err s' => s' = s ∧ ¬ (TableCall.update key nv).Accepted tbl next S ∧
        ∀ name, err.unique_index = some name → ∃ idx ∈ tbl.indexes, idx.schema.name = name ∧
          (TableCall.update key nv).Collides tbl next S idx)
      (fun _ s' => (TableCall.update key nv).Accepted tbl next S ∧ tbl.Storing s' ((TableCall.update key nv).effect tbl next S) ∧
        Frame s s' tbl.Owns) s := by
  refine wp_mono (update_stores hb hrep hS hnv) (fun _ s' h' => ?_) fun err s' h' => ?_
  · obtain ⟨old, hold, hr, new, hnew, hn, hstoring, hframe, -⟩ := h'
    have hset : (TableCall.update key nv).selected S = {old} := selected_key hS hold hr
    have heffect : (TableCall.update key nv).effect tbl next S = Insert.insert new (S \ {old}) := by
      show (S \ (TableCall.update key nv).selected S) ∪ { e | ∃ o ∈ (TableCall.update key nv).selected S, tbl.Becomes nv o e } = _
      rw [hset, becomes_one hnew, Set.union_singleton]
    refine ⟨⟨?_, ?_⟩, by rw [heffect]; exact hstoring, hframe⟩
    · rw [hset]
      exact Set.singleton_nonempty old
    · rw [hset]
      exact replaceable_one hnew hn
  · obtain ⟨rfl, hno, hunique⟩ := h'
    refine ⟨rfl, fun hacc => ?_, fun name hname => ?_⟩
    · obtain ⟨⟨old, hold⟩, hreplace⟩ := hacc
      obtain ⟨new, hnew, hn⟩ := hreplace.each old hold
      exact hno old hold.1 hold.2 new hnew hn
    · obtain ⟨idx, hi, hidx, old, hold, hr, new, hnew, e, he, hne, hc⟩ := hunique name hname
      exact ⟨idx, hi, hidx, old, ⟨hold, hr⟩, new, hnew, .inl ⟨e, he, hne, hc⟩⟩

/-- The rows that a predicate selects, as the rows that are given. -/
theorem Refused.collides_where {ms : List ScanResult} {err : TableErr} {predicate : Predicate} (h : tbl.Refused S nv ms err)
    (hms : ∀ r : ScanResult, r ∈ ms ↔ r.entry ∈ S ∧ predicate r.row = some true) (hnodup : (ms.map ScanResult.entry).Nodup) {name : Bytes}
    (hname : err.unique_index = some name) : ∃ idx ∈ tbl.indexes, idx.schema.name = name ∧
      (TableCall.update_where predicate nv).Collides tbl next S idx := by
  obtain ⟨idx, hi, hidx, hcollides⟩ := h.collides name hname
  obtain ⟨old, hold, new, hnew, hway⟩ := hcollides next
  have hset : { e | ∃ m ∈ ms, e = m.entry } = (TableCall.update_where predicate nv).selected S := matched_where hms
  have hold : old ∈ { e | ∃ m ∈ ms, e = m.entry } := hold
  refine ⟨idx, hi, hidx, old, hset ▸ hold, new, hnew, hway.imp_right ?_⟩
  rintro ⟨old', new', hboth, hnew', hc⟩
  have hboth : List.Sublist [old', old] (ms.map ScanResult.entry) := hboth
  have hne : old' ≠ old := by
    intro heq
    exact (List.nodup_cons.1 (hboth.nodup hnodup)).1 (by rw [heq]; exact List.mem_singleton_self _)
  obtain ⟨m, hm, heq⟩ := List.mem_map.1 (hboth.subset List.mem_cons_self)
  have hold' : old' ∈ { e | ∃ m ∈ ms, e = m.entry } := ⟨m, hm, heq.symm⟩
  exact ⟨old', new', ⟨hset ▸ hold', hset ▸ hold, hne⟩, hnew', hc⟩

theorem update_where_call (hb : tbl.Bound) (hrep : tbl.Represents s.trees S) (hS : tbl.Sound S) {predicate : Predicate}
    (hnv : ∀ p ∈ nv, p.2.isNaN = false) :
    wp ((TableCall.update_where predicate nv).run tbl)
      (fun err s' => s' = s ∧ ¬ (TableCall.update_where predicate nv).Accepted tbl next S ∧
        ∀ name, err.unique_index = some name → ∃ idx ∈ tbl.indexes, idx.schema.name = name ∧
          (TableCall.update_where predicate nv).Collides tbl next S idx)
      (fun _ s' => (TableCall.update_where predicate nv).Accepted tbl next S ∧
        tbl.Storing s' ((TableCall.update_where predicate nv).effect tbl next S) ∧ Frame s s' tbl.Owns) s := by
  show wp (tbl.update_where predicate nv >>= fun _ => pure ()) _ _ s
  rw [wp_bind]
  refine wp_mono (update_where_stores hb hrep hS hnv) (fun _ s' h' => ?_) fun err s' h' => ?_
  · obtain ⟨hframe, htotal, ms, us, hbatch, hms, hfits, hstoring, -⟩ := h'
    have hset : { e | ∃ m ∈ ms, e = m.entry } = (TableCall.update_where predicate nv).selected S := matched_where hms
    refine ⟨⟨htotal, hset ▸ (hbatch.replaceable hfits).2⟩, ?_, hframe⟩
    rw [hbatch.effect] at hstoring
    show tbl.Storing s' ((S \ (TableCall.update_where predicate nv).selected S) ∪
      { e | ∃ old ∈ (TableCall.update_where predicate nv).selected S, tbl.Becomes nv old e })
    rw [← hset]
    exact hstoring
  · obtain ⟨rfl, ⟨rfl, hnot⟩ | ⟨ms, hms, hnodup, hrefused⟩⟩ := h'
    · exact ⟨rfl, fun hacc => hnot hacc.1, fun name hname => by cases hname⟩
    · refine ⟨rfl, fun hacc => hrefused.not_replaceable ⟨hnodup, ?_⟩, fun name hname => hrefused.collides_where hms hnodup hname⟩
      rw [matched_where hms]
      exact hacc.2

theorem update_matched_call (hb : tbl.Bound) (h : tbl.Storing s S) {ms : List ScanResult} (hnv : ∀ p ∈ nv, p.2.isNaN = false)
    (hms : ∀ m ∈ ms, m.entry ∈ S) :
    wp ((TableCall.update_matched ms nv).run tbl)
      (fun err s' => s' = s ∧ ¬ (TableCall.update_matched ms nv).Accepted tbl next S ∧
        ∀ name, err.unique_index = some name → ∃ idx ∈ tbl.indexes, idx.schema.name = name ∧
          (TableCall.update_matched ms nv).Collides tbl next S idx)
      (fun _ s' => (TableCall.update_matched ms nv).Accepted tbl next S ∧
        tbl.Storing s' ((TableCall.update_matched ms nv).effect tbl next S) ∧ Frame s s' tbl.Owns) s := by
  show wp (tbl.update_matched ms nv >>= fun _ => pure ()) _ _ s
  rw [wp_bind]
  refine wp_mono (update_matched_stores hb h hnv hms) (fun _ s' h' => ?_) fun err s' h' => ?_
  · obtain ⟨hframe, us, hbatch, hfits, hstoring, -⟩ := h'
    rw [hbatch.effect] at hstoring
    exact ⟨hbatch.replaceable hfits, hstoring, hframe⟩
  · obtain ⟨rfl, hrefused⟩ := h'
    refine ⟨rfl, fun hacc => hrefused.not_replaceable hacc, fun name hname => ?_⟩
    obtain ⟨idx, hi, hidx, hcollides⟩ := hrefused.collides name hname
    exact ⟨idx, hi, hidx, hcollides next⟩

/-- **A call does everything or nothing.** It is refused if and only if it should not be accepted, and nothing is changed then; and a
unique index that refuses it would be broken by it. -/
theorem call_spec (hb : tbl.Bound) (hrep : tbl.Represents s.trees S) (hS : tbl.Sound S) {c : TableCall}
    (hnum : ∀ v ∈ c.values, v.isNaN = false) (hm : c.Matched S) :
    wp (c.run tbl)
      (fun err s' => s' = s ∧ ¬ c.Accepted tbl s.next_auto_increment S ∧
        ∀ name, err.unique_index = some name → ∃ idx ∈ tbl.indexes, idx.schema.name = name ∧ c.Collides tbl s.next_auto_increment S idx)
      (fun _ s' => c.Accepted tbl s.next_auto_increment S ∧ tbl.Storing s' (c.effect tbl s.next_auto_increment S) ∧
        Frame s s' tbl.Owns) s := by
  have hstoring := storing_of_represents hrep hS
  have hvalues : ∀ {nv : NewValues}, c.values = nv.map Prod.snd → ∀ p ∈ nv, p.2.isNaN = false := fun hc p hp =>
    hnum p.2 (by rw [hc]; exact List.mem_map_of_mem hp)
  cases c with
  | insert row => exact insert_call hb hstoring hnum
  | update key nv => exact update_call hb hrep hS (hvalues rfl)
  | update_where predicate nv => exact update_where_call hb hrep hS (hvalues rfl)
  | update_matched ms nv => exact update_matched_call hb hstoring (hvalues rfl) hm
  | delete_row key =>
    refine wp_mono (delete_row_spec hb hrep hS) (fun _ s' h' => ?_) fun err s' h' => ?_
    · obtain ⟨old, hold, hr, hrep', hframe⟩ := h'
      have heffect : (TableCall.delete_row key).effect tbl s.next_auto_increment S = S \ {old} := by
        show (S \ { e | e ∈ S ∧ e.1.rank = key.rank }) ∪ ∅ = _
        rw [selected_key hS hold hr, Set.union_empty]
      rw [heffect]
      exact ⟨⟨old, hold, hr⟩, storing_of_represents hrep' (hS.mono Set.sdiff_subset), hframe⟩
    · obtain ⟨rfl, hplain, hnone⟩ := h'
      refine ⟨rfl, fun ⟨old, hold, hr⟩ => hnone old hold hr, fun name hname => ?_⟩
      rw [hplain] at hname
      cases hname
  | delete_where predicate =>
    show wp (tbl.delete_where predicate >>= fun _ => pure ()) _ _ s
    rw [wp_bind]
    refine wp_mono (delete_where_spec hb ⟨hrep, hS, contents_short hrep⟩) (fun _ s' h' => ?_) fun err s' h' => ?_
    · obtain ⟨-, hframe, htotal, hholding⟩ := h'
      have heffect : (TableCall.delete_where predicate).effect tbl s.next_auto_increment S = S \ { e | e ∈ S ∧ predicate e.2 = some true } :=
        Set.union_empty _
      rw [wp_pure, heffect]
      exact ⟨htotal, hholding.storing, hframe⟩
    · obtain ⟨rfl, rfl, hnot⟩ := h'
      exact ⟨rfl, fun hacc => hnot hacc, fun name hname => by cases hname⟩

/-- The rows are read back if what has been written is short, and only then. -/
theorem effect_read_back {c : TableCall} (hrep : tbl.Represents s.trees S) (h : tbl.Storing s' (c.effect tbl next S)) :
    tbl.Represents s'.trees (c.effect tbl next S) ↔ ∀ e ∈ c.written tbl next S, Row.Short e.2 := by
  constructor
  · intro hread e he
    exact contents_short hread e (Set.mem_union_right _ he)
  · intro hshort
    refine h.represents fun e he => ?_
    rcases he with ⟨he, -⟩ | he
    · exact contents_short hrep e he
    · exact hshort e he

/-- What a plain call writes is short. -/
theorem written_short {c : TableCall} (hS : Contents.Short S) (hm : c.Matched S) (hshort : Row.Short c.values) :
    ∀ e ∈ c.written tbl next S, Row.Short e.2 := by
  -- a row that gets new values was in the table
  have hreplaced : ∀ nv : NewValues, c.values = nv.map Prod.snd → (∀ old ∈ c.selected S, old ∈ S) →
      ∀ e, (∃ old ∈ c.selected S, tbl.Becomes nv old e) → Row.Short e.2 := by
    intro nv hnv hsub e he
    obtain ⟨old, hold, hbecomes⟩ := he
    have hshort' : Row.Short (nv.map Prod.snd) := hnv ▸ hshort
    exact apply_values_short hbecomes.applied (hS old (hsub old hold)) hshort'
  intro e he
  cases c with
  | insert row =>
    obtain ⟨hrow, -⟩ := he
    rw [hrow]
    exact assigned_short hshort next
  | update key nv => exact hreplaced nv rfl (fun old hold => hold.1) e he
  | update_where predicate nv => exact hreplaced nv rfl (fun old hold => hold.1) e he
  | update_matched ms nv =>
    refine hreplaced nv rfl (fun old hold => ?_) e he
    obtain ⟨m, hmem, rfl⟩ := hold
    exact hm m hmem
  | delete_row key => exact he.elim
  | delete_where predicate => exact he.elim

/-- **A step**: whichever way it ends, the trees hold sound contents. -/
theorem step_holding (hb : tbl.Bound) {e : TableStep} (h : ∃ S, tbl.Holding s S) (hplain : StepPlain tbl e s) (hs : tbl.Step e s s') :
    ∃ S', tbl.Holding s' S' := by
  obtain ⟨S, h⟩ := h
  cases e with
  | reopen =>
    have hok : tbl.init_auto_increment { s with next_auto_increment := 1 } = .ok () s' := hs
    obtain ⟨htrees, -, -⟩ := wp_ok init_auto_increment_spec hok
    have htrees : s'.trees = s.trees := htrees
    exact ⟨S, htrees ▸ h.represents, h.sound, h.short⟩
  | call c =>
    obtain ⟨hnum, hshort, hm⟩ := hplain
    rw [contents_eq h.represents] at hm
    have hspec := call_spec hb h.represents h.sound hnum hm
    rcases hs with hok | ⟨err, herr⟩
    · obtain ⟨-, hstoring, -⟩ := wp_ok hspec hok
      have hread := (effect_read_back h.represents hstoring).2 (written_short h.short hm hshort)
      exact ⟨_, hread, hstoring.sound, contents_short hread⟩
    · obtain ⟨rfl, -⟩ := wp_error hspec herr
      exact ⟨S, h⟩

end Table

end GSDBEngine
