import GSDBEngine.Spec.AutoIncrement
import GSDBEngine.Proof.Batch

/-!
# The next key

Where every new key follows, the counter, as an `int32_t`, stays above all keys.

* `Table.Ahead`: the invariant. `Table.follows_ahead`: what a key does to it.
* `Table.step_ahead`: a step. `Table.next_key_larger`: **the key that is assigned is larger than every other one.**
-/

namespace GSDBEngine

open Eff

/-! ### 32 bits -/

theorem toInt32_toInt (n : UInt32) : n.toInt32.toInt = if n.toNat < 2 ^ 31 then (n.toNat : ℤ) else n.toNat - 2 ^ 32 := by
  rw [← Int32.toInt_toBitVec, UInt32.toBitVec_toInt32, BitVec.toInt_eq_toNat_cond, UInt32.toNat_toBitVec]
  split <;> split <;> omega

theorem toUInt32_toNat (v : Int32) : (v.toUInt32.toNat : ℤ) = if 0 ≤ v.toInt then v.toInt else v.toInt + 2 ^ 32 := by
  have h := BitVec.toInt_eq_toNat_cond v.toBitVec
  rw [Int32.toInt_toBitVec, Int32.toNat_toBitVec] at h
  have hlt := v.toUInt32.toNat_lt
  split at h <;> split <;> omega

/-- A single INT compares equal to itself only. -/
theorem int_key_of_rank {k : Key} {v : Int32} (h : k.rank = Key.rank [.int v]) : k = [.int v] := by
  obtain ⟨x, rfl⟩ := List.length_eq_one_iff.1 (Key.length_of_rank h)
  have hrank : x.rank = (Value.int v).rank := (List.cons.inj h).1
  cases x with
  | int w =>
    have hw : w = v := Int32.toInt_inj.1 (by simpa [Value.rank] using hrank)
    rw [hw]
  | _ => simp [Value.rank] at hrank

namespace Table

variable {tbl : Table} {s s' : TableState} {S S' : Contents} {nv : NewValues} {i : ℕ} {next : UInt32} {v : Int32}

/-- **The counter is above all keys**, or behind `INT32_MAX`. -/
def Above (next : UInt32) (S : Contents) : Prop := next.toNat = 2 ^ 31 ∨ ∀ e ∈ S, ∀ w, e.1 = [.int w] → w < next.toInt32

/-- **The invariant.** -/
structure Ahead (tbl : Table) (s : TableState) (S : Contents) : Prop where
  holding : tbl.Holding s S
  above : Above s.next_auto_increment S

theorem contents_eq (h : tbl.Represents s.trees S) : tbl.contents s.trees = S := by
  ext e
  constructor
  · rintro ⟨bytes, hmem, hread⟩
    obtain ⟨row, hrow, hread'⟩ := h.rows _ _ hmem
    rw [hread] at hread'
    obtain rfl := Except.ok.inj hread'
    exact hrow
  · intro he
    exact h.stored e he

/-- The counter past a key that is one INT. -/
theorem advanced_int (ha : tbl.schema.auto_increment_column = some i) (next : UInt32) (v : Int32) :
    tbl.advanced next [.int v] = if v.toUInt32 ≥ next then v.toUInt32 + 1 else next := by
  unfold advanced
  rw [ha]
  rfl

/-- **A key that follows** leaves the counter above it and above the others. -/
theorem follows_ahead (ha : tbl.schema.auto_increment_column = some i) (h : Above next S) (hf : Follows next S v) :
    Above (tbl.advanced next [.int v]) S ∧ ((tbl.advanced next [.int v]).toNat = 2 ^ 31 ∨ v < (tbl.advanced next [.int v]).toInt32) := by
  have hv := toUInt32_toNat v
  have hlo := v.le_toInt
  have hhi := v.toInt_lt
  have hn := next.toNat_lt
  have hu := v.toUInt32.toNat_lt
  have hnext := toInt32_toInt next
  have hsucc := toInt32_toInt (v.toUInt32 + 1)
  have hadd : (v.toUInt32 + 1).toNat = (v.toUInt32.toNat + 1) % 2 ^ 32 := UInt32.toNat_add ..
  have hge : v.toUInt32 ≥ next ↔ next.toNat ≤ v.toUInt32.toNat := UInt32.le_iff_toNat_le
  have hzero : (0 : Int32).toInt = 0 := rfl
  rw [advanced_int ha]
  unfold Follows at hf
  unfold Above at h ⊢
  simp only [Int32.lt_iff_toInt_lt, Int32.le_iff_toInt_le] at h hf ⊢
  rw [hzero] at hf
  by_cases hside : next.toNat ≤ 2 ^ 31
  · rw [if_pos hside] at hf
    rcases hf with hpos | hlast
    · -- on this side of zero
      by_cases hmove : v.toUInt32 ≥ next
      · rw [if_pos hmove]
        have hmove := hge.1 hmove
        refine ⟨?_, by split at hsucc <;> split at hv <;> omega⟩
        by_cases hend : (v.toUInt32 + 1).toNat = 2 ^ 31
        · exact .inl hend
        · refine .inr fun e he w hw => ?_
          rcases h with h | h
          · split at hv <;> omega
          · have hlt := h e he w hw
            split at hsucc <;> split at hv <;> split at hnext <;> omega
      · rw [if_neg hmove]
        have hmove : ¬ next.toNat ≤ v.toUInt32.toNat := fun hle => hmove (hge.2 hle)
        refine ⟨h, ?_⟩
        split at hv <;> split at hnext <;> omega
    · by_cases hpos : 0 ≤ v.toInt
      · by_cases hmove : v.toUInt32 ≥ next
        · rw [if_pos hmove]
          refine ⟨?_, by split at hsucc <;> split at hv <;> omega⟩
          by_cases hend : (v.toUInt32 + 1).toNat = 2 ^ 31
          · exact .inl hend
          · refine .inr fun e he w hw => ?_
            have hle := hlast e he w hw
            split at hsucc <;> split at hv <;> omega
        · rw [if_neg hmove]
          have hmove : ¬ next.toNat ≤ v.toUInt32.toNat := fun hle => hmove (hge.2 hle)
          refine ⟨h, ?_⟩
          split at hv <;> split at hnext <;> omega
      · -- the first negative key, and the last of all
        have hmove : v.toUInt32 ≥ next := hge.2 (by split at hv <;> omega)
        rw [if_pos hmove]
        refine ⟨.inr fun e he w hw => ?_, .inr ?_⟩
        · have hle := hlast e he w hw
          split at hsucc <;> split at hv <;> omega
        · split at hsucc <;> split at hv <;> omega
  · rw [if_neg hside] at hf
    have hall := h.resolve_left (by omega)
    by_cases hmove : v.toUInt32 ≥ next
    · rw [if_pos hmove]
      have hmove := hge.1 hmove
      refine ⟨.inr fun e he w hw => ?_, .inr ?_⟩
      · have hlt := hall e he w hw
        split at hsucc <;> split at hv <;> split at hnext <;> omega
      · split at hsucc <;> split at hv <;> omega
    · rw [if_neg hmove]
      have hmove : ¬ next.toNat ≤ v.toUInt32.toNat := fun hle => hmove (hge.2 hle)
      refine ⟨h, .inr ?_⟩
      split at hv <;> split at hnext <;> omega

theorem Above.mono (h : Above next S) (hs : S' ⊆ S) : Above next S' :=
  h.imp_right fun hall e he => hall e (hs he)

theorem Above.insert {new : Key × Row} (h : Above next S) (hnew : next.toNat = 2 ^ 31 ∨ ∀ w, new.1 = [.int w] → w < next.toInt32) :
    Above next (Insert.insert new S) := by
  rcases h with h | hall
  · exact .inl h
  · refine hnew.imp_right fun hnew e he => ?_
    rcases Set.mem_insert_iff.1 he with rfl | he
    · exact hnew
    · exact hall e he

/-- **A row comes** under a key that follows. -/
theorem Above.insert_advanced {new : Key × Row} (ha : tbl.schema.auto_increment_column = some i) (h : Above next S) (hkey : new.1 = [.int v])
    (hf : Follows next S v) : Above (tbl.advanced next new.1) (Insert.insert new S) := by
  obtain ⟨habove, hlt⟩ := follows_ahead ha h hf
  rw [hkey]
  refine habove.insert (hlt.imp_right fun hlt w hw => ?_)
  obtain rfl : v = w := by simpa using hkey.symm.trans hw
  exact hlt

/-! ### Updates -/

section updates

variable {u : PlannedUpdate} {us : List PlannedUpdate} {ms : List ScanResult}

/-- **A row is replaced**: its new key follows, unless it is the old one. -/
theorem Above.replace (ha : tbl.schema.auto_increment_column = some i) (h : Above next S) (hold : u.old ∈ S) (hnum : u.old_key.hasNaN = false)
    (hkey : u.new_key = [.int v]) (hf : u.new_key ≠ u.old_key → Follows next (S \ {u.old}) v) : Above (u.advance tbl next) (u.replace S) := by
  unfold PlannedUpdate.advance PlannedUpdate.replace
  have hrest : Above next (S \ {u.old}) := h.mono Set.sdiff_subset
  have hnew : u.new_key.hasNaN = false := by rw [hkey]; rfl
  by_cases heq : Key.eq u.new_key u.old_key = true
  · rw [if_pos heq]
    refine hrest.insert (h.imp_right fun hall w hw => hall _ hold w ?_)
    exact int_key_of_rank (((Key.eq_iff hnew hnum).1 heq).symm.trans (congrArg Key.rank hw))
  · rw [if_neg heq]
    have hkey' : u.new.1 = [.int v] := hkey
    refine hrest.insert_advanced ha hkey' (hf fun hsame => heq ?_)
    rw [hsame]
    exact (Key.eq_iff hnum hnum).2 rfl

/-- **One row, or no new key**: a key that is set is the same in every row. -/
theorem Batch.one_or_same (ha : tbl.schema.auto_increment_column = some i) (hS : tbl.Sound S) (h : tbl.Batch S nv ms us) :
    us.length ≤ 1 ∨ ∀ u ∈ us, u.new_key = u.old_key := by
  by_cases hset : ∃ p ∈ nv, p.1 = i
  · left
    match us, h with
    | [], _ => exact Nat.zero_le 1
    | [_], _ => exact Nat.le_refl 1
    | u :: u' :: us, h =>
      have hu := h.drafted u List.mem_cons_self
      have hu' := h.drafted u' (List.mem_cons_of_mem _ List.mem_cons_self)
      obtain ⟨x, hx, hkey⟩ := auto_column_key ha hu.key
      obtain ⟨x', hx', hkey'⟩ := auto_column_key ha hu'.key
      rw [apply_values_same hu.applied hu'.applied hset, hx'] at hx
      obtain rfl := Option.some.inj hx
      have hapart := ((List.pairwise_cons.1 h.planned.apart).1 u' List.mem_cons_self).2.1
      rw [hkey, hkey'] at hapart
      exact absurd rfl hapart
  · refine .inr fun u hu => ?_
    have hdraft := h.drafted u hu
    obtain ⟨x, hx, hkey⟩ := auto_column_key ha hdraft.key
    obtain ⟨y, hy, hkey'⟩ := auto_column_key ha (hS.fits _ hdraft.old).key
    rw [apply_values_keep hdraft.applied fun p hp heq => hset ⟨p, hp, heq⟩] at hx
    obtain rfl := Option.some.inj (hx.symm.trans hy)
    exact hkey.trans hkey'.symm

/-- Rows replaced under their keys. -/
theorem Above.replace_all : ∀ {us : List PlannedUpdate} {S : Contents}, Above next S →
    (∀ u ∈ us, next.toNat = 2 ^ 31 ∨ ∀ w, u.new_key = [.int w] → w < next.toInt32) → Above next (us.foldl PlannedUpdate.replace S)
  | [], _, h, _ => h
  | u :: us, S, h, hus => by
    have hone : Above next (u.replace S) := (h.mono Set.sdiff_subset).insert (hus u List.mem_cons_self)
    rw [List.foldl_cons]
    exact Above.replace_all hone fun u' hu' => hus u' (List.mem_cons_of_mem _ hu')

theorem advance_same : ∀ {us : List PlannedUpdate}, (∀ u ∈ us, u.new_key = u.old_key ∧ u.old_key.hasNaN = false) →
    us.foldl (PlannedUpdate.advance tbl) next = next
  | [], _ => rfl
  | u :: us, h => by
    obtain ⟨hsame, hnum⟩ := h u List.mem_cons_self
    have hone : u.advance tbl next = next := by
      unfold PlannedUpdate.advance
      rw [hsame, if_pos ((Key.eq_iff hnum hnum).2 rfl)]
    rw [List.foldl_cons, hone]
    exact advance_same fun u' hu' => h u' (List.mem_cons_of_mem _ hu')

/-- **A batch**: where every new key follows, the counter is above all keys after it. -/
theorem Batch.above (ha : tbl.schema.auto_increment_column = some i) (hS : tbl.Sound S) (hbatch : tbl.Batch S nv ms us) (h : Above next S)
    (hS' : tbl.Sound (us.foldl PlannedUpdate.replace S))
    (hf : ∀ u ∈ us, ∀ v, u.new_key = [.int v] → (∀ e ∈ S, e.1 ≠ [.int v]) → Follows next (S \ { e | ∃ m ∈ ms, e = m.entry }) v) :
    Above (us.foldl (PlannedUpdate.advance tbl) next) (us.foldl PlannedUpdate.replace S) := by
  have hnum : ∀ u ∈ us, u.old_key.hasNaN = false := fun u hu => (hS.fits _ (hbatch.drafted u hu).old).key_hasNaN
  have hmatched := hbatch.matched
  rcases hbatch.one_or_same ha hS with hone | hsame
  · match us, hbatch, hone with
    | [], _, _ => exact h
    | [u], hbatch, _ =>
      have hu : u ∈ [u] := List.mem_cons_self
      have hfit : tbl.Fits u.new := hS'.fits _ (Set.mem_insert _ _)
      obtain ⟨v, hkey⟩ := hfit.auto_key (by rw [ha]; rfl)
      have hkey : u.new_key = [.int v] := hkey
      refine h.replace ha (hbatch.drafted u hu).old (hnum u hu) hkey fun hne => ?_
      have hfollows := hf u hu v hkey fun e he heq => ?_
      · have hset : { e | ∃ m ∈ ms, e = m.entry } = {u.old} := by
          rw [← hmatched]
          ext e
          simp
        rwa [hset] at hfollows
      · by_cases hold : e = u.old
        · rw [hold] at heq
          exact hne (hkey.trans heq.symm)
        · exact (hbatch.planned.free u hu e he hold).1 (by rw [heq, hkey])
    | _ :: _ :: _, _, hlong => exact absurd hlong (by simp)
  · rw [advance_same fun u hu => ⟨hsame u hu, hnum u hu⟩]
    refine h.replace_all fun u hu => h.imp_right fun hall w hw => hall _ (hbatch.drafted u hu).old w ?_
    exact (hsame u hu).symm.trans hw

/-- The rows after a batch are short. -/
theorem Batch.short (hbatch : tbl.Batch S nv ms us) (hS : Contents.Short S) (hshort : Row.Short (nv.map Prod.snd)) :
    Contents.Short (us.foldl PlannedUpdate.replace S) := by
  rw [hbatch.planned.replace_all]
  rintro e (⟨he, -⟩ | ⟨u, hu, rfl⟩)
  · exact hS e he
  · exact apply_values_short (hbatch.drafted u hu).applied (hS _ (hbatch.drafted u hu).old) hshort

end updates

/-! ### Steps -/

/-- **The table made anew**: its counter is behind the last key. -/
theorem reopen_ahead (ha : tbl.schema.auto_increment_column = some i) (h : tbl.Holding s S)
    (hs : tbl.Step .reopen s s') : tbl.Ahead s' S := by
  have hrun : wp tbl.init_auto_increment (fun _ _ => True) (fun _ s' => tbl.Ahead s' S) { s with next_auto_increment := 1 } := by
    unfold init_auto_increment
    rw [ha, Option.isSome_some, if_pos rfl, wp_bind, wp_btree_scan_all]
    dsimp only
    cases hlast : (s.trees.tree tbl.rows).entries.entries.getLast? with
    | none =>
      refine ⟨⟨h.represents, h.sound, h.short⟩, .inr fun e he => ?_⟩
      obtain ⟨bytes, hmem, -⟩ := h.represents.stored e he
      rw [List.getLast?_eq_none_iff.1 hlast] at hmem
      exact absurd hmem List.not_mem_nil
    | some last =>
      obtain ⟨front, hfront⟩ := List.getLast?_eq_some_iff.1 hlast
      obtain ⟨row, hrow, -⟩ := h.represents.rows last.1 last.2 (List.mem_of_getLast? hlast)
      obtain ⟨v, hv⟩ := (h.sound.fits _ hrow).auto_key (by rw [ha]; rfl)
      obtain ⟨k, bytes⟩ := last
      obtain rfl : k = [.int v] := hv
      refine ⟨⟨h.represents, h.sound, h.short⟩, ?_⟩
      -- no key is above the last
      have hle : ∀ e ∈ S, ∀ w, e.1 = [.int w] → w.toInt ≤ v.toInt := by
        intro e he w hw
        obtain ⟨b, hmem, -⟩ := h.represents.stored e he
        have hsorted := (s.trees.tree tbl.rows).entries.sorted
        rw [hfront] at hmem hsorted
        rcases List.mem_append.1 hmem with hmem | hmem
        · have hlt := (List.pairwise_append.1 hsorted).2.2 _ hmem _ List.mem_cons_self
          rw [hw] at hlt
          have hlt : Key.rank [.int w] < Key.rank [.int v] := hlt
          rw [← Key.lt_iff rfl rfl] at hlt
          have hlt : w < v := by simpa [Key.lt, Lex.lexLt, Value.lt] using hlt
          exact le_of_lt (Int32.lt_iff_toInt_lt.1 hlt)
        · have heq := congrArg Prod.fst (List.mem_singleton.1 hmem)
          rw [hw] at heq
          rw [(Value.int.inj (List.cons.inj heq).1)]
      have hv := toUInt32_toNat v
      have hhi := v.toInt_lt
      have hlo := v.le_toInt
      have hsucc := toInt32_toInt (v.toUInt32 + 1)
      have hadd : (v.toUInt32 + 1).toNat = (v.toUInt32.toNat + 1) % 2 ^ 32 := UInt32.toNat_add ..
      by_cases hend : (v.toUInt32 + 1).toNat = 2 ^ 31
      · exact .inl hend
      · refine .inr fun e he w hw => Int32.lt_iff_toInt_lt.2 ?_
        have hw := hle e he w hw
        show w.toInt < (v.toUInt32 + 1).toInt32.toInt
        split at hsucc <;> split at hv <;> omega
  have hok : tbl.init_auto_increment { s with next_auto_increment := 1 } = .ok () s' := hs
  have hahead := wp_ok hrun hok
  exact hahead

theorem still_delete_row (tbl : Table) (primary_key : Key) : Still (tbl.delete_row primary_key) := by
  refine (still_search _ _).bind fun found => ?_
  cases found with
  | none => exact still_throw _
  | some bytes => exact (still_liftE _).bind fun old_row => still_remove_row tbl primary_key old_row

/-- **A call keeps the counter above all keys**, however it ends. -/
theorem call_ahead (hb : tbl.Bound) (ha : tbl.schema.auto_increment_column = some i) {c : TableCall} (h : tbl.Ahead s S)
    (hplain : StepPlain tbl (.call c) s) (hfollows : StepFollows tbl (.call c) s) :
    wp (c.run tbl) (fun _ s' => ∃ S', tbl.Ahead s' S') (fun _ s' => ∃ S', tbl.Ahead s' S') s := by
  obtain ⟨hnum, hshort, hmatched⟩ := hplain
  obtain ⟨hfollows, -⟩ := hfollows
  obtain ⟨hhold, habove⟩ := h
  rw [contents_eq hhold.represents] at hmatched hfollows
  have hvalues : ∀ {nv : NewValues}, c.values = nv.map Prod.snd → ∀ p ∈ nv, p.2.isNaN = false := fun hc p hp =>
    hnum p.2 (by rw [hc]; exact List.mem_map_of_mem hp)
  have hsame : ∃ S', tbl.Ahead s S' := ⟨S, hhold, habove⟩
  cases c with
  | insert row =>
    show wp (tbl.insert row >>= fun _ => pure ()) _ _ s
    rw [wp_bind]
    refine wp_mono (insert_stores hb hhold.storing hnum) (fun key s' h' => ?_) fun _ s' h' => by rw [h'.1]; exact hsame
    obtain ⟨hnew, hstoring, -, hnext⟩ := h'
    obtain ⟨v, hkey⟩ := hnew.fits.auto_key (by rw [ha]; rfl)
    have hf := hfollows _ ⟨rfl, hnew.fits.key⟩ v hkey fun e he heq => hnew.key e he (by rw [heq, hkey])
    have hall : S \ TableCall.selected S (.insert row) = S := Set.sdiff_empty
    rw [hall] at hf
    refine ⟨_, hstoring.holding fun e he => ?_, ?_⟩
    · rcases Set.mem_insert_iff.1 he with rfl | he
      · exact assigned_short hshort _
      · exact hhold.short e he
    · rw [hnext]
      exact habove.insert_advanced ha hkey hf
  | update primary_key new_values =>
    refine wp_mono (update_stores hb hhold.represents hhold.sound (hvalues rfl)) (fun _ s' h' => ?_)
      fun _ s' h' => by rw [h'.1]; exact hsame
    obtain ⟨old, hold, hr, new, hbecomes, hnew, hstoring, -, hnext⟩ := h'
    obtain ⟨v, hkey⟩ := hnew.fits.auto_key (by rw [ha]; rfl)
    obtain ⟨w, hw⟩ := (hhold.sound.fits old hold).auto_key (by rw [ha]; rfl)
    obtain rfl : primary_key = old.1 := (int_key_of_rank (hr.symm.trans (congrArg Key.rank hw))).trans hw.symm
    have hset : TableCall.selected S (.update old.1 new_values) = {old} := by
      ext e
      refine ⟨fun he => hhold.sound.one e he.1 old hold he.2, ?_⟩
      rintro rfl
      exact ⟨hold, rfl⟩
    refine ⟨_, hstoring.holding fun e he => ?_, ?_⟩
    · rcases Set.mem_insert_iff.1 he with rfl | he
      · exact apply_values_short hbecomes.applied (hhold.short old hold) hshort
      · exact hhold.short e he.1
    · rw [hnext]
      have hreplace := habove.replace ha (u := ⟨old.1, new.1, old.2, new.2⟩) hold (hhold.sound.fits old hold).key_hasNaN hkey fun hne => ?_
      · exact hreplace
      · have hf := hfollows new ⟨old, by rw [hset]; rfl, hbecomes⟩ v hkey fun e he heq => ?_
        · rwa [hset] at hf
        · by_cases heold : e = old
          · rw [heold] at heq
            exact hne (hkey.trans heq.symm)
          · exact hnew.key e ⟨he, heold⟩ (by rw [heq, hkey])
  | update_where predicate new_values =>
    show wp (tbl.update_where predicate new_values >>= fun _ => pure ()) _ _ s
    rw [wp_bind]
    refine wp_mono (update_where_stores hb hhold.represents hhold.sound (hvalues rfl)) (fun _ s' h' => ?_)
      fun _ s' h' => by rw [h'.1]; exact hsame
    obtain ⟨-, -, ms, us, hbatch, hms, -, hstoring, hnext⟩ := h'
    have hwhere : { e | ∃ m ∈ ms, e = m.entry } = TableCall.selected S (.update_where predicate new_values) := matched_where hms
    refine ⟨_, hstoring.holding (hbatch.short hhold.short hshort), ?_⟩
    rw [hnext]
    refine hbatch.above ha hhold.sound habove hstoring.sound fun u hu v hkey hfresh => ?_
    have hdraft := hbatch.drafted u hu
    rw [hwhere]
    refine hfollows u.new ⟨u.old, ?_, hdraft.becomes⟩ v hkey hfresh
    rw [← hwhere, ← hbatch.matched]
    exact ⟨u, hu, rfl⟩
  | update_matched matched_rows new_values =>
    show wp (tbl.update_matched matched_rows new_values >>= fun _ => pure ()) _ _ s
    rw [wp_bind]
    refine wp_mono (update_matched_stores hb hhold.storing (hvalues rfl) hmatched) (fun _ s' h' => ?_)
      fun _ s' h' => by rw [h'.1]; exact hsame
    obtain ⟨-, us, hbatch, -, hstoring, hnext⟩ := h'
    refine ⟨_, hstoring.holding (hbatch.short hhold.short hshort), ?_⟩
    rw [hnext]
    refine hbatch.above ha hhold.sound habove hstoring.sound fun u hu v hkey hfresh => ?_
    have hdraft := hbatch.drafted u hu
    refine hfollows u.new ⟨u.old, ?_, hdraft.becomes⟩ v hkey hfresh
    show u.old ∈ { e | ∃ m ∈ matched_rows, e = m.entry }
    rw [← hbatch.matched]
    exact ⟨u, hu, rfl⟩
  | delete_row primary_key =>
    refine wp_mono (wp_and (delete_row_spec hb hhold.represents hhold.sound) (still_delete_row tbl primary_key s)) (fun _ s' h' => ?_)
      fun _ s' h' => by rw [h'.1.1]; exact hsame
    obtain ⟨⟨old, -, -, hrep, -⟩, hnext⟩ := h'
    refine ⟨_, ⟨hrep, hhold.sound.mono Set.sdiff_subset, fun e he => hhold.short e he.1⟩, ?_⟩
    rw [hnext]
    exact habove.mono Set.sdiff_subset
  | delete_where predicate =>
    show wp (tbl.delete_where predicate >>= fun _ => pure ()) _ _ s
    rw [wp_bind]
    refine wp_mono (delete_where_spec hb hhold) (fun _ s' h' => ?_) fun _ s' h' => by rw [h'.1]; exact hsame
    obtain ⟨hnext, -, -, hholding⟩ := h'
    refine ⟨_, hholding, ?_⟩
    rw [hnext]
    exact habove.mono Set.sdiff_subset

/-- **A step.** -/
theorem step_ahead (hb : tbl.Bound) (ha : tbl.schema.auto_increment_column = some i) {e : TableStep} (h : ∃ S, tbl.Ahead s S)
    (hplain : StepPlain tbl e s) (hfollows : StepFollows tbl e s) (hs : tbl.Step e s s') : ∃ S', tbl.Ahead s' S' := by
  obtain ⟨S, h⟩ := h
  cases e with
  | reopen => exact ⟨S, reopen_ahead ha h.holding hs⟩
  | call c =>
    have hcall := call_ahead hb ha h hplain hfollows
    rcases hs with hok | ⟨err, herr⟩
    · exact wp_ok hcall hok
    · exact wp_error hcall herr

/-! ### A key left to AUTO_INCREMENT -/

section assigned

variable {row : Row}

theorem assigned_null (ha : tbl.schema.auto_increment_column = some i) (hrow : row[i]? = some .null) (next : UInt32) :
    tbl.assigned next row = row.set i (.int next.toInt32) := by
  unfold assigned
  rw [ha]
  dsimp only
  rw [hrow]
  rfl

/-- **The key that is assigned.** -/
theorem extract_assigned (ha : tbl.schema.auto_increment_column = some i) (hrow : row[i]? = some .null) (next : UInt32) :
    tbl.schema.extract_primary_key (tbl.assigned next row) = .ok [.int next.toInt32] := by
  rw [assigned_null ha hrow]
  obtain ⟨hlt, -⟩ := List.getElem?_eq_some_iff.1 hrow
  unfold TableSchema.auto_increment_column at ha
  split at ha
  · rename_i c hc
    split at ha
    · split at ha
      · obtain rfl := Option.some.inj ha
        unfold TableSchema.extract_primary_key
        rw [hc]
        unfold TableSchema.extract_primary_key.go
        rw [List.getElem?_set_self hlt]
        rfl
      · cases ha
    · cases ha
  · cases ha

/-- The last new key that the counter can give is above all keys. -/
theorem Above.free (h : Above next S) (hend : next.toNat ≠ 2 ^ 31) :
    ∀ e ∈ S, e.1.rank ≠ Key.rank [.int next.toInt32] := by
  intro e he hr
  have hlt := (h.resolve_left hend) e he _ (int_key_of_rank hr)
  rw [Int32.lt_iff_toInt_lt] at hlt
  omega

variable {s₀ s₁ : TableState}

/-- `CREATE TABLE t (a INT PRIMARY KEY AUTO_INCREMENT)`. -/
def counting_table : Table where
  schema :=
    { name := [116], columns := [⟨[97], .INT, 0, false, true, true, false, .null, fun _ => rfl⟩], root_page := 1, primary_key_indices := [0],
      checks := [], foreign_keys := [], create_sql := [] }
  indexes := []

theorem one_valid : (1 : UInt32).toNat ≠ INVALID_PAGE := by decide

/-- Without rows. -/
def no_rows : TableState where
  trees := ⟨fun _ => ⟨SortedMap.empty, 1, one_valid⟩, fun _ => ⟨1, one_valid⟩⟩
  root_page := 1
  index_root_page _ := 1
  next_auto_increment := 1

/-- The state that an insert of a key leaves. -/
def insert_key (v : Int32) (s : TableState) : Option TableState :=
  match (TableCall.insert [.int v]).run counting_table s with
  | .ok _ s' => some s'
  | .error _ _ => none

/-- The key that is assigned is there. -/
def duplicates (s : TableState) : Bool :=
  match counting_table.insert [.null] s with
  | .ok _ _ => false
  | .error e _ => decide (e = .duplicate_primary_key)

theorem insert_key_step {t t' : TableState} (h : insert_key v t = some t') :
    counting_table.Step (.call (.insert [.int v])) t t' ∧ counting_table.StepPlain (.call (.insert [.int v])) t := by
  refine ⟨.inl ?_, fun x hx => ?_, fun str hmem => ?_, trivial⟩
  · unfold insert_key at h
    cases hrun : (TableCall.insert [.int v]).run counting_table t with
    | ok a t'' =>
      rw [hrun] at h
      rw [Option.some.inj h]
    | error e t'' =>
      rw [hrun] at h
      cases h
  · obtain rfl := List.mem_singleton.1 hx
    rfl
  · cases List.mem_singleton.1 hmem

theorem no_rows_holding : counting_table.Holding no_rows (counting_table.contents no_rows.trees) := by
  have hempty : counting_table.contents no_rows.trees = ∅ := by
    ext e
    refine ⟨?_, fun he => he.elim⟩
    rintro ⟨bytes, hmem, -⟩
    exact absurd hmem List.not_mem_nil
  rw [hempty]
  refine ⟨⟨fun k bytes hmem => absurd hmem List.not_mem_nil, fun e he => he.elim, fun idx hi => absurd hi List.not_mem_nil⟩,
    sound_empty _, fun e he => he.elim⟩

end assigned

end Table

end GSDBEngine
