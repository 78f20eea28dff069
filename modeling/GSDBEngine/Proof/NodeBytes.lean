import GSDBEngine.Lib.Reader
import GSDBEngine.Spec.NodeBytes
import Mathlib.Algebra.Order.BigOperators.Group.List

/-!
# A node is read as it was written

* `reads_key`: **the codec of keys is self-delimiting**: the bytes of a key are read, wherever they are and whatever is behind them.
* `write_cells_ok`: the cells are where the pointer was, in the order of the entries, and nothing else has changed.
* `set_get`: a write and a read of entries with a self-delimiting cell.
* `round_trip`: **leaves, internal nodes and keys**.
-/

namespace GSDBEngine

open Buffer

variable {α : Type}

/-! ### Keys -/

theorem reads_u16 {n : ℕ} (h : n < 2 ^ 16) : Buffer.Reads KeyCodec.read_u16 (append_u16 n) n := by
  have hread := (Buffer.Reads.copy (ε := NodeErr) (w := append_u16 n) (n := 2) rfl).map (g := little_endian)
  rwa [little_endian_u16, Nat.mod_eq_of_lt h] at hread

theorem reads_u32 {n : ℕ} (h : n < 2 ^ 32) : Buffer.Reads KeyCodec.read_u32 (append_u32 n) (UInt32.ofNat n) := by
  have hread := (Buffer.Reads.copy (ε := NodeErr) (w := append_u32 n) (n := 4) rfl).map (g := fun w => UInt32.ofNat (little_endian w))
  rwa [little_endian_u32, Nat.mod_eq_of_lt h] at hread

theorem reads_word (v : UInt32) : Buffer.Reads KeyCodec.read_u32 (append_u32 v.toNat) v := by
  have hread := reads_u32 v.toNat_lt
  rwa [UInt32.ofNat_toNat] at hread

/-- The tag says how the bytes behind it are read. -/
theorem reads_element {v : Value} (h : ∀ str, v = .varchar str → str.length < 2 ^ 32) :
    Buffer.Reads KeyCodec.decode_element (KeyCodec.encodeValue v) v := by
  have htag : ∀ {b : UInt8} {w : Bytes} {f : Bytes → KeyCodec.DecodeM Value}, Buffer.Reads (f [b]) w v →
      Buffer.Reads (copy 1 >>= f) (b :: w) v := fun hf => (Buffer.Reads.copy (w := [_]) rfl).bind hf
  cases v with
  | null => exact htag (.pure _)
  | int v =>
    have hint := (reads_word v.toUInt32).map (g := fun raw => Value.int raw.toInt32)
    rw [Int32.toInt32_toUInt32] at hint
    exact htag hint
  | float v => exact htag ((reads_word v.bits).map (g := fun raw => Value.float ⟨raw⟩))
  | boolean v =>
    have hbool := (Buffer.Reads.copy (ε := NodeErr) (w := [if v then (1 : UInt8) else 0]) (n := 1) rfl).map
      (g := fun w => Value.boolean (little_endian w != 0))
    cases v <;> exact htag hbool
  | varchar str =>
    have hlen : str.length < 2 ^ 32 := h str rfl
    have hstr : Buffer.Reads (copy (UInt32.ofNat str.length).toNat : KeyCodec.DecodeM Bytes) str str := by
      have hto : (UInt32.ofNat str.length).toNat = str.length := UInt32.toNat_ofNat_of_lt' hlen
      exact Buffer.Reads.copy hto.symm
    exact htag ((reads_u32 hlen).bind (hstr.map (g := Value.varchar)))

/-- **The codec is self-delimiting.** -/
theorem reads_key {k : Key} (hk : k.length < 2 ^ 16) (h : ∀ str, Value.varchar str ∈ k → str.length < 2 ^ 32) :
    Buffer.Reads KeyCodec.decode (KeyCodec.encode k) k :=
  (reads_u16 hk).bind (Buffer.Reads.times fun _ hv => reads_element fun str hstr => h str (hstr ▸ hv))

theorem encodeValue_length (v : Value) : 0 < (KeyCodec.encodeValue v).length := by
  cases v <;> exact Nat.succ_pos _

/-- What fits a page is short. -/
theorem encode_length (k : Key) : k.length + 2 ≤ (KeyCodec.encode k).length ∧
    ∀ str, Value.varchar str ∈ k → str.length ≤ (KeyCodec.encode k).length := by
  have hlen : (KeyCodec.encode k).length = 2 + (k.flatMap KeyCodec.encodeValue).length := List.length_append
  refine ⟨?_, fun str hstr => ?_⟩
  · have hall := List.length_le_length_flatMap encodeValue_length k
    omega
  · have hin := List.length_le_flatMap (f := KeyCodec.encodeValue) hstr
    have hstr' : str.length ≤ (KeyCodec.encodeValue (.varchar str)).length := by
      simp only [KeyCodec.encodeValue, List.length_cons, List.length_append]
      omega
    omega

theorem reads_short_key {k : Key} (h : (KeyCodec.encode k).length ≤ PAGE_SIZE) : Buffer.Reads KeyCodec.decode (KeyCodec.encode k) k := by
  obtain ⟨hlen, hstr⟩ := encode_length k
  have hpage : PAGE_SIZE = 4096 := rfl
  refine reads_key (by omega) fun str hin => ?_
  have := hstr str hin
  omega

/-! ### Writes -/

section writes

open BTreeNode

variable {page page' : RawPage} {pos : ℕ} {bytes : Bytes} {parts : α → List Bytes}

theorem write_ok (page : RawPage) (pos : ℕ) (bytes : Bytes) (h : pos + bytes.length ≤ PAGE_SIZE) :
    ∃ page', page.write pos bytes = .ok page' ∧ page'.data = store page.data pos bytes := ⟨_, dif_pos h, rfl⟩

theorem write_parts_ok : ∀ (parts : List Bytes) (p : ℕ) (page : RawPage), p + parts.flatten.length ≤ PAGE_SIZE →
    ∃ page', write_parts parts p page = .ok page' ∧ page'.data = store page.data p parts.flatten
  | [], p, page, _ => ⟨page, rfl, (store_nil _ _).symm⟩
  | part :: parts, p, page, h => by
    rw [List.flatten_cons, List.length_append] at h
    obtain ⟨page₁, hwrite, hdata₁⟩ := write_ok page p part (by omega)
    obtain ⟨page', hparts, hdata⟩ := write_parts_ok parts (p + part.length) page₁ (by omega)
    refine ⟨page', ?_, ?_⟩
    · rw [write_parts, hwrite]
      exact hparts
    · have hfits : p + part.length ≤ page.data.length := by
        rw [page.size]
        omega
      rw [hdata, hdata₁, store_store hfits, List.flatten_cons]

/-- **The cells, up to where the pointer was**; the induction is on the entries that are still to be written, each before the last one. -/
theorem write_cells_ok (parts : α → List Bytes) : ∀ (entries : List α) (write_ptr : ℕ) (page : RawPage),
    (entries.reverse.flatMap fun e => (parts e).flatten).length ≤ write_ptr → write_ptr ≤ PAGE_SIZE →
      ∃ ptr page', write_cells parts entries write_ptr page = .ok (ptr, page') ∧
        ptr + (entries.reverse.flatMap fun e => (parts e).flatten).length = write_ptr ∧
          page'.data = store page.data ptr (entries.reverse.flatMap fun e => (parts e).flatten)
  | [], write_ptr, page, _, _ => ⟨write_ptr, page, rfl, rfl, (store_nil _ _).symm⟩
  | entry :: entries, write_ptr, page, h, hptr => by
    have happ : (entry :: entries).reverse.flatMap (fun e => (parts e).flatten) =
        entries.reverse.flatMap (fun e => (parts e).flatten) ++ (parts entry).flatten := by
      rw [List.reverse_cons, List.flatMap_append, List.flatMap_singleton]
    rw [happ, List.length_append] at h ⊢
    obtain ⟨page₁, hparts, hdata₁⟩ := write_parts_ok (parts entry) (write_ptr - (parts entry).flatten.length) page (by omega)
    obtain ⟨ptr, page', hcells, hsum, hdata⟩ :=
      write_cells_ok parts entries (write_ptr - (parts entry).flatten.length) page₁ (by omega) (by omega)
    refine ⟨ptr, page', ?_, by omega, ?_⟩
    · have hfits : ¬ write_ptr < (parts entry).flatten.length := by omega
      rw [write_cells, if_neg hfits, hparts]
      exact hcells
    · have hfits : write_ptr - (parts entry).flatten.length + (parts entry).flatten.length ≤ page.data.length := by
        rw [page.size]
        omega
      rw [hdata, hdata₁, store_before hfits hsum]

/-- A field that is not written. -/
theorem field_kept {offset width : ℕ} (hdata : page'.data = store page.data pos bytes) (h : pos + bytes.length ≤ PAGE_SIZE)
    (hdisjoint : offset + width ≤ pos ∨ pos + bytes.length ≤ offset) : field page' offset width = field page offset width := by
  rw [field, hdata, window_store (h.trans_eq page.size.symm) hdisjoint, field]

theorem field_written {n : ℕ} (hdata : page'.data = store page.data pos (append_u16 n)) (h : pos + 2 ≤ PAGE_SIZE) :
    field page' pos 2 = n % 2 ^ 16 := by
  have hfits : pos + (append_u16 n).length ≤ page.data.length := h.trans_eq page.size.symm
  have hself : window (store page.data pos (append_u16 n)) pos 2 = append_u16 n := window_store_self hfits
  rw [field, hdata, hself, little_endian_u16]

/-- **A write and a read**, of cells that are self-delimiting. -/
theorem set_get {cell : KeyCodec.DecodeM α} {entries : List α} (page : RawPage)
    (h : (entries.flatMap fun e => (parts e).flatten).length ≤ CAPACITY)
    (hpos : ∀ e, 0 < (parts e).flatten.length) (hcell : ∀ e ∈ entries, Buffer.Reads cell (parts e).flatten e) :
    RoundTrip (set_entries parts) (get_entries cell) entries (entries.flatMap fun e => (parts e).flatten).length page := by
  have hpage : PAGE_SIZE = 4096 := rfl
  have hcapacity : CAPACITY = 4079 := rfl
  have hcount := List.length_le_length_flatMap hpos entries
  obtain ⟨ptr, page₁, hcells, hsum, hdata₁⟩ := write_cells_ok parts entries.reverse PAGE_SIZE page
    (by rw [List.reverse_reverse]; omega) le_rfl
  rw [List.reverse_reverse] at hsum hdata₁
  generalize hW : (entries.flatMap fun e => (parts e).flatten) = W at h hsum hdata₁ hcount ⊢
  have hfit₂ : 1 + (append_u16 entries.length).length = 3 := rfl
  have hfit₃ : 3 + (append_u16 ptr).length = 5 := rfl
  obtain ⟨page₂, hwrite₂, hdata₂⟩ := write_ok page₁ 1 (append_u16 entries.length) (by omega)
  obtain ⟨page₃, hwrite₃, hdata₃⟩ := write_ok page₂ 3 (append_u16 ptr) (by omega)
  have hset : set_entries parts entries page = .ok page₃ := by
    rw [set_entries, hcells]
    show (page₁.write 1 (append_u16 entries.length) >>= fun page => page.write 3 (append_u16 ptr)) = _
    rw [hwrite₂]
    exact hwrite₃
  -- the three writes are apart from one another
  have hkept : ∀ offset width, (offset + width ≤ 1 ∨ 5 ≤ offset) → offset + width ≤ 17 → field page₃ offset width = field page offset width := by
    intro offset width hdisjoint hheader
    rw [field_kept hdata₃ (by omega) (by omega), field_kept hdata₂ (by omega) (by omega), field_kept hdata₁ (by omega) (by omega)]
  have hptr : free_space_ptr page₃ = ptr := (field_written hdata₃ (by omega)).trans (Nat.mod_eq_of_lt (by omega))
  have hnum : num_cells page₃ = entries.length := by
    have hwritten : field page₂ 1 2 = entries.length := (field_written hdata₂ (by omega)).trans (Nat.mod_eq_of_lt (by omega))
    rw [num_cells, field_kept hdata₃ (by omega) (by omega), hwritten]
  have hcellbytes : page₃.data.drop ptr = W := by
    have hsize := page.size
    have hsize₁ := page₁.size
    have hsize₂ := page₂.size
    have hwindow : window page₃.data ptr W.length = W := by
      rw [hdata₃, window_store (by omega) (by omega), hdata₂, window_store (by omega) (by omega), hdata₁, window_store_self (by omega)]
    have hdrop : (page₃.data.drop ptr).length ≤ W.length := by
      rw [List.length_drop, page₃.size]
      omega
    rwa [window, List.take_of_length_le hdrop] at hwindow
  have hget : get_entries cell page₃ = .ok entries := by
    have hread := Buffer.Reads.until_end hpos PAGE_SIZE entries (page₃.data.take ptr) hcell (by omega)
    have hlen : (page₃.data.take ptr).length = ptr := List.length_take_of_le (by rw [page₃.size]; omega)
    rw [hW, ← hcellbytes, List.take_append_drop, hlen] at hread
    rw [get_entries, hptr, hread]
    rfl
  refine ⟨page₃, hset, hget, hnum, by omega, ?_, ?_, ?_, ?_⟩
  · exact hkept 0 1 (.inl le_rfl) (by decide)
  · exact hkept 5 4 (.inr le_rfl) (by decide)
  · exact hkept 9 4 (.inr (by decide)) (by decide)
  · exact hkept 13 4 (.inr (by decide)) (by decide)

/-! ### Leaves and internal nodes -/

/-- Every part of a cell is read, and the value has the size that is written of it. -/
theorem leaf_round_trip {entries : List (LeafEntry Key)} (page : RawPage) (h : leaf_size entries ≤ CAPACITY) :
    RoundTrip set_leaf_entries get_leaf_entries entries (leaf_size entries) page := by
  have hcapacity : CAPACITY = 4079 := rfl
  have hpage : PAGE_SIZE = 4096 := rfl
  have hbytes : ∀ e : LeafEntry Key, (leaf_parts e).flatten =
      KeyCodec.encode e.key ++ (append_u32 e.value_size ++ (e.value.take e.value_size ++ [])) := fun _ => rfl
  have hshort : ∀ e ∈ entries, (KeyCodec.encode e.key).length + 4 + e.value.length ≤ CAPACITY := fun e he =>
    (List.single_le_sum (fun _ _ => Nat.zero_le _) _ (List.mem_map_of_mem he)).trans h
  have hsize : ∀ e ∈ entries, e.value_size = e.value.length := by
    intro e he
    have := hshort e he
    exact Nat.mod_eq_of_lt (by omega)
  have hlength : (entries.flatMap fun e => (leaf_parts e).flatten).length = leaf_size entries := by
    rw [List.length_flatMap, leaf_size]
    refine congrArg List.sum (List.map_congr_left fun e he => ?_)
    rw [hbytes, hsize e he, List.take_length, List.append_nil, List.length_append, List.length_append, Nat.add_assoc]
    rfl
  rw [← hlength] at h ⊢
  refine set_get page h (fun e => ?_) fun e he => ?_
  · have hpos := (encode_length e.key).1
    rw [hbytes, List.length_append]
    omega
  · have hfits := hshort e he
    have hvalue : Buffer.Reads (copy (UInt32.ofNat e.value.length).toNat : KeyCodec.DecodeM Bytes) e.value e.value := by
      have hlt : e.value.length < 2 ^ 32 := by omega
      have hto : (UInt32.ofNat e.value.length).toNat = e.value.length := UInt32.toNat_ofNat_of_lt' hlt
      exact Buffer.Reads.copy hto.symm
    have hentry : Buffer.Reads (do
        let value_size ← KeyCodec.read_u32
        let value ← copy value_size.toNat
        pure ⟨e.key, value⟩ : KeyCodec.DecodeM (LeafEntry Key)) (append_u32 e.value.length ++ (e.value ++ [])) e :=
      (reads_u32 (by omega)).bind (hvalue.bind (.pure e))
    rw [hbytes, hsize e he, List.take_length]
    exact (reads_short_key (by omega)).bind hentry

theorem internal_round_trip {entries : List (InternalEntry Key)} (page : RawPage) (hchild : ∀ e ∈ entries, e.child_page_id < 2 ^ 32)
    (h : internal_size entries ≤ CAPACITY) : RoundTrip set_internal_entries get_internal_entries entries (internal_size entries) page := by
  have hcapacity : CAPACITY = 4079 := rfl
  have hpage : PAGE_SIZE = 4096 := rfl
  have hbytes : ∀ e : InternalEntry Key, (internal_parts e).flatten = KeyCodec.encode e.key ++ (append_u32 e.child_page_id ++ []) := fun _ => rfl
  have hlength : (entries.flatMap fun e => (internal_parts e).flatten).length = internal_size entries := by
    rw [List.length_flatMap, internal_size]
    refine congrArg List.sum (List.map_congr_left fun e _ => ?_)
    rw [hbytes, List.append_nil, List.length_append]
    rfl
  have hshort : ∀ e ∈ entries, (KeyCodec.encode e.key).length + 4 ≤ CAPACITY := fun e he =>
    (List.single_le_sum (fun _ _ => Nat.zero_le _) _ (List.mem_map_of_mem he)).trans h
  rw [← hlength] at h ⊢
  refine set_get page h (fun e => ?_) fun e he => ?_
  · have hpos := (encode_length e.key).1
    rw [hbytes, List.length_append]
    omega
  · have hfits := hshort e he
    have hto : (UInt32.ofNat e.child_page_id).toNat = e.child_page_id := UInt32.toNat_ofNat_of_lt' (hchild e he)
    have hentry := (reads_u32 (hchild e he)).map (g := fun child_page_id => InternalEntry.mk e.key child_page_id.toNat)
    rw [hto] at hentry
    rw [hbytes, List.append_nil]
    exact (reads_short_key (by omega)).bind hentry

/-- **Entries that fit a page are read as they were written, and the bytes of a key are read to their end and no further.** -/
theorem round_trip :
    (∀ (entries : List (LeafEntry Key)) (page : RawPage), leaf_size entries ≤ CAPACITY →
      RoundTrip set_leaf_entries get_leaf_entries entries (leaf_size entries) page) ∧
    (∀ (entries : List (InternalEntry Key)) (page : RawPage), (∀ e ∈ entries, e.child_page_id < 2 ^ 32) → internal_size entries ≤ CAPACITY →
      RoundTrip set_internal_entries get_internal_entries entries (internal_size entries) page) ∧
    ∀ k : Key, k.length ≤ 65535 → (∀ str, Value.varchar str ∈ k → str.length < 2 ^ 32) → ∀ pre rest,
      KeyCodec.decode (pre ++ (KeyCodec.encode k ++ rest)) pre.length = .ok (k, pre.length + (KeyCodec.encode k).length) :=
  ⟨fun _ page h => leaf_round_trip page h, fun _ page hchild h => internal_round_trip page hchild h,
    fun _ hk h => reads_key (Nat.lt_succ_of_le hk) h⟩

/-- A leaf with a composite key, a NULL and an empty value. -/
theorem round_trip_two : RoundTrip set_leaf_entries get_leaf_entries
    [⟨[.null, .varchar []], []⟩, ⟨[.int 7, .boolean true], [1, 2, 3]⟩] 28 RawPage.zero :=
  round_trip.1 [⟨[.null, .varchar []], []⟩, ⟨[.int 7, .boolean true], [1, 2, 3]⟩] RawPage.zero (by decide)

end writes

end GSDBEngine
