import GSDBEngine.Spec.WalManager

/-!
# Frames of the log

The reading loop of `recover` takes whole frames off the front of the file and stops at one
that is cut short, so it collects the records that were appended, whatever is behind them.

* `scanLoop_frames`: the loop on whole frames.
* `Torn`: a frame cut short.
* `Found`: what is collected, in terms of the records.
-/

namespace GSDBEngine

namespace WALManager

open RedoLog

/-! ### Numbers -/

theorem read_u32_append (n : ℕ) (rest : Bytes) : read_u32 (append_u32 n ++ rest) = n % 2 ^ 32 := by
  have h : ∀ m, (UInt8.ofNat m).toNat = m % 256 := fun m => by simp
  show (UInt8.ofNat n).toNat + 2 ^ 8 * (UInt8.ofNat (n / 2 ^ 8)).toNat + 2 ^ 16 * (UInt8.ofNat (n / 2 ^ 16)).toNat +
    2 ^ 24 * (UInt8.ofNat (n / 2 ^ 24)).toNat = _
  simp only [h]
  omega

theorem headerBytes_length (type : WalRecordType) (t p : ℕ) : (headerBytes type t p).length = WAL_HEADER_SIZE := rfl

section header

variable (type : WalRecordType) (t p : ℕ) (rest : Bytes)

theorem header_head : (headerBytes type t p ++ rest).head? = some type.toByte := rfl

theorem header_txn : read_u32 ((headerBytes type t p ++ rest).drop 1) = t % 2 ^ 32 := by
  show read_u32 ((append_u32 t ++ append_u32 p) ++ rest) = _
  rw [List.append_assoc, read_u32_append]

theorem header_page : read_u32 ((headerBytes type t p ++ rest).drop 5) = p % 2 ^ 32 := by
  show read_u32 (append_u32 p ++ rest) = _
  rw [read_u32_append]

theorem header_rest : (headerBytes type t p ++ rest).drop WAL_HEADER_SIZE = rest := rfl

theorem header_not_lt : ¬ (headerBytes type t p ++ rest).length < WAL_HEADER_SIZE := by
  rw [List.length_append, headerBytes_length]
  omega

end header

/-! ### Whole frames -/

/-- The ids of the record are of type `uint32_t`. -/
def Typed : Record RawPage → Prop
  | .pageWrite t p _ => t < 2 ^ 32 ∧ p < 2 ^ 32
  | .commit t => t < 2 ^ 32

/-- What one frame adds to what is collected. -/
def Scan.add (s : Scan) : Record RawPage → Scan
  | .pageWrite t p page => s.pageWrite t p page
  | .commit t => s.commit t

theorem readRaw_append (page : RawPage) (rest : Bytes) : readRaw (page.data ++ rest) = some page := by
  have hsize : PAGE_SIZE ≤ (page.data ++ rest).length := by
    rw [List.length_append, page.size]
    exact Nat.le_add_right ..
  unfold readRaw
  rw [dif_pos hsize]
  obtain ⟨data, hdata⟩ := page
  simp only [Option.some.injEq, RawPage.mk.injEq]
  rw [← hdata, List.take_left]

theorem readRaw_short {bytes : Bytes} (h : bytes.length < PAGE_SIZE) : readRaw bytes = none := dif_neg (not_le.2 h)

theorem scanLoop_header (type : WalRecordType) (t p : ℕ) (rest : Bytes) (fuel : ℕ) (s : Scan) :
    scanLoop (fuel + 1) (headerBytes type t p ++ rest) s =
      match type with
      | .PAGE_WRITE =>
        match readRaw rest with
        | some page => scanLoop fuel (rest.drop PAGE_SIZE) (s.pageWrite (t % 2 ^ 32) (p % 2 ^ 32) page)
        | none => s
      | .COMMIT => scanLoop fuel rest (s.commit (t % 2 ^ 32)) := by
  conv_lhs => unfold scanLoop
  rw [if_neg (header_not_lt _ _ _ _), header_rest, header_txn, header_page, header_head]
  dsimp only
  cases type with
  | PAGE_WRITE => exact if_pos rfl
  | COMMIT => rw [if_neg (by decide), if_pos rfl]

theorem scanLoop_frame {r : Record RawPage} (hr : Typed r) (fuel : ℕ) (rest : Bytes) (s : Scan) :
    scanLoop (fuel + 1) (frameBytes r ++ rest) s = scanLoop fuel rest (s.add r) := by
  cases r with
  | pageWrite t p page =>
    have hbytes : frameBytes (.pageWrite t p page) ++ rest = headerBytes .PAGE_WRITE t p ++ (page.data ++ rest) :=
      List.append_assoc ..
    have hdrop : (page.data ++ rest).drop PAGE_SIZE = rest := by rw [← page.size, List.drop_left]
    rw [hbytes, scanLoop_header, readRaw_append]
    dsimp only
    rw [hdrop, Nat.mod_eq_of_lt hr.1, Nat.mod_eq_of_lt hr.2]
    rfl
  | commit t =>
    rw [show frameBytes (.commit t) = headerBytes .COMMIT t INVALID_PAGE from rfl, scanLoop_header]
    dsimp only
    rw [Nat.mod_eq_of_lt hr]
    rfl

theorem frameBytes_length_pos (r : Record RawPage) : 1 ≤ (frameBytes r).length := by
  cases r with
  | pageWrite t p page =>
    show 1 ≤ (headerBytes _ _ _ ++ _).length
    rw [List.length_append, headerBytes_length]
    unfold WAL_HEADER_SIZE
    omega
  | commit t => exact Nat.le_add_left 1 8

/-! ### A frame cut short -/

/-- Bytes that are no whole frame, and begin none. -/
def Torn (tail : Bytes) : Prop :=
  tail.length < WAL_HEADER_SIZE ∨
    tail.head? = some WalRecordType.PAGE_WRITE.toByte ∧ tail.length < WAL_HEADER_SIZE + PAGE_SIZE

theorem torn_nil : Torn [] := Or.inl (by decide)

theorem scanLoop_torn {tail : Bytes} (h : Torn tail) (fuel : ℕ) (s : Scan) : scanLoop fuel tail s = s := by
  cases fuel with
  | zero => rfl
  | succ fuel =>
    unfold scanLoop
    by_cases hlt : tail.length < WAL_HEADER_SIZE
    · rw [if_pos hlt]
    · obtain ⟨hhead, hlen⟩ := h.resolve_left hlt
      rw [if_neg hlt, hhead]
      dsimp only
      rw [if_pos rfl, readRaw_short (by rw [List.length_drop]; omega)]

/-- The beginning of a frame is torn. -/
theorem torn_of_prefix {r : Record RawPage} {tail : Bytes} (h : tail <+: frameBytes r) (hne : tail ≠ frameBytes r) : Torn tail := by
  have hlen : tail.length < (frameBytes r).length := lt_of_le_of_ne h.length_le fun heq => hne (h.eq_of_length heq)
  by_cases hlt : tail.length < WAL_HEADER_SIZE
  · exact Or.inl hlt
  · cases r with
    | pageWrite t p page =>
      refine Or.inr ⟨?_, ?_⟩
      · obtain ⟨rest, hrest⟩ := h
        cases tail with
        | nil => exact absurd (by decide) hlt
        | cons b bs => exact congrArg List.head? (show [b] = [_] by rw [(List.cons.inj hrest).1])
      · rw [show (frameBytes (.pageWrite t p page)).length = _ from List.length_append, headerBytes_length, page.size] at hlen
        exact hlen
    | commit t => exact absurd hlen hlt

/-- **Whole frames, and whatever is torn behind them.** -/
theorem scanLoop_frames {recs : List (Record RawPage)} : ∀ {fuel : ℕ} {tail : Bytes} (s : Scan), (∀ r ∈ recs, Typed r) → Torn tail →
    (recs.flatMap frameBytes).length ≤ fuel → scanLoop fuel (recs.flatMap frameBytes ++ tail) s = recs.foldl Scan.add s := by
  induction recs with
  | nil => intro fuel tail s _ ht _; exact scanLoop_torn ht fuel s
  | cons r recs ih =>
    intro fuel tail s hty ht hfuel
    have hpos := frameBytes_length_pos r
    rw [List.flatMap_cons, List.length_append] at hfuel
    obtain ⟨fuel, rfl⟩ := Nat.exists_eq_succ_of_ne_zero (show fuel ≠ 0 by omega)
    rw [List.flatMap_cons, List.append_assoc, scanLoop_frame (hty r (by simp)), List.foldl_cons]
    exact ih _ (fun r' hr' => hty r' (by simp [hr'])) ht (by omega)

/-! ### What is collected -/

/-- The records as `recover` has them: images by transaction, and the order of the commits. -/
structure Found (s : Scan) (recs : List (Record RawPage)) : Prop where
  images : ∀ t p, ((s.txn_pages.lookup t).getD ∅).lookup p = imageOf t p recs
  commits : s.committed_txns = RedoLog.commits recs

theorem Found.add {s : Scan} {recs : List (Record RawPage)} (h : Found s recs) (r : Record RawPage) :
    Found (s.add r) (recs ++ [r]) := by
  cases r with
  | pageWrite t p page =>
    refine ⟨fun u q => ?_, ?_⟩
    · rw [imageOf_pageWrite, ← h.images]
      show ((AList.lookup u (s.txn_pages.insert t _)).getD ∅).lookup q = _
      by_cases hu : u = t
      · subst hu
        rw [AList.lookup_insert]
        show AList.lookup q (((s.txn_pages.lookup u).getD ∅).insert p page) = _
        by_cases hq : q = p
        · subst hq
          rw [AList.lookup_insert, if_pos ⟨rfl, rfl⟩]
        · rw [AList.lookup_insert_ne hq, if_neg fun hc => hq hc.2.symm]
      · rw [AList.lookup_insert_ne hu, if_neg fun hc => hu hc.1.symm]
    · rw [commits_append]
      show s.committed_txns = _ ++ []
      rw [h.commits, List.append_nil]
  | commit t =>
    refine ⟨fun u q => ?_, ?_⟩
    · rw [imageOf_commit]
      exact h.images u q
    · rw [commits_append, ← h.commits]
      rfl

theorem Found.foldl {recs' : List (Record RawPage)} : ∀ {s : Scan} {recs : List (Record RawPage)}, Found s recs →
    Found (recs'.foldl Scan.add s) (recs ++ recs') := by
  induction recs' with
  | nil => intro s recs h; rwa [List.append_nil]
  | cons r recs' ih =>
    intro s recs h
    have := ih (h.add r)
    rwa [List.append_assoc] at this

theorem found_nil (n : ℕ) : Found ⟨∅, [], n⟩ [] := ⟨fun _ _ => rfl, rfl⟩

end WALManager

end GSDBEngine
