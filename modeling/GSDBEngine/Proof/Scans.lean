import GSDBEngine.Spec.Index
import GSDBEngine.Proof.MapRun
import GSDBEngine.Proof.Contents

/-!
# What a scan returns

A scan that starts at the leaf of a key sees the entries from that leaf on, and is a filter of the whole tree where
nothing before would be taken. Bounds of leaves may be equal, and leaves may be empty.

* `run_rangeScan`: the keys from one key to another.
* `run_prefixScan`: the keys that begin with the prefix.
* `run_boundedScan`: of these, the keys whose next element satisfies the bounds.
* `scans_are_filters`: **each scan is a filter of `scan_all`.**
-/

namespace GSDBEngine

open KeyRank BTree Eff

variable {start «end» fixed key key' : SqlKey} {b : RangeBounds} {v w : Value} {verdict : SqlKey → Option Scan.Verdict}
variable {μ : Mem SqlKey} {s : Store SqlKey} {d : ℕ} {A pre post : Level SqlKey} {O : List PageId} {c : Cell SqlKey} {x : SqlKey}
  {E : Err SqlKey → Prop}

/-! ### Prefixes, through the rank -/

theorem Key.rank_length (a : Key) : a.rank.length = a.length := List.length_map _

theorem Key.rank_take (n : ℕ) (a : Key) : Key.rank (a.take n) = a.rank.take n := List.map_take

theorem Key.hasNaN_take {a : Key} (n : ℕ) (h : a.hasNaN = false) : Key.hasNaN (a.take n) = false :=
  hasNaN_eq_false.2 fun v hv => hasNaN_eq_false.1 h v (List.mem_of_mem_take hv)

/-- `key_has_prefix` is the prefix of the ranks. -/
theorem hasPrefix_iff : key.1.hasPrefix fixed.1 = true ↔ fixed.1.rank <+: key.1.rank := by
  rw [Key.hasPrefix, Bool.and_eq_true, decide_eq_true_eq, Key.eq_iff (Key.hasNaN_take _ key.2) fixed.2, Key.rank_take,
    List.prefix_iff_eq_take, Key.rank_length]
  constructor
  · rintro ⟨-, heq⟩
    exact heq.symm
  · intro heq
    refine ⟨?_, heq.symm⟩
    have hlen := congrArg List.length heq
    rw [List.length_take, Key.rank_length, Key.rank_length] at hlen
    omega

theorem hasPrefix_false : key.1.hasPrefix fixed.1 = false ↔ ¬ fixed.1.rank <+: key.1.rank := by
  rw [← hasPrefix_iff, Bool.not_eq_true]

/-- A key that begins with the prefix, in parts. -/
theorem rank_split (hp : fixed.1.rank <+: key.1.rank) (hv : key.1[fixed.1.length]? = some v) :
    ∃ l, key.1.rank = fixed.1.rank ++ v.rank :: l := by
  obtain ⟨l, hl⟩ := hp
  have hget : key.1.rank[fixed.1.length]? = some v.rank := by
    rw [Key.rank, List.getElem?_map, hv]
    rfl
  rw [← hl, List.getElem?_append_right (by rw [Key.rank_length]), Key.rank_length, Nat.sub_self] at hget
  cases l with
  | nil => cases hget
  | cons r l =>
    obtain rfl := Option.some.inj hget
    exact ⟨l, hl.symm⟩

theorem isNaN_getElem (hv : key.1[fixed.1.length]? = some v) : v.isNaN = false :=
  Key.hasNaN_eq_false.1 key.2 v (List.mem_of_getElem? hv)

/-! ### The verdict of `range_scan` -/

theorem rangeVerdict_push : rangeVerdict start «end» key = some .push ↔ rank start ≤ rank key ∧ rank key ≤ rank «end» := by
  unfold rangeVerdict
  split
  · rename_i hlt
    exact ⟨(fun h => by cases h), fun h => absurd (lt_true.1 hlt) (not_lt.2 h.1)⟩
  · rename_i hstart
    rw [lt_true, not_lt] at hstart
    split
    · rename_i hlt
      exact ⟨(fun h => by cases h), fun h => absurd (lt_true.1 hlt) (not_lt.2 h.2)⟩
    · rename_i hend
      rw [lt_true, not_lt] at hend
      exact ⟨fun _ => ⟨hstart, hend⟩, fun _ => rfl⟩

theorem rangeVerdict_stop (h : rangeVerdict start «end» key = some .stop) : rank «end» < rank key := by
  unfold rangeVerdict at h
  split at h
  · cases h
  · split at h
    · exact lt_true.1 ‹_›
    · cases h

theorem rangeVerdict_isSome : (rangeVerdict start «end» key).isSome = true := by
  unfold rangeVerdict
  split
  · rfl
  · split <;> rfl

/-! ### The verdict of `prefix_scan` -/

theorem prefixVerdict_push : prefixVerdict fixed key = some .push ↔ fixed.1.rank <+: key.1.rank := by
  unfold prefixVerdict
  by_cases hp : fixed.1.rank <+: key.1.rank
  · have hlt : ¬ KeyOps.lt key fixed = true := by
      rw [lt_true]
      exact not_lt.2 (Scan.le_of_prefix hp)
    rw [if_neg hlt, if_neg (by rw [hasPrefix_false]; exact not_not.2 hp)]
    exact ⟨fun _ => hp, fun _ => rfl⟩
  · rw [if_pos (hasPrefix_false.2 hp)]
    refine ⟨fun h => ?_, fun h => absurd h hp⟩
    split at h <;> cases h

theorem prefixVerdict_stop (h : prefixVerdict fixed key = some .stop) : fixed.1.rank ≤ key.1.rank ∧ ¬ fixed.1.rank <+: key.1.rank := by
  unfold prefixVerdict at h
  split at h
  · cases h
  · rename_i hlt
    refine ⟨not_lt.1 fun hr => hlt (lt_true.2 hr), ?_⟩
    split at h
    · exact hasPrefix_false.1 ‹_›
    · cases h

theorem prefixVerdict_isSome : (prefixVerdict fixed key).isSome = true := by
  unfold prefixVerdict
  split
  · rfl
  · split <;> rfl

theorem prefixVerdict_ends (hle : key.1.rank ≤ key'.1.rank) (h : prefixVerdict fixed key = some .stop) :
    prefixVerdict fixed key' ≠ some .push := by
  rw [Ne, prefixVerdict_push]
  obtain ⟨hfrom, hno⟩ := prefixVerdict_stop h
  exact fun hp => hno (Scan.prefix_of_between hfrom hle hp)

/-! ### The verdict of `bounded_scan` -/

/-- Below the lower bound, or equal to one that is not included. -/
def RangeBounds.Below (b : RangeBounds) (v : Value) : Prop :=
  ∃ lo ∈ b.lo, v.rank < lo.1.rank ∨ b.lo_inclusive = false ∧ v.rank = lo.1.rank

/-- Above the upper bound, or equal to one that is not included. -/
def RangeBounds.Above (b : RangeBounds) (v : Value) : Prop :=
  ∃ hi ∈ b.hi, hi.1.rank < v.rank ∨ b.hi_inclusive = false ∧ v.rank = hi.1.rank

theorem RangeBounds.admits_iff : b.Admits v ↔ ¬ b.Below v ∧ ¬ b.Above v := by
  constructor
  · rintro ⟨hlo, hhi⟩
    constructor
    · rintro ⟨lo, hmem, hlt | ⟨hinc, heq⟩⟩
      · rcases hlo lo hmem with h | ⟨-, h⟩
        · exact lt_asymm h hlt
        · exact absurd h hlt.ne'
      · rcases hlo lo hmem with h | ⟨h, -⟩
        · exact absurd heq h.ne'
        · exact Bool.false_ne_true (hinc.symm.trans h)
    · rintro ⟨hi, hmem, hlt | ⟨hinc, heq⟩⟩
      · rcases hhi hi hmem with h | ⟨-, h⟩
        · exact lt_asymm h hlt
        · exact absurd h hlt.ne'
      · rcases hhi hi hmem with h | ⟨h, -⟩
        · exact absurd heq h.ne
        · exact Bool.false_ne_true (hinc.symm.trans h)
  · rintro ⟨hbelow, habove⟩
    constructor
    · intro lo hmem
      rcases lt_trichotomy lo.1.rank v.rank with h | h | h
      · exact Or.inl h
      · refine Or.inr ⟨?_, h⟩
        by_contra hinc
        exact hbelow ⟨lo, hmem, Or.inr ⟨Bool.not_eq_true _ ▸ hinc, h.symm⟩⟩
      · exact absurd ⟨lo, hmem, Or.inl h⟩ hbelow
    · intro hi hmem
      rcases lt_trichotomy v.rank hi.1.rank with h | h | h
      · exact Or.inl h
      · refine Or.inr ⟨?_, h⟩
        by_contra hinc
        exact habove ⟨hi, hmem, Or.inr ⟨Bool.not_eq_true _ ▸ hinc, h⟩⟩
      · exact absurd ⟨hi, hmem, Or.inl h⟩ habove

theorem below_any (hv : v.isNaN = false) : (b.lo.any fun lo => v.lt lo.1) = true ∨
    (!b.lo_inclusive && b.lo.any fun lo => v.eq lo.1) = true ↔ b.Below v := by
  cases hlo : b.lo with
  | none => simp [RangeBounds.Below, hlo]
  | some lo => simp [RangeBounds.Below, hlo, Value.lt_iff v lo.1 hv lo.2, Value.eq_iff v lo.1 hv lo.2]

theorem above_any (hv : v.isNaN = false) : (b.hi.any fun hi => hi.1.lt v) = true ∨
    (!b.hi_inclusive && b.hi.any fun hi => v.eq hi.1) = true ↔ b.Above v := by
  cases hhi : b.hi with
  | none => simp [RangeBounds.Above, hhi]
  | some hi => simp [RangeBounds.Above, hhi, Value.lt_iff hi.1 v hi.2 hv, Value.eq_iff v hi.1 hv hi.2]

/-- The verdict on a key that begins with the prefix. -/
theorem boundedVerdict_inside (hp : fixed.1.rank <+: key.1.rank) (hv : key.1[fixed.1.length]? = some v) :
    (b.Below v → boundedVerdict fixed b key = some .skip) ∧ (¬ b.Below v → b.Above v → boundedVerdict fixed b key = some .stop) ∧
      (¬ b.Below v → ¬ b.Above v → boundedVerdict fixed b key = some .push) := by
  have hn := isNaN_getElem hv
  unfold boundedVerdict
  rw [if_neg (by rw [hasPrefix_false]; exact not_not.2 hp), hv]
  rw [← below_any hn, ← above_any hn]
  dsimp only
  split
  · simp_all
  · split
    · simp_all
    · split
      · simp_all
      · split <;> simp_all

theorem take_lt_iff : Key.lt (key.1.take (min fixed.1.length key.1.length)) fixed.1 = true ↔
    key.1.rank.take fixed.1.length < fixed.1.rank := by
  rw [Key.lt_iff (Key.hasNaN_take _ key.2) fixed.2, ← List.take_take, List.take_length, Key.rank_take]

/-- A key without the prefix ends the scan, if it is behind. -/
theorem boundedVerdict_outside (hp : ¬ fixed.1.rank <+: key.1.rank) : boundedVerdict fixed b key ≠ some .push ∧
    (boundedVerdict fixed b key).isSome = true ∧ (boundedVerdict fixed b key = some .stop → fixed.1.rank ≤ key.1.rank) := by
  unfold boundedVerdict
  rw [if_pos (hasPrefix_false.2 hp)]
  split
  · exact ⟨(fun h => by cases h), rfl, fun h => by cases h⟩
  · rename_i hlt
    rw [take_lt_iff, not_lt] at hlt
    exact ⟨(fun h => by cases h), rfl, fun _ => hlt.trans (Scan.le_of_prefix (List.take_prefix _ _))⟩

/-- A key that begins with the prefix goes on. -/
def GoesOn (fixed key : SqlKey) : Prop := fixed.1.rank <+: key.1.rank → fixed.1.length < key.1.length

theorem boundedVerdict_push (hlen : GoesOn fixed key) :
    boundedVerdict fixed b key = some .push ↔ fixed.1.rank <+: key.1.rank ∧ ∃ v ∈ key.1[fixed.1.length]?, b.Admits v := by
  by_cases hp : fixed.1.rank <+: key.1.rank
  · obtain ⟨v, hv⟩ : ∃ v, key.1[fixed.1.length]? = some v := ⟨_, List.getElem?_eq_getElem (hlen hp)⟩
    obtain ⟨hskip, hstop, hpush⟩ := boundedVerdict_inside (b := b) hp hv
    have hin : (∃ v ∈ key.1[fixed.1.length]?, b.Admits v) ↔ ¬ b.Below v ∧ ¬ b.Above v := by
      rw [hv, ← RangeBounds.admits_iff]
      constructor
      · rintro ⟨w, hw, h⟩
        rwa [Option.some.inj hw]
      · exact fun h => ⟨v, rfl, h⟩
    rw [hin]
    by_cases hbelow : b.Below v
    · rw [hskip hbelow]
      exact ⟨(fun h => by cases h), fun h => absurd hbelow h.2.1⟩
    · by_cases habove : b.Above v
      · rw [hstop hbelow habove]
        exact ⟨(fun h => by cases h), fun h => absurd habove h.2.2⟩
      · rw [hpush hbelow habove]
        exact ⟨fun _ => ⟨hp, hbelow, habove⟩, fun _ => rfl⟩
  · exact ⟨fun h => absurd h (boundedVerdict_outside hp).1, fun h => absurd h.1 hp⟩

theorem boundedVerdict_isSome (hlen : GoesOn fixed key) : (boundedVerdict fixed b key).isSome = true := by
  by_cases hp : fixed.1.rank <+: key.1.rank
  · obtain ⟨v, hv⟩ : ∃ v, key.1[fixed.1.length]? = some v := ⟨_, List.getElem?_eq_getElem (hlen hp)⟩
    obtain ⟨hskip, hstop, hpush⟩ := boundedVerdict_inside (b := b) hp hv
    by_cases hbelow : b.Below v
    · rw [hskip hbelow]
      rfl
    · by_cases habove : b.Above v
      · rw [hstop hbelow habove]
        rfl
      · rw [hpush hbelow habove]
        rfl
  · exact (boundedVerdict_outside hp).2.1

/-- What is behind a value above the range is above it too. -/
theorem RangeBounds.Above.mono (h : b.Above v) (hle : v.rank ≤ w.rank) : b.Above w := by
  obtain ⟨hi, hmem, hlt | ⟨hinc, heq⟩⟩ := h
  · exact ⟨hi, hmem, Or.inl (hlt.trans_le hle)⟩
  · rcases hle.lt_or_eq with hlt | heq'
    · exact ⟨hi, hmem, Or.inl (heq ▸ hlt)⟩
    · exact ⟨hi, hmem, Or.inr ⟨hinc, heq'.symm.trans heq⟩⟩

theorem boundedVerdict_ends (hlen : GoesOn fixed key) (hlen' : GoesOn fixed key') (hle : key.1.rank ≤ key'.1.rank)
    (h : boundedVerdict fixed b key = some .stop) : boundedVerdict fixed b key' ≠ some .push := by
  intro hpush
  have hp' : fixed.1.rank <+: key'.1.rank := by
    by_contra hno
    exact (boundedVerdict_outside hno).1 hpush
  have hp : fixed.1.rank <+: key.1.rank := by
    by_contra hno
    exact hno (Scan.prefix_of_between ((boundedVerdict_outside hno).2.2 h) hle hp')
  obtain ⟨v, hv⟩ : ∃ v, key.1[fixed.1.length]? = some v := ⟨_, List.getElem?_eq_getElem (hlen hp)⟩
  obtain ⟨w, hw⟩ : ∃ w, key'.1[fixed.1.length]? = some w := ⟨_, List.getElem?_eq_getElem (hlen' hp')⟩
  obtain ⟨hskip, -, hin⟩ := boundedVerdict_inside (b := b) hp hv
  obtain ⟨hskip', hstop', -⟩ := boundedVerdict_inside (b := b) hp' hw
  -- the next elements are in the order of the keys
  obtain ⟨l, hl⟩ := rank_split hp hv
  obtain ⟨l', hl'⟩ := rank_split hp' hw
  rw [hl, hl'] at hle
  have hnext := Scan.le_of_append_cons hle
  by_cases hbelow : b.Below v
  · rw [hskip hbelow] at h
    cases h
  · by_cases habove : b.Above v
    · by_cases hbelow' : b.Below w
      · rw [hskip' hbelow'] at hpush
        cases hpush
      · rw [hstop' hbelow' (habove.mono hnext)] at hpush
        cases hpush
    · rw [hin hbelow habove] at h
      cases h

/-- A key before the place where the lower bound would be is not taken. -/
theorem boundedVerdict_start {lo : SqlValue} (hlo : b.lo = some lo) (hlen : GoesOn fixed key)
    (hlt : key.1.rank < (fixed.push lo).1.rank) : boundedVerdict fixed b key ≠ some .push := by
  by_cases hp : fixed.1.rank <+: key.1.rank
  · obtain ⟨v, hv⟩ : ∃ v, key.1[fixed.1.length]? = some v := ⟨_, List.getElem?_eq_getElem (hlen hp)⟩
    obtain ⟨l, hl⟩ := rank_split hp hv
    have hpush : (fixed.push lo).1.rank = fixed.1.rank ++ [lo.1.rank] := Key.rank_append fixed.1 [lo.1]
    rw [hl, hpush] at hlt
    have hbelow : b.Below v := ⟨lo, hlo, Or.inl (Scan.lt_of_append_cons hlt)⟩
    rw [(boundedVerdict_inside hp hv).1 hbelow]
    exact fun h => by cases h
  · exact (boundedVerdict_outside hp).1

/-! ### The scans -/

theorem Linked.suffix {v : View SqlKey} : ∀ {ps qs : List PageId}, Linked v (ps ++ qs) → Linked v qs
  | [], _, h => h
  | _ :: _, _, h => Linked.suffix h.2

/-- The loop, over the leaves from `A` on. -/
theorem run_scanWhile : ∀ {A : Level SqlKey} {f : ℕ}, A.length < f → Linked μ.view (ids A) →
    (∀ c ∈ A, c.1 ≠ INVALID_PAGE ∧ ∃ n es, μ.view c.1 = some n ∧ n.cells = .leaf es) →
    (∀ e ∈ content μ.view A, (verdict e.key).isSome = true) → Scan.Ends (fun e => verdict e.key) (content μ.view A) →
    Run μ (scanWhile verdict f ((ids A).headD INVALID_PAGE)) E fun r μ' =>
      μ' = μ ∧ r = (content μ.view A).filter fun e => decide (verdict e.key = some .push) := by
  intro A
  induction A with
  | nil =>
    intro f hf _ _ _ _
    obtain ⟨f, rfl⟩ := Nat.exists_eq_succ_of_ne_zero (Nat.ne_of_gt hf)
    unfold scanWhile
    exact run_ite (fun _ => run_pure ⟨rfl, rfl⟩) fun h => absurd rfl h
  | cons c A ih =>
    intro f hf hlink hleaf hsome hends
    obtain ⟨f, rfl⟩ := Nat.exists_eq_succ_of_ne_zero (Nat.ne_of_gt (Nat.lt_of_le_of_lt (Nat.zero_le _) hf))
    obtain ⟨hne, n, es, hv, hc⟩ := hleaf c (by simp)
    obtain ⟨⟨n', hv', hnext⟩, hlink⟩ := hlink
    rw [hv] at hv'
    cases hv'
    rw [content_cons, leafAt_eq hv hc] at hsome hends ⊢
    have hends' := (List.pairwise_append.1 hends)
    obtain ⟨done, hrun, hdone⟩ := Scan.run_eq_filter (fun e he => hsome e (List.mem_append_left _ he)) hends'.1
    unfold scanWhile
    refine run_ite (fun h => absurd h hne) fun _ => run_fetchNode hv (run_leafEntries hc ?_)
    rw [hrun]
    cases done with
    | true =>
      obtain ⟨e, he, hstop⟩ := hdone rfl
      exact run_ite (fun _ => run_pure ⟨rfl, (Scan.filter_append_of_stop hends he hstop).symm⟩) fun h => absurd rfl h
    | false =>
      refine run_ite (fun h => by cases h) fun _ => ?_
      rw [hnext]
      refine run_bind (ih (by simpa using hf) hlink (fun c hc => hleaf c (by simp [hc]))
        (fun e he => hsome e (List.mem_append_right _ he)) hends'.2.1) ?_
      rintro _ _ ⟨rfl, rfl⟩
      exact run_pure ⟨rfl, (List.filter_append ..).symm⟩

/-- A scan that starts at a leaf before which nothing would be taken. -/
theorem run_scanFrom (ht : Chained μ.view μ.root d A O) (hA : A = pre ++ post)
    (hpre : ∀ e ∈ content μ.view pre, verdict e.key ≠ some .push) (hsome : ∀ e ∈ content μ.view A, (verdict e.key).isSome = true)
    (hends : Scan.Ends (fun e => verdict e.key) (content μ.view A)) :
    Run μ (get >>= fun s => scanWhile verdict (s.total_pages + 1) ((ids post).headD INVALID_PAGE)) E fun r μ' =>
      μ' = μ ∧ r = (content μ.view A).filter fun e => decide (verdict e.key = some .push) := by
  refine run_get fun s hs => ?_
  have hlen : A.length ≤ s.total_pages := by
    have h1 := hs.length_le ht.nodup fun p hp => ht.up.alive_ids hp
    simp only [List.length_append, ids, List.length_map] at h1
    omega
  have hlink := ht.linked
  have hleaves := ht.leaves
  subst hA
  rw [content_append] at hsome hends ⊢
  rw [ids_append] at hlink
  rw [List.length_append] at hlen
  rw [List.filter_append, List.filter_eq_nil_iff.2 fun e he => by rw [decide_eq_true_eq]; exact hpre e he, List.nil_append]
  exact run_scanWhile (by omega) hlink.suffix (fun c hc => hleaves c (List.mem_append_right _ hc))
    (fun e he => hsome e (List.mem_append_right _ he)) (List.pairwise_append.1 hends).2.1

/-- Keys may be equal too. -/
theorem content_rising (hord : (tokens μ.view A).Pairwise (· ≤ ·)) :
    (content μ.view A).Pairwise fun e e' => rank e.key ≤ rank e'.key :=
  (content_pairwise hord).imp fun h => entry_le_entry.1 h

/-- Keys in order: it is enough that no end comes before a key that is taken. -/
theorem Chained.ends (ht : Chained μ.view μ.root d A O)
    (h : ∀ e ∈ content μ.view A, ∀ e' ∈ content μ.view A, rank e.key ≤ rank e'.key → verdict e.key = some .stop →
      verdict e'.key ≠ some .push) : Scan.Ends (fun e => verdict e.key) (content μ.view A) :=
  (content_rising ht.order).imp_of_mem fun he he' hle => h _ he _ he' hle

/-- A scan that starts at the leaf of `x`. -/
theorem run_scanAt (ht : Chained μ.view μ.root d A O)
    (hpre : ∀ e ∈ content μ.view A, rank e.key < rank x → verdict e.key ≠ some .push)
    (hsome : ∀ e ∈ content μ.view A, (verdict e.key).isSome = true)
    (hends : Scan.Ends (fun e => verdict e.key) (content μ.view A)) :
    Run μ (findLeafPage x >>= fun current => get >>= fun s => scanWhile verdict (s.total_pages + 1) current) E fun r μ' =>
      μ' = μ ∧ r = (content μ.view A).filter fun e => decide (verdict e.key = some .push) := by
  obtain ⟨pre, c, post, hloc⟩ := ht.up.exists_loc (rising_of_order ht.order) x
  obtain ⟨hcontent, hbefore, -⟩ := content_loc ht.order hloc
  refine run_findLeafPage ht.toLoose hloc (run_scanFrom ht hloc.eq (fun e he => ?_) hsome hends)
  exact hpre e (by rw [hcontent]; simp [he]) (hbefore e he)

/-- **`range_scan` returns the keys from `start` to `end`.** -/
theorem run_rangeScan (ht : Chained μ.view μ.root d A O) : Run μ (rangeScan start «end») E fun r μ' =>
    μ' = μ ∧ r = (content μ.view A).filter fun e => decide (rank start ≤ rank e.key ∧ rank e.key ≤ rank «end») := by
  have hpre : ∀ e ∈ content μ.view A, rank e.key < rank start → rangeVerdict start «end» e.key ≠ some .push := fun e _ hlt => by
    rw [Ne, rangeVerdict_push]
    exact fun h => absurd h.1 (not_le.2 hlt)
  have hrun := run_scanAt (E := E) ht hpre (fun e _ => rangeVerdict_isSome) (ht.ends fun e _ e' _ hle hstop => ?_)
  · simp only [rangeVerdict_push] at hrun
    exact hrun
  · rw [Ne, rangeVerdict_push]
    exact fun h => absurd h.2 (not_le.2 ((rangeVerdict_stop hstop).trans_le hle))

/-- **`prefix_scan` returns the keys that begin with the prefix.** -/
theorem run_prefixScan (ht : Chained μ.view μ.root d A O) : Run μ (prefixScan fixed) E fun r μ' =>
    μ' = μ ∧ r = (content μ.view A).filter fun e => decide (fixed.1.rank <+: e.key.1.rank) := by
  have hpre : ∀ e ∈ content μ.view A, rank e.key < rank fixed → prefixVerdict fixed e.key ≠ some .push := fun e _ hlt => by
    rw [Ne, prefixVerdict_push]
    exact fun hp => absurd (Scan.le_of_prefix hp) (not_le.2 hlt)
  have hrun := run_scanAt (E := E) ht hpre (fun e _ => prefixVerdict_isSome) (ht.ends fun e _ e' _ hle => prefixVerdict_ends hle)
  simp only [prefixVerdict_push] at hrun
  exact hrun

/-- **`bounded_scan` returns the keys that begin with the prefix and go on within the bounds.** -/
theorem run_boundedScan (ht : Chained μ.view μ.root d A O) (hsome : b.lo.isSome = true ∨ b.hi.isSome = true)
    (hlen : ∀ e ∈ content μ.view A, GoesOn fixed e.key) : Run μ (boundedScan fixed b) E fun r μ' =>
      μ' = μ ∧ r = (content μ.view A).filter fun e =>
        decide (fixed.1.rank <+: e.key.1.rank ∧ ∃ v ∈ e.key.1[fixed.1.length]?, b.Admits v) := by
  have hdef : ∀ e ∈ content μ.view A, (boundedVerdict fixed b e.key).isSome = true := fun e he => boundedVerdict_isSome (hlen e he)
  have hends : Scan.Ends (fun e => boundedVerdict fixed b e.key) (content μ.view A) :=
    ht.ends fun e he e' he' hle => boundedVerdict_ends (hlen e he) (hlen e' he') hle
  have hfilter : (content μ.view A).filter (fun e => decide (boundedVerdict fixed b e.key = some .push)) =
      (content μ.view A).filter fun e => decide (fixed.1.rank <+: e.key.1.rank ∧ ∃ v ∈ e.key.1[fixed.1.length]?, b.Admits v) :=
    List.filter_congr fun e he => decide_eq_decide.2 (boundedVerdict_push (hlen e he))
  rw [← hfilter]
  unfold boundedScan
  have hnone : ¬ (b.lo.isNone && b.hi.isNone) = true := by
    rw [Bool.and_eq_true, Option.isNone_iff_eq_none, Option.isNone_iff_eq_none]
    rintro ⟨hlo, hhi⟩
    rw [hlo, hhi] at hsome
    rcases hsome with h | h <;> cases h
  rw [if_neg hnone]
  unfold boundedStart
  cases hlo : b.lo with
  | some lo => exact run_scanAt ht (fun e he hlt => boundedVerdict_start hlo (hlen e he) hlt) hdef hends
  | none =>
    dsimp only
    split
    · -- from the leftmost leaf, before which there is nothing
      refine run_bind (run_findLeftmost ht.toLoose) ?_
      rintro _ _ ⟨rfl, rfl⟩
      exact run_scanFrom ht (List.nil_append A).symm (fun e he => absurd he List.not_mem_nil) hdef hends
    · refine run_scanAt ht (fun e he hlt => ?_) hdef hends
      refine (boundedVerdict_outside fun hp => ?_).1
      exact absurd (Scan.le_of_prefix hp) (not_le.2 hlt)

/-! ### Nothing is changed -/

theorem reads_findLeafPage (k : SqlKey) : Reads (findLeafPage k) :=
  fun _ => wp_mono (wp_findLeafPage k) (fun _ _ h => h) fun _ _ _ => trivial

theorem reads_scanWhile (verdict : SqlKey → Option Scan.Verdict) : ∀ (fuel : ℕ) (p : PageId), Reads (scanWhile verdict fuel p) := by
  intro fuel
  induction fuel with
  | zero => exact fun _ => reads_throw _
  | succ fuel ih =>
    intro p
    unfold scanWhile
    split
    · exact reads_pure _
    · refine reads_bind (reads_fetchNode p) fun n => reads_bind (reads_leafEntries n) fun es => ?_
      split
      · exact reads_throw _
      · split
        · exact reads_pure _
        · exact reads_bind (ih _) fun rest => reads_pure _

theorem reads_prefixScan (fixed : SqlKey) : Reads (prefixScan fixed) :=
  reads_bind (reads_findLeafPage fixed) fun _ => reads_bind reads_get fun _ => reads_scanWhile _ _ _

theorem reads_rangeScan (start «end» : SqlKey) : Reads (rangeScan start «end») :=
  reads_bind (reads_findLeafPage start) fun _ => reads_bind reads_get fun _ => reads_scanWhile _ _ _

theorem reads_boundedScan (fixed : SqlKey) (b : RangeBounds) : Reads (boundedScan fixed b) := by
  unfold boundedScan
  split
  · exact reads_prefixScan fixed
  · refine reads_bind ?_ fun _ => reads_bind reads_get fun _ => reads_scanWhile _ _ _
    unfold boundedStart
    split
    · exact reads_findLeafPage _
    · split
      · exact reads_bind reads_get fun _ => reads_leftmost _ _
      · exact reads_findLeafPage _

/-! ### The scans of a store -/

/-- **Each scan is a filter of `scan_all`**, in the order of the keys: the keys of a range, those that begin with a tuple, and of
these, where they all go on, those whose next element satisfies the bounds. -/
theorem scans_are_filters (hs : Holds s μ) (ht : Chained μ.view μ.root d A O) : ∃ all, scanAll s = .ok all s ∧
    (all.Pairwise fun e e' => rank e.key ≤ rank e'.key) ∧
    (∀ start «end», rangeScan start «end» s =
      .ok (all.filter fun e => decide (rank start ≤ rank e.key ∧ rank e.key ≤ rank «end»)) s) ∧
    (∀ fixed, prefixScan fixed s = .ok (all.filter fun e => decide (fixed.1.rank <+: e.key.1.rank)) s) ∧
    ∀ fixed b, b.lo.isSome = true ∨ b.hi.isSome = true → (∀ e ∈ all, fixed.1.rank <+: e.key.1.rank → fixed.1.length < e.key.1.length) →
      boundedScan fixed b s = .ok (all.filter fun e =>
        decide (fixed.1.rank <+: e.key.1.rank ∧ ∃ v ∈ e.key.1[fixed.1.length]?, b.Admits v)) s := by
  refine ⟨content μ.view A, reads_run reads_scanAll hs (run_scanAll ht), content_rising ht.order, fun start «end» => ?_, fun fixed => ?_,
    fun fixed b hsome hlen => ?_⟩
  · exact reads_run (reads_rangeScan start «end») hs (run_rangeScan ht)
  · exact reads_run (reads_prefixScan fixed) hs (run_prefixScan ht)
  · exact reads_run (reads_boundedScan fixed b) hs (run_boundedScan ht hsome hlen)

open StaleId LostLeaf QuarterRun in
theorem scans_are_filters_ops : ∃ all, scanAll (exec ops newTree).2 = .ok all (exec ops newTree).2 ∧
    (all.Pairwise fun e e' => rank e.key ≤ rank e'.key) ∧
    (∀ start «end», rangeScan start «end» (exec ops newTree).2 =
      .ok (all.filter fun e => decide (rank start ≤ rank e.key ∧ rank e.key ≤ rank «end»)) (exec ops newTree).2) ∧
    (∀ fixed, prefixScan fixed (exec ops newTree).2 =
      .ok (all.filter fun e => decide (fixed.1.rank <+: e.key.1.rank)) (exec ops newTree).2) ∧
    ∀ fixed b, b.lo.isSome = true ∨ b.hi.isSome = true → (∀ e ∈ all, fixed.1.rank <+: e.key.1.rank → fixed.1.length < e.key.1.length) →
      boundedScan fixed b (exec ops newTree).2 = .ok (all.filter fun e =>
        decide (fixed.1.rank <+: e.key.1.rank ∧ ∃ v ∈ e.key.1[fixed.1.length]?, b.Admits v)) (exec ops newTree).2 := by
  obtain ⟨-, μ, d, A, O, hs, hm⟩ := (run_map (construct_map newSystem_ready newTree_ok) quarter_ops
    (noOverflow_of_settled settled_ops)).2
  exact scans_are_filters hs hm.tree.chained

end GSDBEngine
