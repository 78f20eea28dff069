import GSDBEngine.Proof.Search

/-!
# Carrying a separator up

What an insertion does to the separators above a leaf, on the separators alone. A
`Spine` is the separators of each node on the way up, the parent's first. `carryInto`
puts a key into the parent (`insert_into_parent`), `carrySplit` splits it
(`split_internal`); both say where they would write past the page, and give the spine
of the node on the side of a key `x`.

* `carrySplit_quarter`, `carryInto_quarter`: where no cell takes more than a quarter of
  a page, neither runs out of levels or of entries to split.
-/

namespace GSDBEngine

set_option linter.unusedSectionVars false

open KeyRank BTree

variable {K : Type} [KeyOps K]

abbrev Spine (K : Type) := List (List K)

/-- How carrying a key up can fail. -/
inductive Stop where
  | overflow
  | empty
  | fuel

def Stop.err : Stop → Err K
  | overflow => .overflow
  | empty => .undefined
  | fuel => .no_fuel

/-- The bytes of the cells of an internal node with the separators `ks`. -/
def sepSize (ks : List K) : ℕ := (ks.map fun k => (KeyOps.encode k).length + 4).sum

/-- The spine to insert into, its lowest node split first if `κ` does not fit. -/
def carryRoom (split : Spine K → K → Except Stop (Spine K)) (ks : List K) (up : Spine K) (κ : K) :
    Except Stop (Spine K) :=
  if CAPACITY - sepSize ks < internalEntrySize κ then split (ks :: up) κ else .ok (ks :: up)

def carryPlace (split : Spine K → K → Except Stop (Spine K)) : Spine K → K → K → Except Stop (Spine K)
  | [], _, _ => .error .empty
  | ks :: up, κ, x =>
    let ks' := sortByKey id (ks ++ [κ])
    if CAPACITY < sepSize ks' then .error .overflow
    else if CAPACITY - sepSize ks' < 64 then split (ks' :: up) x
    else .ok (ks' :: up)

def carryInto (split : Spine K → K → Except Stop (Spine K)) : Spine K → K → K → Except Stop (Spine K)
  | [], κ, _ => if sepSize [κ] ≤ CAPACITY then .ok [[κ]] else .error .overflow
  | ks :: up, κ, x => do
    let spine ← carryRoom split ks up κ
    carryPlace split spine κ x

def carrySplit : ℕ → Spine K → K → Except Stop (Spine K)
  | 0, _, _ => .error .fuel
  | _ + 1, [], _ => .error .empty
  | fuel + 1, ks :: up, x =>
    match ks[ks.length / 2]? with
    | none => .error .empty
    | some m => do
      let up ← carryInto (carrySplit fuel) up m x
      .ok ((if KeyOps.lt x m then ks.take (ks.length / 2) else ks.drop (ks.length / 2 + 1)) :: up)

/-- The separators on a page. -/
def seps (v : View K) (p : PageId) : List K :=
  match v p with
  | some n =>
    match n.cells with
    | .leaf _ => []
    | .internal es => es.map InternalEntry.key
  | none => []

theorem append_u32_length (n : ℕ) : (append_u32 n).length = 4 := rfl

theorem internal_bytes_length (es : List (InternalEntry K)) :
    (Cells.internal es).bytes.length = sepSize (es.map InternalEntry.key) := by
  show (es.flatMap InternalEntry.bytes).length = _
  induction es with
  | nil => rfl
  | cons e es ih =>
    simp only [List.flatMap_cons, List.length_append, ih, InternalEntry.bytes, append_u32_length, sepSize,
      List.map_cons, List.sum_cons]

theorem seps_eq {v : View K} {p : PageId} {n : Node K} {es : List (InternalEntry K)} (hv : v p = some n)
    (hc : n.cells = .internal es) : seps v p = es.map InternalEntry.key := by
  simp [seps, hv, hc]

theorem available_eq {n : Node K} {es : List (InternalEntry K)} (hc : n.cells = .internal es) :
    n.available = CAPACITY - sepSize (es.map InternalEntry.key) := by
  rw [Node.available, Node.used_space, hc, internal_bytes_length]

theorem isFull_iff {n : Node K} {es : List (InternalEntry K)} (hc : n.cells = .internal es) :
    n.isFull = true ↔ CAPACITY - sepSize (es.map InternalEntry.key) < 64 := by
  rw [Node.isFull, Node.used_space, hc, internal_bytes_length, decide_eq_true_iff]

theorem insertByKey_map {α : Type} {key : α → K} (e : α) (l : List α) :
    (insertByKey key e l).map key = insertByKey id (key e) (l.map key) := by
  induction l with
  | nil => rfl
  | cons x xs ih =>
    by_cases h : KeyOps.lt (key x) (key e) = true <;> simp [insertByKey, h, ih]

theorem sortByKey_map {α : Type} {key : α → K} (l : List α) :
    (sortByKey key l).map key = sortByKey id (l.map key) := by
  induction l with
  | nil => rfl
  | cons x xs ih =>
    show (insertByKey key x (sortByKey key xs)).map key = insertByKey id (key x) (sortByKey id (xs.map key))
    rw [insertByKey_map, ih]

/-! ### Cells of at most a quarter of a page -/

/-- The cell of the key takes at most a quarter of the page. -/
def Small (k : K) : Prop := 4 * ((KeyOps.encode k).length + 4) ≤ CAPACITY

theorem sepSize_cons (k : K) (ks : List K) : sepSize (k :: ks) = (KeyOps.encode k).length + 4 + sepSize ks := by
  simp [sepSize]

theorem sepSize_append (ks ks' : List K) : sepSize (ks ++ ks') = sepSize ks + sepSize ks' := by
  simp [sepSize]

theorem sepSize_le {ks : List K} (h : ∀ k ∈ ks, Small k) : 4 * sepSize ks ≤ CAPACITY * ks.length := by
  induction ks with
  | nil => simp [sepSize]
  | cons k ks ih =>
    have hk := h k (by simp)
    have hks := ih fun k' hk' => h k' (by simp [hk'])
    unfold Small at hk
    rw [sepSize_cons, List.length_cons, Nat.mul_succ]
    omega

theorem Small.entrySize_le {κ : K} (h : Small κ) : 4 * internalEntrySize κ ≤ CAPACITY := by
  have h1 := Nat.mod_le ((KeyOps.encode κ).length % 2 ^ 32 + 4) (2 ^ 32)
  have h2 := Nat.mod_le (KeyOps.encode κ).length (2 ^ 32)
  unfold Small at h
  unfold internalEntrySize
  omega

/-- A node without room for a quarter page holds four cells. -/
theorem four_le_length {ks : List K} (h : ∀ k ∈ ks, Small k) (room : ℕ) (hroom : 4 * room ≤ CAPACITY)
    (hfull : CAPACITY - sepSize ks < room) : 4 ≤ ks.length := by
  have hle := sepSize_le h
  have hcap : CAPACITY = 4079 := rfl
  by_contra hlt
  have h3 : ks.length ≤ 3 := by omega
  have := Nat.mul_le_mul_left CAPACITY h3
  omega

theorem mem_insertByKey {α : Type} {key : α → K} {e x : α} {l : List α} :
    x ∈ insertByKey key e l ↔ x = e ∨ x ∈ l := by
  induction l with
  | nil => simp [insertByKey]
  | cons y ys ih =>
    by_cases h : KeyOps.lt (key y) (key e) = true
    · simp only [insertByKey, h, if_true, List.mem_cons, ih]; tauto
    · simp [insertByKey, h]

theorem mem_sortByKey {α : Type} {key : α → K} {x : α} {l : List α} : x ∈ sortByKey key l ↔ x ∈ l := by
  induction l with
  | nil => simp [sortByKey]
  | cons y ys ih =>
    show x ∈ insertByKey key y (sortByKey key ys) ↔ _
    rw [mem_insertByKey, ih, List.mem_cons]

theorem length_insertByKey {α : Type} {key : α → K} {e : α} {l : List α} :
    (insertByKey key e l).length = l.length + 1 := by
  induction l with
  | nil => rfl
  | cons y ys ih =>
    by_cases h : KeyOps.lt (key y) (key e) = true <;> simp [insertByKey, h, ih]

theorem length_sortByKey {α : Type} {key : α → K} {l : List α} : (sortByKey key l).length = l.length := by
  induction l with
  | nil => rfl
  | cons y ys ih =>
    show (insertByKey key y (sortByKey key ys)).length = _
    rw [length_insertByKey, ih, List.length_cons]

/-- All separators of the spine are small, and there are fewer than `n` of them. -/
structure SmallSpine (n : ℕ) (s : Spine K) : Prop where
  small : ∀ ks ∈ s, ∀ k ∈ ks, Small k
  few : (s.map List.length).sum < n

/-- Nothing but an overflow may stop the carry. -/
def Carried (n : ℕ) (r : Except Stop (Spine K)) : Prop :=
  match r with
  | .ok s => s ≠ [] ∧ SmallSpine n s
  | .error stop => stop = .overflow

section quarter

variable {split : Spine K → K → Except Stop (Spine K)} {n : ℕ} {ks : List K} {up : Spine K} {κ x : K}
  (hsplit : ∀ ks up x, SmallSpine n (ks :: up) → 4 ≤ ks.length → Carried n (split (ks :: up) x))
include hsplit

omit hsplit in
theorem carryRoot_quarter (hκ : Small κ) : Carried 2 (carryInto split [] κ x) := by
  have hsize := sepSize_le (show ∀ k ∈ [κ], Small k by simpa using hκ)
  have hfit : sepSize [κ] ≤ CAPACITY := by simp only [List.length_singleton] at hsize; omega
  simp only [carryInto, if_pos hfit]
  exact ⟨by simp, ⟨by simpa using hκ, by simp⟩⟩

theorem carryRoom_quarter (h : SmallSpine n (ks :: up)) (hκ : Small κ) : Carried n (carryRoom split ks up κ) := by
  unfold carryRoom
  split
  · exact hsplit ks up κ h (four_le_length (h.small ks (by simp)) _ hκ.entrySize_le ‹_›)
  · exact ⟨by simp, h⟩

theorem carryPlace_quarter {s : Spine K} (hs : s ≠ []) (h : SmallSpine n s) (hn : (s.map List.length).sum + 1 < n)
    (hκ : Small κ) : Carried n (carryPlace split s κ x) := by
  cases s with
  | nil => exact absurd rfl hs
  | cons ks up =>
    have hmem : ∀ k ∈ sortByKey id (ks ++ [κ]), Small k := fun k hk => by
      rw [mem_sortByKey, List.mem_append, List.mem_singleton] at hk
      rcases hk with hk | rfl
      · exact h.small ks (by simp) k hk
      · exact hκ
    have h' : SmallSpine n (sortByKey id (ks ++ [κ]) :: up) := by
      refine ⟨fun ks' hks' => ?_, ?_⟩
      · rcases List.mem_cons.1 hks' with rfl | hks'
        · exact hmem
        · exact h.small ks' (by simp [hks'])
      · simp only [List.map_cons, List.sum_cons, length_sortByKey, List.length_append, List.length_singleton] at hn ⊢
        omega
    simp only [carryPlace]
    split
    · rfl
    · split
      · refine hsplit _ up x h' (four_le_length hmem 64 ?_ ‹_›)
        simp [CAPACITY, PAGE_SIZE, NODE_HEADER_SIZE]
      · exact ⟨by simp, h'⟩

end quarter

section quarter

variable {fuel n : ℕ} {ks : List K} {up s : Spine K} {κ x : K}

theorem carryInto_quarter
    (hsplit : ∀ n ≤ fuel, ∀ (ks : List K) (up : Spine K) (x : K), SmallSpine n (ks :: up) → 4 ≤ ks.length →
      Carried n (carrySplit fuel (ks :: up) x))
    (h : ∀ ks ∈ s, ∀ k ∈ ks, Small k) (hκ : Small κ) (hfuel : (s.map List.length).sum + 2 ≤ fuel) :
    Carried ((s.map List.length).sum + 2) (carryInto (carrySplit fuel) s κ x) := by
  cases s with
  | nil => exact carryRoot_quarter hκ
  | cons ks up =>
    have hroom := carryRoom_quarter (hsplit ((ks :: up).map List.length |>.sum.succ) (by omega)) ⟨h, by omega⟩ hκ
    simp only [carryInto]
    cases hr : carryRoom (carrySplit fuel) ks up κ with
    | error stop => rw [hr] at hroom; exact hroom
    | ok s =>
      rw [hr] at hroom
      obtain ⟨hne, hsmall⟩ := hroom
      have hfew := hsmall.few
      exact carryPlace_quarter (hsplit _ hfuel) hne ⟨hsmall.small, by omega⟩ (by omega) hκ

/-- **Quarter cells carry**: with fuel for every separator, only an overflow can stop the carry. -/
theorem carrySplit_quarter : ∀ fuel, ∀ n ≤ fuel, ∀ (ks : List K) (up : Spine K) (x : K), SmallSpine n (ks :: up) →
    4 ≤ ks.length → Carried n (carrySplit fuel (ks :: up) x) := by
  intro fuel
  induction fuel with
  | zero =>
    intro n hn ks up x h _
    have := h.few
    omega
  | succ fuel ih =>
    intro n hn ks up x h hlen
    have hfew := h.few
    rw [List.map_cons, List.sum_cons] at hfew
    obtain ⟨m, hm⟩ : ∃ m, ks[ks.length / 2]? = some m := ⟨_, List.getElem?_eq_getElem (by omega)⟩
    have hmem : m ∈ ks := List.mem_of_getElem? hm
    have hinto := carryInto_quarter (s := up) (x := x) ih (fun ks' h' => h.small ks' (by simp [h'])) (h.small ks (by simp) m hmem)
      (by omega)
    simp only [carrySplit, hm]
    cases hr : carryInto (carrySplit fuel) up m x with
    | error stop => rw [hr] at hinto; exact hinto
    | ok s =>
      rw [hr] at hinto
      obtain ⟨-, hsmall⟩ := hinto
      have hfew' := hsmall.few
      -- the half that stays gives up at least the promoted separator
      set half := if KeyOps.lt x m = true then ks.take (ks.length / 2) else ks.drop (ks.length / 2 + 1) with hhalf
      have hsub : ∀ k ∈ half, k ∈ ks := fun k hk => by
        rw [hhalf] at hk
        split at hk
        · exact List.mem_of_mem_take hk
        · exact List.mem_of_mem_drop hk
      have hlen' : half.length < ks.length := by
        rw [hhalf]
        split <;> simp <;> omega
      refine ⟨by simp, fun ks' h' => ?_, ?_⟩
      · rcases List.mem_cons.1 h' with rfl | h'
        · exact fun k hk => h.small ks (by simp) k (hsub k hk)
        · exact hsmall.small ks' h'
      · rw [List.map_cons, List.sum_cons]; omega

end quarter

end GSDBEngine
