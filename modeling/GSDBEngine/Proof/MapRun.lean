import GSDBEngine.Spec.Session
import GSDBEngine.Proof.Forest

/-!
# A tree with quarter cells is a map

Where every cell takes at most a quarter of a page, a full leaf holds four entries, a
sibling that may donate keeps one, and a split finds room for its separators. Then a call
throws exactly when the map does, and the leaves hold the entries of the map.

* `insertFits_quarter`, `donors_quarter`: nothing but an overflow stops a call.
* `step_map`: one call.
* `tree_refines_map`: **every sequence of calls on a new tree, against the map.**
-/

namespace GSDBEngine

set_option linter.unusedSectionVars false

open KeyRank BTree Eff

variable {K L : Type} [KeyOps K] [LinearOrder L] [KeyRank K L]
variable {v : View K} {root : PageId} {d : ℕ} {A B pre post : Level K} {O : List PageId} {p q : PageId} {c : Cell K} {μ : Mem K}
  {s s' : Store K} {E : Err K → Prop} {x : K} {val : Bytes}

/-! ### Cells of at most a quarter of a page -/

/-- The entry takes at most a quarter of the page. -/
def LeafEntry.quarter (e : LeafEntry K) : Prop := quarterCell e.key e.value

theorem LeafEntry.quarter.small {e : LeafEntry K} (h : e.quarter) : Small e.key := by
  unfold LeafEntry.quarter quarterCell at h
  unfold Small
  omega

theorem quarter_value_size {e : LeafEntry K} (h : e.quarter) : e.value_size = e.value.length := by
  have hcap : CAPACITY = 4079 := rfl
  unfold LeafEntry.quarter quarterCell at h
  exact Nat.mod_eq_of_lt (by omega)

theorem quarter_stored {e : LeafEntry K} (h : e.quarter) : e.stored = e := by
  show LeafEntry.mk e.key (e.value.take e.value_size) = e
  rw [quarter_value_size h, List.take_length]

theorem leaf_bytes_le {es : List (LeafEntry K)} (h : ∀ e ∈ es, e.quarter) :
    4 * (Cells.leaf es).bytes.length ≤ CAPACITY * es.length := by
  induction es with
  | nil => simp [Cells.bytes]
  | cons e es ih =>
    have he := h e (by simp)
    have hes := ih fun e' he' => h e' (by simp [he'])
    have hbytes : e.bytes.length = (KeyOps.encode e.key).length + 4 + e.value.length := by
      rw [LeafEntry.bytes, quarter_value_size he, List.take_length]
      simp [append_u32_length]
      omega
    have hcons : (Cells.leaf (e :: es)).bytes.length = e.bytes.length + (Cells.leaf es).bytes.length := by
      simp [Cells.bytes]
    unfold LeafEntry.quarter quarterCell at he
    rw [hcons, hbytes, List.length_cons, Nat.mul_succ]
    omega

/-- A leaf without room for a quarter cell holds four entries. -/
theorem four_le_leaf {es : List (LeafEntry K)} (h : ∀ e ∈ es, e.quarter) (hx : quarterCell x val)
    (hfull : CAPACITY - (Cells.leaf es).bytes.length < leafEntrySize x val) : 4 ≤ es.length := by
  have hle := leaf_bytes_le h
  have hcap : CAPACITY = 4079 := rfl
  have hsize : leafEntrySize x val ≤ (KeyOps.encode x).length + 4 + val.length := by
    have h1 := Nat.mod_le ((KeyOps.encode x).length % 2 ^ 32 + 4 + val.length % 2 ^ 32) (2 ^ 32)
    have h2 := Nat.mod_le (KeyOps.encode x).length (2 ^ 32)
    have h3 := Nat.mod_le val.length (2 ^ 32)
    unfold leafEntrySize
    omega
  unfold quarterCell at hx
  by_contra hlt
  have h3 : es.length ≤ 3 := by omega
  have := Nat.mul_le_mul_left CAPACITY h3
  omega

/-- A leaf that may donate holds two entries. -/
theorem donors_quarter {n : Node K} {es : List (LeafEntry K)} (hc : n.cells = .leaf es) (h : ∀ e ∈ es, e.quarter)
    (hd : n.isUnderfull = false) : 2 ≤ es.length := by
  have hle := leaf_bytes_le h
  have hcap : CAPACITY = 4079 := rfl
  rw [Node.isUnderfull, Node.used_space, hc, decide_eq_false_iff_not, hcap] at hd
  rw [hcap] at hle
  omega

/-! ### The separators on a path -/

theorem seps_length_le (hin : ∀ b ∈ B, Inner v b) {w : Option K} (hb : (p, w) ∈ B) :
    (seps v p).length + 1 ≤ (expand v B).length := by
  obtain ⟨-, n, es, hv, hc, -⟩ := hin _ hb
  obtain ⟨B₁, B₂, rfl⟩ := List.append_of_mem hb
  have hrow : rowAt v (p, w) = cellsOf es n.rightmost_child w := rowAt_eq hv hc
  rw [seps_eq hv hc, expand_append, expand_cons, hrow]
  simp [cellsOf]
  omega

/-- There are fewer separators above a leaf than pages. -/
theorem Up.seps_le (h : Up v root d A O) : ∀ {p : PageId} {path : List PageId}, p ∈ ids A → Path v p path →
    ((path.map (seps v)).map List.length).sum < A.length + O.length := by
  induction h with
  | root hv hpar =>
    intro p path hp hpath
    rw [show p = _ by simpa using hp] at hpath
    rw [hpath.unique (.root hv hpar)]
    simp
  | @down d B O hB hin ih =>
    intro p path hp hpath
    obtain ⟨u, hu⟩ := mem_ids.1 hp
    obtain ⟨⟨q, w⟩, hb, hc⟩ := mem_expand.1 hu
    obtain ⟨path', hpath'⟩ := hB.exists_path (mem_ids_of_mem hb)
    have hpq := (hin _ hb).path hc hpath'
    rw [hpath.unique hpq]
    have hq := ih (mem_ids_of_mem hb) hpath'
    have hsep := seps_length_le hin hb
    simp only [List.map_cons, List.sum_cons, List.length_append]
    have hlen : (ids B).length = B.length := by simp [ids]
    omega

/-! ### The two calls -/

/-- Nothing but an overflow stops an insertion. -/
theorem insertFits_quarter {u : Option K} {l : PageId} {n : Node K} {es : List (LeafEntry K)} {path : List PageId}
    (ht : TreeOK μ.view μ.root d A O) (hS : SmallBounds A) (hq : ∀ e ∈ content μ.view A, e.quarter) (hx : quarterCell x val)
    (hloc : Loc A x pre (l, u) post) (hl : μ.view l = some n) (hc : n.cells = .leaf es) (hpath : Path μ.view l path)
    (hov : E .overflow) : InsertFits E ((ids A ++ O).length + 2) es (path.map (seps μ.view)) x val := by
  have hes : ∀ e ∈ es, e.quarter := fun e he => hq e (by rw [hloc.eq]; simp [leafAt_eq hl hc, he])
  have hlA : l ∈ ids A := mem_ids_of_mem hloc.mem
  refine ⟨fun _ _ => hov, fun hfull hnil => ?_, fun hfull e he => ⟨Or.inl ?_, fun fuel hfuel stop hstop => ?_, fun _ => hov⟩⟩
  · have := four_le_leaf hes hx hfull
    rw [hnil] at this
    simp at this
  · have := four_le_leaf hes hx hfull
    omega
  · have hsmall : ∀ ks ∈ path.map (seps μ.view), ∀ k ∈ ks, Small k := fun ks hks k hk => by
      obtain ⟨p, hp, rfl⟩ := List.mem_map.1 hks
      exact hS.seps ht.up p (ht.up.path_mem hlA hpath p hp) k hk
    have hfew := ht.up.seps_le hlA hpath
    have hlen : (ids A ++ O).length = A.length + O.length := by simp [ids]
    have hcarry := carryInto_quarter (s := path.map (seps μ.view)) (x := x) (carrySplit_quarter fuel) hsmall
      ((hes e (List.mem_of_getElem? he)).small) (by omega)
    rw [hstop] at hcarry
    rw [show stop = .overflow from hcarry]
    exact hov

/-! ### The map in the leaves -/

def LeafEntry.pair (e : LeafEntry K) : K × Bytes := (e.key, e.value)

/-- The leaves of the tree hold the entries of the map. -/
structure Holds.IsMap (μ : Mem K) (m : TreeMap K) (d : ℕ) (A : Level K) (O : List PageId) : Prop where
  tree : TreeOK μ.view μ.root d A O
  entries : (content μ.view A).map LeafEntry.pair = m.entries
  quarter : ∀ e ∈ content μ.view A, e.quarter
  small : SmallBounds A
  thick : Thick μ.view O

/-- Between transactions, the store holds the map. -/
structure IsMap (s : Store K) (m : TreeMap K) : Prop where
  idle : Idle s
  held : ∃ μ d A O, Holds s μ ∧ Holds.IsMap μ m d A O

theorem find_entries {m : TreeMap K} {es : List (LeafEntry K)} (h : es.map LeafEntry.pair = m.entries) :
    m.find? x = findInLeaf es x := by
  have hfun : ((fun e : K × Bytes => decide (rank e.1 = rank x)) ∘ LeafEntry.pair) =
      fun e : LeafEntry K => KeyOps.eq e.key x := by
    funext e
    rw [Bool.eq_iff_iff, eq_true]
    exact decide_eq_true_iff
  rw [SortedMap.find?, ← h, List.find?_map, hfun, Option.map_map]
  rfl

theorem erase_entries {m : TreeMap K} {es : List (LeafEntry K)} (h : es.map LeafEntry.pair = m.entries) :
    (without es x).map LeafEntry.pair = (m.erase x).entries := by
  show _ = m.entries.filter _
  rw [← h, List.filter_map]
  congr 1
  refine List.filter_congr fun e _ => ?_
  rw [Bool.eq_iff_iff, Bool.not_eq_true', eq_false]
  exact decide_eq_true_iff.symm

theorem insert_entries {m : TreeMap K} {es es' : List (LeafEntry K)} (h : es.map LeafEntry.pair = m.entries)
    (hins : Inserted es es' ⟨x, val⟩) (hs : es'.Pairwise fun e e' => rank e.key < rank e'.key) (hx : m.find? x = none) :
    es'.map LeafEntry.pair = (m.insert x val hx).entries := by
  obtain ⟨es₁, es₂, rfl, rfl⟩ := hins
  have hsorted : (es₁.map LeafEntry.pair ++ (x, val) :: es₂.map LeafEntry.pair).Pairwise
      fun a b => rank a.1 < rank b.1 := by
    have hmap : (List.map LeafEntry.pair (es₁ ++ ⟨x, val⟩ :: es₂)).Pairwise fun a b => rank a.1 < rank b.1 :=
      List.pairwise_map.2 hs
    rwa [List.map_append, List.map_cons] at hmap
  rw [SortedMap.entries_insert (by rw [← h, List.map_append]) hsorted hx, List.map_append, List.map_cons]
  rfl

/-! ### One call -/

theorem onMap_absent {m : TreeMap K} (h : m.find? x = none) :
    Op.onMap m (.insert x val) = (none, m.insert x val h) := by
  unfold Op.onMap
  dsimp only
  split
  · rfl
  · rename_i h'; rw [h] at h'; cases h'

theorem onMap_present {m : TreeMap K} (h : m.find? x ≠ none) :
    Op.onMap m (.insert x val) = (some (.duplicate_key x), m) := by
  unfold Op.onMap
  dsimp only
  split
  · exact absurd ‹_› h
  · rfl

/-- What a call may do to a store that holds `m`. -/
def OnMap (op : Op K) (m : TreeMap K) : Option (Err K) → Store K → Prop
  | none, s' => (op.onMap m).1 = none ∧ IsMap s' (op.onMap m).2
  | some e, s' => e = .overflow ∨ e = .file_extend ∨ (op.onMap m).1 = some e ∧ IsMap s' (op.onMap m).2

theorem step_insert {m : TreeMap K} (h : IsMap s m) (hx : quarterCell x val) :
    wp (BTree.insert x val) (fun e => OnMap (.insert x val) m (some e)) (fun _ => OnMap (.insert x val) m none) s := by
  obtain ⟨hi, μ, d, A, O, hs, hm⟩ := h
  have hfind := find_entries (x := x) hm.entries
  refine wp_mono (wp_own (b := fun txn => insertTx txn x val)
    (E := fun e => e = .overflow ∨ e = .file_extend ∨ e = .duplicate_key x ∧ m.find? x ≠ none) hi hs
    (fun t old s hsync => callOK_body (.insert 0 x val) hsync) fun t => run_insertTx hm.tree (Or.inr (Or.inl rfl))
      (fun e he hex => Or.inr (Or.inr ⟨rfl, fun hnone => ?_⟩)) fun pre l u post n es path hloc hl hc hpath _ =>
        insertFits_quarter hm.tree hm.small hm.quarter hx hloc hl hc hpath (Or.inl rfl)) ?_ ?_
  · rw [hfind] at hnone
    exact findInLeaf_none.1 hnone e he hex
  · rintro ⟨⟩ s' ⟨hi', -, μ', hs', hnew, d', A', O', ht', hins, -, hthick⟩
    have hnone : m.find? x = none := by rw [hfind]; exact findInLeaf_none.2 hnew
    have hstored : LeafEntry.stored (⟨x, val⟩ : LeafEntry K) = ⟨x, val⟩ := quarter_stored hx
    rw [hstored] at hins
    obtain ⟨hsmall, hth⟩ := hthick hm.small (fun e he => (hm.quarter e he).small) hm.thick
    show (Op.onMap m (.insert x val)).1 = none ∧ IsMap s' (Op.onMap m (.insert x val)).2
    rw [onMap_absent hnone]
    refine ⟨rfl, hi', μ', d', A', O', hs', ht', insert_entries hm.entries hins (content_sorted ht'.order) hnone, fun e he => ?_,
      hsmall, hth⟩
    obtain ⟨c₁, c₂, hc, hc'⟩ := hins
    rw [hc'] at he
    rcases List.mem_append.1 he with he | he
    · exact hm.quarter e (by rw [hc]; simp [he])
    · rcases List.mem_cons.1 he with rfl | he
      · exact hx
      · exact hm.quarter e (by rw [hc]; simp [he])
  · rintro e s' ⟨rfl | rfl | ⟨rfl, hsome⟩, hsame⟩
    · exact Or.inl rfl
    · exact Or.inr (Or.inl rfl)
    · obtain ⟨hi', hs', -⟩ := hsame rfl
      rw [OnMap, onMap_present hsome]
      exact Or.inr (Or.inr ⟨rfl, hi', μ, d, A, O, hs', hm⟩)

theorem step_remove {m : TreeMap K} (h : IsMap s m) :
    wp (BTree.remove x) (fun e => OnMap (.remove x) m (some e)) (fun _ => OnMap (.remove x) m none) s := by
  obtain ⟨hi, μ, d, A, O, hs, hm⟩ := h
  have hfind := find_entries (x := x) hm.entries
  refine wp_mono (wp_own (b := fun txn => removeTx txn x)
    (E := fun e => e = .overflow ∨ e = .key_not_found x ∧ m.find? x = none) hi hs
    (fun t old s hsync => callOK_body (.remove 0 x) hsync) fun t => run_removeTx hm.tree (Or.inl rfl)
      (fun hall => Or.inr ⟨rfl, by rw [hfind]; exact findInLeaf_none.2 hall⟩) (fun q hq hnil => absurd hnil (hm.thick q hq))
      fun pre c post hloc q n es hq _ _ hv hc hd => ?_) ?_ ?_
  · obtain ⟨u, hu⟩ := mem_ids.1 hq
    exact donors_quarter hc (fun e he => hm.quarter e (List.mem_flatMap.2 ⟨_, hu, by rw [leafAt_eq hv hc]; exact he⟩)) hd
  · rintro ⟨⟩ s' ⟨hi', -, μ', hs', ⟨e, he, hex⟩, d', A', O', ht', hcont, -, hthick⟩
    have hsome : ∃ val, m.find? x = some val := by
      rw [← Option.ne_none_iff_exists', hfind]
      exact fun hnone => findInLeaf_none.1 hnone e he hex
    obtain ⟨val, hsome⟩ := hsome
    obtain ⟨hsmall, hth⟩ := hthick hm.small (fun e he => (hm.quarter e he).small) hm.thick
    show (Op.onMap m (.remove x)).1 = none ∧ IsMap s' (Op.onMap m (.remove x)).2
    rw [Op.onMap, hsome]
    refine ⟨rfl, hi', μ', d', A', O', hs', ht', ?_, fun e he => ?_, hsmall, hth⟩
    · rw [hcont]
      exact erase_entries hm.entries
    · rw [hcont] at he
      exact hm.quarter e (mem_without.1 he).1
  · rintro e s' ⟨rfl | ⟨rfl, hnone⟩, hsame⟩
    · exact Or.inl rfl
    · obtain ⟨hi', hs', -⟩ := hsame rfl
      rw [OnMap, Op.onMap, hnone]
      exact Or.inr (Or.inr ⟨rfl, hi', μ, d, A, O, hs', hm⟩)

theorem step_map {m : TreeMap K} (h : IsMap s m) (op : Op K) (hq : ∀ key value, op = .insert key value → quarterCell key value) :
    wp op.call (fun e => OnMap op m (some e)) (fun _ => OnMap op m none) s := by
  cases op with
  | insert key value => exact step_insert h (hq key value rfl)
  | remove key => exact step_remove h

/-! ### Runs of calls -/

theorem run_map : ∀ {ops : List (Op K)} {s : Store K} {m : TreeMap K}, IsMap s m → Quarter ops → NoOverflow (exec ops s).1 →
    (exec ops s).1 = (mapExec ops m).1 ∧ IsMap (exec ops s).2 (mapExec ops m).2 := by
  intro ops
  induction ops with
  | nil => intro s m h _ _; exact ⟨rfl, h⟩
  | cons op ops ih =>
    intro s m h hq hov
    have hstep := step_map h op fun key value hop => hq key value (by simp [hop])
    have hq' : Quarter ops := fun key value hmem => hq key value (by simp [hmem])
    unfold wp at hstep
    unfold exec mapExec
    unfold exec at hov
    cases hc : op.call s with
    | ok a s' =>
      rw [hc] at hstep hov
      obtain ⟨hout, hmap⟩ := hstep
      obtain ⟨houts, hend⟩ := ih hmap hq' fun e he => hov e (by simp [he])
      exact ⟨by rw [hout]; exact congrArg _ houts, hend⟩
    | error e s' =>
      rw [hc] at hstep hov
      rcases hstep with rfl | rfl | ⟨hout, hmap⟩
      · exact absurd rfl (hov _ (by simp)).1
      · exact absurd rfl (hov _ (by simp)).2
      · obtain ⟨houts, hend⟩ := ih hmap hq' fun e he => hov e (by simp [he])
        exact ⟨by rw [hout]; exact congrArg _ houts, hend⟩

/-- The root is set before the commit or after it. -/
theorem createEmptyRoot_eq : (createEmptyRoot : M K Unit) = own (Call.construct 0).body := by
  unfold createEmptyRoot own Call.body
  refine congrArg (walBegin >>= ·) (funext fun txn => ?_)
  dsimp only
  rw [bind_assoc]
  rfl

/-- A new tree holds the empty map. -/
theorem construct_map (h : s.Ready) (hnew : construct INVALID_PAGE s = .ok () s') : IsMap s' (SortedMap.empty : TreeMap K) := by
  obtain ⟨F, hchain, hnd, hlisted⟩ := h.free
  have hi : Idle { s with root_page := INVALID_PAGE } := ⟨h.header, h.pages⟩
  have hs : Holds { s with root_page := INVALID_PAGE } ⟨s.view, INVALID_PAGE, F⟩ := ⟨rfl, rfl, hchain, hnd, hlisted, h.bound⟩
  have hown := wp_own (b := fun txn => (Call.construct 0 : Call K).body txn) (E := fun _ => True) hi hs
    (fun t old s hsync => callOK_body (.construct 0) hsync) fun t => run_createRoot trivial
  have hnew' : own (Call.construct 0 : Call K).body { s with root_page := INVALID_PAGE } = .ok () s' := by
    rw [← createEmptyRoot_eq]
    exact hnew
  obtain ⟨hi', -, μ', hs', p, -, ht, hcont, -⟩ := wp_ok hown hnew'
  refine ⟨hi', μ', 0, _, [], hs', ht, ?_, ?_, ?_, ?_⟩
  · rw [hcont]; rfl
  · rw [hcont]; simp
  · intro c hc k hk
    rw [List.mem_singleton.1 hc] at hk; cases hk
  · intro p hp; cases hp

/-! ### Reading -/

variable {α β : Type}

/-- The method changes nothing. -/
def Reads (m : M K α) : Prop := ∀ s, wp m (fun _ _ => True) (fun _ s' => s' = s) s

theorem reads_bind {m : M K β} {f : β → M K α} (hm : Reads m) (hf : ∀ b, Reads (f b)) : Reads (m >>= f) := by
  intro s
  rw [wp_bind]
  refine wp_post (hm s) fun b s' hs' => ?_
  subst hs'
  exact hf b s'

theorem reads_pure (a : α) : Reads (pure a : M K α) := fun _ => rfl

theorem reads_throw (e : Err K) : Reads (throw e : M K α) := fun _ => trivial

theorem reads_get : Reads (get : M K (Store K)) := fun _ => rfl

theorem reads_fetchNode (p : PageId) : Reads (fetchNode p : M K (Node K)) := by
  refine reads_bind (reads_bind reads_get fun s => ?_) fun pg => ?_
  · split
    · exact reads_pure _
    · exact reads_throw _
  · cases pg with
    | node n => exact reads_pure n
    | zero => exact reads_throw _
    | header h => exact reads_throw _
    | free next under => exact reads_throw _

theorem reads_leafEntries (n : Node K) : Reads (n.leafEntries : M K (List (LeafEntry K))) := by
  unfold Node.leafEntries
  split
  · exact reads_pure _
  · exact reads_throw _

theorem reads_search (k : K) : Reads (search k) := by
  refine reads_bind (fun s => wp_mono (wp_findLeafPage k) (fun _ _ h => h) fun _ _ _ => trivial) fun p => ?_
  exact reads_bind (reads_bind (reads_fetchNode p) fun n => reads_leafEntries n) fun es => reads_pure _

theorem reads_leftmost : ∀ (fuel : ℕ) (p : PageId), Reads (findLeftmostLeafLoop fuel p : M K PageId) := by
  intro fuel
  induction fuel with
  | zero => exact fun _ => reads_throw _
  | succ fuel ih =>
    intro p
    refine reads_bind (reads_fetchNode p) fun n => ?_
    split
    · exact reads_pure _
    · exact ih _

theorem reads_scanLeaves : ∀ (fuel : ℕ) (p : PageId), Reads (scanLeaves fuel p : M K (List (LeafEntry K))) := by
  intro fuel
  induction fuel with
  | zero => exact fun _ => reads_throw _
  | succ fuel ih =>
    intro p
    unfold scanLeaves
    split
    · exact reads_pure _
    · refine reads_bind (reads_fetchNode p) fun n => reads_bind (reads_leafEntries n) fun es => ?_
      exact reads_bind (ih _) fun rest => reads_pure _

theorem reads_scanAll : Reads (scanAll (K := K)) :=
  reads_bind (reads_bind reads_get fun _ => reads_leftmost _ _) fun _ => reads_bind reads_get fun _ => reads_scanLeaves _ _

/-- A method that changes nothing, in a memory where it returns `a`. -/
theorem reads_run {m : M K α} {a : α} (hr : Reads m) (hs : Holds s μ)
    (hrun : Run μ m (fun _ => False) fun r μ' => μ' = μ ∧ r = a) : m s = .ok a s := by
  have h1 := hrun s hs
  have h2 := hr s
  unfold wp at h1 h2
  cases hm : m s with
  | ok r s' =>
    rw [hm] at h1 h2
    obtain ⟨-, -, -, -, rfl⟩ := h1
    rw [show s' = s from h2]
  | error e s' =>
    rw [hm] at h1
    exact h1.elim

theorem map_pair (es : List (LeafEntry K)) : (es.map LeafEntry.pair).map (fun e => LeafEntry.mk e.1 e.2) = es := by
  rw [List.map_map]
  exact List.map_id es

/-- What `search` and `scan_all` return on a store that holds a map. -/
theorem IsMap.reads {m : TreeMap K} (h : IsMap s m) : (∀ k, search k s = .ok (m.find? k) s) ∧
    scanAll s = .ok (m.entries.map fun e => ⟨e.1, e.2⟩) s := by
  obtain ⟨-, μ, d, A, O, hs, hm⟩ := h
  refine ⟨fun k => ?_, ?_⟩
  · rw [find_entries hm.entries]
    exact reads_run (reads_search k) hs (run_search hm.tree.loose)
  · rw [← hm.entries, map_pair]
    exact reads_run reads_scanAll hs (run_scanAll hm.tree.chained)

/-- **The tree refines the map.** On a new tree, calls with cells of at most a quarter page throw what the map throws,
`search` returns what the map has, and `scan_all` the entries of the map in ascending order. -/
theorem tree_refines_map {s₀ s : Store SqlKey} (h : s₀.Ready) (hnew : construct INVALID_PAGE s₀ = .ok () s) (ops : List (Op SqlKey))
    (hq : Quarter ops) (hov : NoOverflow (exec ops s).1) :
    (exec ops s).1 = (mapExec ops SortedMap.empty).1 ∧
    (∀ k, search k (exec ops s).2 = .ok ((mapExec ops SortedMap.empty).2.find? k) (exec ops s).2) ∧
    scanAll (exec ops s).2 = .ok ((mapExec ops SortedMap.empty).2.entries.map fun e => ⟨e.1, e.2⟩) (exec ops s).2 := by
  obtain ⟨houts, hmap⟩ := run_map (construct_map h hnew) hq hov
  exact ⟨houts, hmap.reads⟩

/-! ### A run -/

namespace QuarterRun

open StaleId LostLeaf

theorem newSystem_ready : newSystem.store.Ready where
  header := rfl
  pages := le_refl _
  bound := by decide
  free := newSystem_bare.free

/-- A tree just constructed. -/
def newTree : Store SqlKey := after (construct INVALID_PAGE) newSystem.store

/-- Insertions and removals of two keys, some refused. -/
def ops : List (Op SqlKey) :=
  [.insert (keyOf 2) [7], .insert (keyOf 1) [8], .insert (keyOf 2) [9], .remove (keyOf 3), .remove (keyOf 2)]

/-- Whether the call returned, or was refused. -/
def settled : Option (Err SqlKey) → Bool
  | none => true
  | some e => e.isRefusal

theorem noOverflow_of_settled {outs : List (Option (Err SqlKey))} (h : outs.all settled = true) : NoOverflow outs := by
  intro e he
  have hs := List.all_eq_true.1 h _ he
  constructor <;> rintro rfl <;> cases hs

theorem newTree_ok : construct INVALID_PAGE newSystem.store = .ok () newTree := returns_ok (by decide +kernel)

theorem settled_ops : (exec ops newTree).1.all settled = true := by decide +kernel

theorem quarter_ops : Quarter ops := by
  intro key value h
  unfold quarterCell
  simp only [ops, List.mem_cons, Op.insert.injEq, reduceCtorEq, List.not_mem_nil, or_false] at h
  rcases h with ⟨rfl, rfl⟩ | ⟨rfl, rfl⟩ | ⟨rfl, rfl⟩ <;> decide

end QuarterRun

open StaleId LostLeaf QuarterRun in
theorem tree_refines_map_ops : (exec ops newTree).1 = (mapExec ops SortedMap.empty).1 ∧
    (∀ k, search k (exec ops newTree).2 = .ok ((mapExec ops SortedMap.empty).2.find? k) (exec ops newTree).2) ∧
    scanAll (exec ops newTree).2 =
      .ok ((mapExec ops SortedMap.empty).2.entries.map fun e => ⟨e.1, e.2⟩) (exec ops newTree).2 :=
  tree_refines_map newSystem_ready newTree_ok ops quarter_ops (noOverflow_of_settled settled_ops)

end GSDBEngine
