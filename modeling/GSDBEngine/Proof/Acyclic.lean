import GSDBEngine.Spec.Cascade
import GSDBEngine.Lib.Fuel
import GSDBEngine.Proof.Ddl

/-!
# A deletion along foreign keys ends

A table references tables that are older, and no table is dropped that another one references.

* `Catalog.Ordered`: the tables have ranks, and every foreign key leads to a smaller one.
* `ExecState.Reachable.ordered`: **so it is after every statement, whichever way it ends.**
* `Catalog.Ordered.acyclic`: no table references itself, through any others.
* `delete_row_cascading_ends`: **the recursion is no deeper than there are ranks, whatever the trees hold.**
-/

namespace GSDBEngine

open Eff

variable {Q : Type} {stmt : CreateTableStmt Q} {s s' : ExecState} {cat cat' : Catalog} {schema : TableSchema}

/-! ### Ranks -/

namespace Catalog

/-- Ranks under a bound, smaller along every foreign key. -/
structure Ranked (cat : Catalog) (rank : Bytes → ℕ) (bound : ℕ) : Prop where
  bound : ∀ name schema, cat.tables.lookup name = some schema → rank name < bound
  lt : ∀ name schema, cat.tables.lookup name = some schema → ∀ fk ∈ schema.foreign_keys, rank fk.ref_table < rank name

/-- **Tables that exist are referenced, older ones, by as many columns as they are referenced with.** -/
structure Ordered (cat : Catalog) : Prop where
  named : cat.Named
  ranked : ∃ rank bound, cat.Ranked rank bound
  parent : ∀ name schema, cat.tables.lookup name = some schema → ∀ fk ∈ schema.foreign_keys, (cat.tables.lookup fk.ref_table).isSome = true
  aligned : ∀ name schema, cat.tables.lookup name = some schema → ∀ fk ∈ schema.foreign_keys,
    fk.column_indices.length = fk.ref_column_indices.length

/-- The tables of `cat'` are tables of `cat`, with the same foreign keys. -/
def TablesFrom (cat cat' : Catalog) : Prop :=
  ∀ name schema', cat'.tables.lookup name = some schema' → ∃ schema, cat.tables.lookup name = some schema ∧ schema'.foreign_keys = schema.foreign_keys

theorem TablesFrom.refl (cat : Catalog) : cat.TablesFrom cat := fun _ schema h => ⟨schema, h, rfl⟩

theorem Ranked.from {rank : Bytes → ℕ} {bound : ℕ} (h : cat.Ranked rank bound) (ht : cat.TablesFrom cat') : cat'.Ranked rank bound where
  bound name schema' hl := by
    obtain ⟨schema, hl, -⟩ := ht name schema' hl
    exact h.bound name schema hl
  lt name schema' hl fk hfk := by
    obtain ⟨schema, hl, heq⟩ := ht name schema' hl
    rw [heq] at hfk
    exact h.lt name schema hl fk hfk

theorem Ordered.from (h : cat.Ordered) (hn : cat'.Named) (ht : cat.TablesFrom cat')
    (hparent : ∀ name schema, cat'.tables.lookup name = some schema → ∀ fk ∈ schema.foreign_keys,
      (cat.tables.lookup fk.ref_table).isSome = true → (cat'.tables.lookup fk.ref_table).isSome = true) : cat'.Ordered where
  named := hn
  ranked := by
    obtain ⟨rank, bound, hr⟩ := h.ranked
    exact ⟨rank, bound, hr.from ht⟩
  parent name schema' hl' fk hfk := by
    obtain ⟨schema, hl, heq⟩ := ht name schema' hl'
    exact hparent name schema' hl' fk hfk (h.parent name schema hl fk (heq ▸ hfk))
  aligned name schema' hl fk hfk := by
    obtain ⟨schema, hl, heq⟩ := ht name schema' hl
    exact h.aligned name schema hl fk (heq ▸ hfk)

/-- A table is created: its rank is the bound. -/
theorem Ordered.create_table (h : cat.Ordered) (he : (CatalogCall.create_table schema).edited cat = some cat')
    (hparent : ∀ fk ∈ schema.foreign_keys, (cat.tables.lookup fk.ref_table).isSome = true)
    (haligned : ∀ fk ∈ schema.foreign_keys, fk.column_indices.length = fk.ref_column_indices.length) : cat'.Ordered := by
  have hn := CatalogCall.named_edited (s := ⟨cat, []⟩) h.named he
  obtain ⟨hfree, he⟩ := Option.ite_none_left_eq_some.1 he
  obtain rfl := Option.some.inj he
  obtain ⟨rank, bound, hr⟩ := h.ranked
  have hne : ∀ {name}, (cat.tables.lookup name).isSome = true → name ≠ schema.name := by
    rintro name hs rfl
    exact hfree hs
  have hlookup : ∀ {name t}, (cat.tables.insert schema.name schema).lookup name = some t →
      (name = schema.name ∧ t = schema) ∨ (name ≠ schema.name ∧ cat.tables.lookup name = some t) := by
    intro name t hl
    by_cases hname : name = schema.name
    · subst hname
      rw [AList.lookup_insert] at hl
      exact Or.inl ⟨rfl, (Option.some.inj hl).symm⟩
    · rw [AList.lookup_insert_ne hname] at hl
      exact Or.inr ⟨hname, hl⟩
  have hold : ∀ {name}, (cat.tables.lookup name).isSome = true → ((cat.tables.insert schema.name schema).lookup name).isSome = true := by
    intro name hs
    rw [AList.lookup_insert_ne (hne hs)]
    exact hs
  refine ⟨hn, ⟨Function.update rank schema.name bound, bound + 1, ?_, ?_⟩, ?_, ?_⟩
  · intro name t hl
    rcases hlookup hl with ⟨rfl, rfl⟩ | ⟨hname, hl⟩
    · rw [Function.update_self]
      exact Nat.lt_succ_self bound
    · rw [Function.update_of_ne hname]
      exact (hr.bound name t hl).trans (Nat.lt_succ_self bound)
  · intro name t hl fk hfk
    rcases hlookup hl with ⟨rfl, rfl⟩ | ⟨hname, hl⟩
    · obtain ⟨parent, hp⟩ := Option.isSome_iff_exists.1 (hparent fk hfk)
      rw [Function.update_self, Function.update_of_ne (hne (hparent fk hfk))]
      exact hr.bound _ parent hp
    · rw [Function.update_of_ne hname, Function.update_of_ne (hne (h.parent name t hl fk hfk))]
      exact hr.lt name t hl fk hfk
  · intro name t hl fk hfk
    rcases hlookup hl with ⟨rfl, rfl⟩ | ⟨hname, hl⟩
    · exact hold (hparent fk hfk)
    · exact hold (h.parent name t hl fk hfk)
  · intro name t hl fk hfk
    rcases hlookup hl with ⟨rfl, rfl⟩ | ⟨hname, hl⟩
    · exact haligned fk hfk
    · exact h.aligned name t hl fk hfk

/-- **No table references itself, through any others.** -/
theorem Ordered.acyclic (h : cat.Ordered) (name : Bytes) : ¬ Relation.TransGen cat.Refers name name := by
  obtain ⟨rank, bound, hr⟩ := h.ranked
  have hstep : ∀ {c p}, cat.Refers c p → rank p < rank c := by
    rintro c p ⟨schema, hl, fk, hfk, rfl⟩
    exact hr.lt c schema hl fk hfk
  have hlt : ∀ {c p}, Relation.TransGen cat.Refers c p → rank p < rank c := by
    intro c p hcp
    induction hcp with
    | single hs => exact hstep hs
    | tail _ hs ih => exact (hstep hs).trans ih
  exact fun hcycle => lt_irrefl _ (hlt hcycle)

end Catalog

/-! ### Edits that keep the tables -/

/-- Edits of indexes and of root pages. -/
def CatalogCall.KeepsTables : CatalogCall → Prop
  | .create_table _ | .drop_table _ => False
  | _ => True

theorem CatalogCall.tables_kept {call : CatalogCall} (hk : call.KeepsTables) (he : call.edited cat = some cat') :
    cat.TablesFrom cat' ∧ cat'.TablesFrom cat := by
  cases call with
  | create_table schema => exact hk.elim
  | drop_table table_name => exact hk.elim
  | create_index index =>
    obtain ⟨-, he⟩ := Option.ite_none_left_eq_some.1 he
    obtain rfl := Option.some.inj he
    exact ⟨.refl _, .refl _⟩
  | drop_index index_name =>
    obtain ⟨-, he⟩ := Option.ite_none_left_eq_some.1 he
    obtain rfl := Option.some.inj he
    exact ⟨.refl _, .refl _⟩
  | update_table_root table_name root =>
    obtain ⟨schema, hl, rfl⟩ := Option.map_eq_some_iff.1 he
    constructor
    · intro name t ht
      by_cases hname : name = table_name
      · subst hname
        rw [AList.lookup_insert] at ht
        obtain rfl := Option.some.inj ht
        exact ⟨schema, hl, rfl⟩
      · rw [AList.lookup_insert_ne hname] at ht
        exact ⟨t, ht, rfl⟩
    · intro name t ht
      by_cases hname : name = table_name
      · subst hname
        obtain rfl := Option.some.inj (hl.symm.trans ht)
        exact ⟨_, AList.lookup_insert _, rfl⟩
      · exact ⟨t, (AList.lookup_insert_ne hname).trans ht, rfl⟩
  | update_index_root index_name root =>
    obtain ⟨index, hl, rfl⟩ := Option.map_eq_some_iff.1 he
    exact ⟨.refl _, .refl _⟩

theorem Catalog.Ordered.kept {call : CatalogCall} (h : cat.Ordered) (hk : call.KeepsTables) (he : call.edited cat = some cat') :
    cat'.Ordered := by
  obtain ⟨hfrom, hback⟩ := CatalogCall.tables_kept hk he
  refine h.from (CatalogCall.named_edited (s := ⟨cat, []⟩) h.named he) hfrom fun _ _ _ fk _ hs => ?_
  obtain ⟨parent, hp⟩ := Option.isSome_iff_exists.1 hs
  obtain ⟨parent', hp', -⟩ := hback _ parent hp
  rw [hp']
  rfl

/-! ### Statements -/

/-- Whichever way a call of the catalog ends. -/
theorem wp_on_catalog_kept {I : Catalog → Prop} (call : CatalogCall) (hs : I s.catalog.toCatalog)
    (hedit : ∀ cat, call.edited s.catalog.toCatalog = some cat → I cat) :
    wp (on_catalog call.body) (fun _ s' => I s'.catalog.toCatalog) (fun _ s' => I s'.catalog.toCatalog) s :=
  wp_on_catalog call (fun cat _ h _ => hedit cat h) (fun _ => hs) fun _ cat h => hedit cat h

theorem wp_on_catalog_ordered (call : CatalogCall) (hk : call.KeepsTables) (h : s.catalog.Ordered) :
    wp (on_catalog call.body) (fun _ s' => s'.catalog.Ordered) (fun _ s' => s'.catalog.Ordered) s :=
  wp_on_catalog_kept call h fun _ he => h.kept hk he

theorem create_index_tree_ordered (index : IndexSchema) (h : s.catalog.Ordered) :
    wp (create_index_tree index) (fun _ s' => s'.catalog.Ordered) (fun _ s' => s'.catalog.Ordered) s := by
  unfold create_index_tree
  simp only [wp_bind]
  refine wp_post (wp_on_catalog_ordered (.create_index index) trivial h) fun _ s₁ h₁ => ?_
  refine wp_new_tree fun root trees => ?_
  exact wp_on_catalog_ordered (.update_index_root index.name root) trivial h₁

/-- **CREATE TABLE** references tables that exist. -/
theorem execute_create_table_ordered (h : s.catalog.Ordered) :
    wp (execute_create_table stmt) (fun _ s' => s'.catalog.Ordered) (fun _ s' => s'.catalog.Ordered) s := by
  unfold execute_create_table
  rw [wp_bind, wp_get, wp_bind]
  refine wp_liftE (fun checked hchecked => ?_) fun _ _ => h
  obtain ⟨schema, groups⟩ := checked
  have hc := table_schema_spec hchecked
  simp only [wp_bind]
  have hcreated : ∀ cat, (CatalogCall.create_table schema).edited s.catalog.toCatalog = some cat → cat.Ordered := by
    intro cat he
    refine h.create_table he (fun fk hfk => ?_) fun fk hfk => ?_
    · obtain ⟨clause, -, parent, hr⟩ := hc.foreign_keys fk hfk
      rw [hr.ref_table, hr.parent]
      rfl
    · obtain ⟨clause, -, parent, hr⟩ := hc.foreign_keys fk hfk
      exact hr.aligned
  refine wp_post (wp_on_catalog_kept (.create_table schema) h hcreated) fun _ s₁ h₁ => wp_new_tree fun root trees => ?_
  refine wp_post (wp_on_catalog_ordered (.update_table_root stmt.table_name root) trivial h₁) fun _ s₂ h₂ => ?_
  refine wp_post (wp_forM (I := fun _ (s : ExecState) => s.catalog.Ordered) (fun _ _ _ hs => create_index_tree_ordered _ hs) _ _ h₂) fun _ s₃ h₃ => ?_
  exact wp_forM (I := fun _ (s : ExecState) => s.catalog.Ordered) (fun _ _ _ hs => create_index_tree_ordered _ hs) _ _ h₃

/-- **DROP TABLE** is refused while a foreign key is to the table. -/
theorem execute_drop_table_ordered (table_name : Bytes) (h : s.catalog.Ordered) :
    wp (execute_drop_table table_name) (fun _ s' => s'.catalog.Ordered) (fun _ s' => s'.catalog.Ordered) s := by
  unfold execute_drop_table
  rw [wp_bind, wp_get]
  dsimp only
  by_cases hfree : (s.catalog.tables.lookup table_name).isNone = true
  · rw [if_pos hfree]
    exact h
  · rw [if_neg hfree]
    cases hrefs : s.catalog.get_foreign_keys_referencing table_name with
    | cons ref refs => exact h
    | nil =>
      refine wp_on_catalog_kept (.drop_table table_name) h fun cat he => ?_
      have hn := CatalogCall.named_edited h.named he
      obtain ⟨-, he⟩ := Option.ite_none_left_eq_some.1 he
      obtain rfl := Option.some.inj he
      have hlookup : ∀ {name t}, (s.catalog.tables.erase table_name).lookup name = some t → s.catalog.tables.lookup name = some t := by
        intro name t hl
        by_cases hname : name = table_name
        · rw [hname, AList.lookup_erase] at hl
          cases hl
        · rwa [AList.lookup_erase_ne hname] at hl
      refine h.from hn (fun name t hl => ⟨t, hlookup hl, rfl⟩) fun name t hl fk hfk hs => ?_
      have hne := Catalog.get_foreign_keys_referencing_nil hrefs (hlookup hl) hfk
      rw [show (s.catalog.tables.erase table_name).lookup fk.ref_table = _ from AList.lookup_erase_ne hne]
      exact hs

theorem execute_create_index_ordered (stmt : CreateIndexStmt) (h : s.catalog.Ordered) :
    wp (execute_create_index stmt) (fun _ s' => s'.catalog.Ordered) (fun _ s' => s'.catalog.Ordered) s := by
  unfold execute_create_index
  rw [wp_bind, wp_get]
  cases s.catalog.tables.lookup stmt.table_name with
  | none => exact h
  | some schema =>
    dsimp only
    by_cases hcols : stmt.column_names = []
    · rw [if_pos hcols]
      exact h
    · rw [if_neg hcols]
      cases stmt.column_names.find? fun name => (schema.column_index name).isNone with
      | some name => exact h
      | none =>
        simp only [wp_bind]
        refine wp_on_trees (fun scanned trees => ?_) fun _ _ => h
        split
        · exact h
        · simp only [wp_bind]
          refine wp_post (wp_on_catalog_ordered (.create_index ⟨stmt.index_name, stmt.table_name, stmt.column_names, _, stmt.is_unique⟩) trivial h) fun _ s₁ h₁ => wp_new_tree fun root trees => wp_on_trees (fun filled trees => ?_) fun _ _ => h₁
          exact wp_on_catalog_ordered (.update_index_root stmt.index_name _) trivial h₁

theorem execute_drop_index_ordered (index_name : Bytes) (h : s.catalog.Ordered) :
    wp (execute_drop_index index_name) (fun _ s' => s'.catalog.Ordered) (fun _ s' => s'.catalog.Ordered) s := by
  unfold execute_drop_index
  rw [wp_bind, wp_get]
  split
  · exact h
  · exact wp_on_catalog_ordered (.drop_index index_name) trivial h

/-- One case for each step. -/
theorem CatalogStep.run_ordered (step : CatalogStep Q) (h : s.catalog.Ordered) :
    wp step.run (fun _ s' => s'.catalog.Ordered) (fun _ s' => s'.catalog.Ordered) s := by
  cases step with
  | ddl stmt =>
    cases stmt with
    | create_table stmt => exact execute_create_table_ordered h
    | drop_table table_name => exact execute_drop_table_ordered table_name h
    | create_index stmt => exact execute_create_index_ordered stmt h
    | drop_index index_name => exact execute_drop_index_ordered index_name h
  | table_root table_name root => exact wp_on_catalog_ordered (.update_table_root table_name root) trivial h
  | index_root index_name root => exact wp_on_catalog_ordered (.update_index_root index_name root) trivial h

/-- **Every reachable catalog has ranks.** -/
theorem ExecState.Reachable.ordered (h : ExecState.Reachable Q s) : s.catalog.Ordered := by
  induction h with
  | new trees =>
    refine ⟨CatalogManager.Reachable.named .new, ⟨fun _ => 0, 1, ?_, ?_⟩, ?_, ?_⟩
    all_goals
      intro name schema hl
      cases hl
  | @returned step s s' _ hrun ih =>
    have hkept := wp_ok (step.run_ordered ih) hrun
    exact hkept
  | @threw step s s' e _ hrun ih =>
    have hkept := wp_error (step.run_ordered ih) hrun
    exact hkept
  | rows trees _ ih => exact ih

/-! ### The recursion -/

section ends

variable {α β : Type}

/-- The errors that only the recursion throws. -/
def DdlErr.recursion : DdlErr → Bool
  | .too_deep => true
  | .restricted _ _ => true
  | _ => false

theorem DdlErr.ne_too_deep {e : DdlErr} (h : e.recursion = false) : e ≠ .too_deep := by
  rintro rfl
  cases h

/-- Leaves the catalog alone, and does not recurse. -/
def Tame (m : DdlM α) : Prop := ∀ s, wp m (fun e _ => e.recursion = false) (fun _ s' => s'.catalog = s.catalog) s

theorem Tame.bind {m : DdlM β} {f : β → DdlM α} (hm : Tame m) (hf : ∀ b, Tame (f b)) : Tame (m >>= f) := by
  intro s
  rw [wp_bind]
  refine wp_post (hm s) fun b s₁ h₁ => wp_post (hf b s₁) fun a s₂ h₂ => ?_
  exact h₂.trans h₁

theorem tame_pure (a : α) : Tame (pure a : DdlM α) := fun _ => rfl

theorem tame_throw {e : DdlErr} (h : e.recursion = false) : Tame (throw e : DdlM α) := fun _ => h

theorem tame_liftE {x : Except TableErr α} : Tame (liftE (x.mapError DdlErr.table) : DdlM α) := by
  intro s
  cases x with
  | ok a => exact rfl
  | error e => exact rfl

theorem tame_on_trees {root_page : UInt32} {index_root_page : Bytes → UInt32} {m : TableM α} : Tame (on_trees root_page index_root_page m) :=
  fun _ => wp_on_trees (fun _ _ => rfl) fun _ _ => rfl

theorem wp_get_table {table_name : Bytes} {E : DdlErr → ExecState → Prop} {P : TableSchema → ExecState → Prop}
    (hQ : ∀ schema, s.catalog.tables.lookup table_name = some schema → P schema s) (hE : E (.catalog (.no_table table_name)) s) :
    wp (get_table table_name) E P s := by
  unfold get_table
  rw [wp_bind, wp_get]
  cases hl : s.catalog.tables.lookup table_name with
  | none => exact hE
  | some schema => exact hQ schema hl

theorem tame_get_table (table_name : Bytes) : Tame (get_table table_name) :=
  fun _ => wp_get_table (fun _ _ => rfl) rfl

theorem tame_get_index (index_name : Bytes) : Tame (get_index index_name) := by
  intro s
  unfold get_index
  rw [wp_bind, wp_get]
  cases s.catalog.indexes.lookup index_name with
  | none => exact rfl
  | some index => exact rfl

theorem tame_open_tree (t : TreeName) (root_page : UInt32) : Tame (open_tree t root_page) := by
  intro s
  unfold open_tree
  split
  · exact wp_new_tree fun _ _ => rfl
  · exact rfl

theorem tame_open_indexes : ∀ owned : List IndexSchema, Tame (open_indexes owned)
  | [] => tame_pure _
  | _ :: owned => (tame_open_tree _ _).bind fun _ => (tame_open_indexes owned).bind fun _ => tame_pure _

theorem tame_on_table (schema : TableSchema) (owned : List IndexSchema) (m : Table → TableM α) : Tame (on_table schema owned m) :=
  (tame_open_indexes owned).bind fun _ => (tame_open_tree _ _).bind fun _ => tame_liftE.bind fun _ => tame_on_trees.bind fun _ => tame_pure _

theorem tame_index_find (index : IndexSchema) (indexed_value : Key) : Tame (index_find index indexed_value) := by
  refine (tame_open_tree _ _).bind fun root => ?_
  split
  · exact tame_pure _
  · split
    · exact tame_throw rfl
    · exact tame_on_trees.bind fun _ => tame_pure _

variable {ref_row : Row}

/-- What is found is through the constraint, and not empty. -/
theorem find_children_from (child_table : Bytes) (fk : ForeignKeyConstraint) (s : ExecState) :
    wp (find_children ref_row child_table fk) (fun e _ => e.recursion = false)
      (fun children s' => s'.catalog = s.catalog ∧ ∀ child ∈ children, (child.child_table, child.constraint) = (child_table, fk) ∧
        child.child_primary_keys ≠ []) s := by
  unfold find_children
  rw [wp_bind]
  refine wp_post (tame_liftE s) fun found s₁ h₁ => ?_
  cases found with
  | none => exact ⟨h₁, fun _ h => absurd h List.not_mem_nil⟩
  | some parent_values =>
    simp only [wp_bind]
    refine wp_post (tame_get_index _ s₁) fun _ s₂ h₂ => wp_post (tame_get_table _ s₂) fun _ s₃ h₃ => ?_
    refine wp_post (tame_index_find _ _ s₃) fun pks s₄ h₄ => ⟨h₄.trans (h₃.trans (h₂.trans h₁)), fun child hchild => ?_⟩
    split at hchild
    · exact absurd hchild List.not_mem_nil
    · rename_i hempty
      obtain rfl := List.mem_singleton.1 hchild
      exact ⟨rfl, fun hnil => hempty (List.isEmpty_iff.2 hnil)⟩

theorem find_referencing_children_from : ∀ (refs : List (Bytes × ForeignKeyConstraint)) (s : ExecState),
    wp (find_referencing_children ref_row refs) (fun e _ => e.recursion = false)
      (fun children s' => s'.catalog = s.catalog ∧ ∀ child ∈ children, (child.child_table, child.constraint) ∈ refs ∧
        child.child_primary_keys ≠ []) s
  | [], s => ⟨rfl, fun _ h => absurd h List.not_mem_nil⟩
  | (child_table, fk) :: refs, s => by
    unfold find_referencing_children
    simp only [wp_bind]
    refine wp_post (find_children_from child_table fk s) fun children s₁ h₁ => ?_
    refine wp_post (find_referencing_children_from refs s₁) fun result s₂ h₂ => ⟨h₂.1.trans h₁.1, fun child hchild => ?_⟩
    rcases List.mem_append.1 hchild with h | h
    · obtain ⟨hof, hne⟩ := h₁.2 child h
      exact ⟨by rw [hof]; exact List.mem_cons_self, hne⟩
    · obtain ⟨hmem, hne⟩ := h₂.2 child h
      exact ⟨List.mem_cons_of_mem _ hmem, hne⟩

end ends

theorem Catalog.mem_get_foreign_keys_referencing (hn : cat.Named) {table_name child_table : Bytes} {fk : ForeignKeyConstraint} :
    (child_table, fk) ∈ cat.get_foreign_keys_referencing table_name ↔
      (∃ schema, cat.tables.lookup child_table = some schema ∧ fk ∈ schema.foreign_keys) ∧ fk.ref_table = table_name := by
  unfold get_foreign_keys_referencing
  simp only [List.mem_flatMap, List.mem_map, List.mem_filter, decide_eq_true_eq]
  constructor
  · rintro ⟨schema, ⟨⟨name, t⟩, hmem, rfl⟩, fk', ⟨hfk, href⟩, heq⟩
    obtain ⟨hname, rfl⟩ := Prod.mk.inj heq
    have hl := AList.mem_lookup_iff.2 hmem
    have hkey : t.name = name := hn.tables _ _ hl
    refine ⟨⟨t, ?_, hfk⟩, href⟩
    rw [← hname, hkey]
    exact hl
  · rintro ⟨⟨schema, hl, hfk⟩, href⟩
    have hname : schema.name = child_table := hn.tables _ _ hl
    exact ⟨schema, ⟨_, AList.mem_lookup_iff.1 hl, rfl⟩, fk, ⟨hfk, href⟩, by rw [hname]⟩

/-- What the recursion keeps. -/
structure RanksKept (rank : Bytes → ℕ) (bound : ℕ) (s : ExecState) : Prop where
  named : s.catalog.Named
  ranked : s.catalog.Ranked rank bound

theorem wp_on_catalog_ranks {rank : Bytes → ℕ} {bound : ℕ} (call : CatalogCall) (hk : call.KeepsTables) (h : RanksKept rank bound s) :
    wp (on_catalog call.body) (fun e _ => e.recursion = false) (fun _ s' => RanksKept rank bound s') s := by
  refine wp_on_catalog call (fun cat page he _ => ?_) (fun _ => rfl) fun _ _ _ => rfl
  exact ⟨CatalogCall.named_edited (s := ⟨s.catalog.toCatalog, []⟩) h.named he, h.ranked.from (CatalogCall.tables_kept hk he).1⟩

theorem persist_roots_ranks {rank : Bytes → ℕ} {bound : ℕ} (tbl : Table) (obj : TableState) (h : RanksKept rank bound s) :
    wp (persist_roots schema tbl obj) (fun e _ => e.recursion = false) (fun _ s' => RanksKept rank bound s') s := by
  have hindexes : ∀ {s}, RanksKept rank bound s → wp (tbl.indexes.forM fun idx => on_catalog (CatalogManager.update_index_root idx.schema.name
      (obj.index_root_page idx.schema.name))) (fun e _ => e.recursion = false) (fun _ s' => RanksKept rank bound s') s := fun hs =>
    wp_forM (I := fun _ s => RanksKept rank bound s) (fun idx _ _ h => wp_on_catalog_ranks (.update_index_root idx.schema.name _) trivial h) _ _ hs
  unfold persist_roots
  dsimp only
  split
  · rw [wp_bind]
    refine wp_post (wp_on_catalog_ranks (.update_table_root schema.name _) trivial h) fun _ s₁ h₁ => ?_
    exact hindexes h₁
  · exact hindexes h

/-- **The tables on the way up have larger ranks**, so the fuel that is left is enough for them. -/
theorem delete_row_cascading_ranks {rank : Bytes → ℕ} {bound : ℕ} : ∀ (fuel : ℕ) (table_name : Bytes) (key : Key) (s : ExecState),
    RanksKept rank bound s → bound - rank table_name < fuel →
    wp (delete_row_cascading fuel table_name key) (fun e _ => e ≠ .too_deep) (fun _ s' => RanksKept rank bound s') s
  | 0, _, _, _, _, hfuel => absurd hfuel (Nat.not_lt_zero _)
  | fuel + 1, table_name, key, s, h, hfuel => by
    unfold delete_row_cascading
    rw [wp_bind]
    refine wp_get_table (fun schema hl => ?_) fun h => by cases h
    rw [wp_bind]
    refine wp_mono (tame_on_table _ _ _ s) (fun read s₁ h₁ => ?_) fun _ _ => DdlErr.ne_too_deep
    obtain ⟨row, -⟩ := read
    cases row with
    | none => exact ⟨h₁ ▸ h.named, h₁ ▸ h.ranked⟩
    | some row =>
      rw [wp_bind, wp_get, wp_bind, h₁]
      refine wp_mono (find_referencing_children_from _ s₁) (fun children s₂ h₂ => ?_) fun _ _ => DdlErr.ne_too_deep
      obtain ⟨hcat, hfrom⟩ := h₂
      rw [wp_bind]
      have hkept : RanksKept rank bound s₂ := by
        constructor
        · rw [hcat, h₁]
          exact h.named
        · rw [hcat, h₁]
          exact h.ranked
      refine wp_post (Q := fun _ s' => RanksKept rank bound s') ?_ fun _ s₃ h₃ => ?_
      · -- a child table has a rank between that of its parent and the bound
        have hless : ∀ child ∈ children, bound - rank child.child_table < fuel := by
          intro child hchild
          obtain ⟨⟨child_schema, hcl, hfk⟩, href⟩ := (Catalog.mem_get_foreign_keys_referencing h.named).1 (hfrom child hchild).1
          have hlt := h.ranked.lt _ _ hcl _ hfk
          have hbound := h.ranked.bound _ _ hcl
          have hname : schema.name = table_name := h.named.tables _ _ hl
          rw [href, hname] at hlt
          omega
        refine wp_mono (wp_forM (I := fun todo s => (∀ child ∈ todo, bound - rank child.child_table < fuel) ∧ RanksKept rank bound s)
          (fun child todo s hs => ?_) children s₂ ⟨hless, hkept⟩) (fun _ _ h => h.2) fun _ _ h => h
        cases child.constraint.on_delete with
        | RESTRICT => exact fun h => by cases h
        | CASCADE =>
          refine wp_post (wp_forM (I := fun _ s => RanksKept rank bound s) (fun pk _ s' hs' => ?_) _ s hs.2) fun _ s' hs' =>
            ⟨fun child hchild => hs.1 child (List.mem_cons_of_mem _ hchild), hs'⟩
          rw [wp_bind]
          exact wp_post (delete_row_cascading_ranks fuel child.child_table pk s' hs' (hs.1 child List.mem_cons_self)) fun _ _ h => h
      · rw [wp_bind]
        refine wp_mono (tame_get_table table_name s₃) (fun schema s₄ h₄ => ?_) fun _ _ => DdlErr.ne_too_deep
        rw [wp_bind, wp_get, wp_bind]
        refine wp_mono (tame_on_table _ _ _ s₄) (fun written s₅ h₅ => ?_) fun _ _ => DdlErr.ne_too_deep
        obtain ⟨-, tbl, obj⟩ := written
        rw [wp_bind]
        have hcat₅ := h₅.trans h₄
        refine wp_mono (persist_roots_ranks tbl obj ⟨hcat₅ ▸ h₃.named, hcat₅ ▸ h₃.ranked⟩) (fun _ s₆ h₆ => ?_) fun _ _ =>
          DdlErr.ne_too_deep
        exact h₆

/-- More fuel changes nothing but that the recursion is cut off. -/
theorem delete_row_cascading_below : ∀ (fuel : ℕ) (table_name : Bytes) (key : Key),
    Below .too_deep (delete_row_cascading fuel table_name key) (delete_row_cascading (fuel + 1) table_name key)
  | 0, _, _ => fun s h => absurd rfl (h s)
  | fuel + 1, table_name, key => by
    rw [delete_row_cascading, delete_row_cascading]
    refine (Below.refl _).bind fun schema => (Below.refl _).bind fun read => ?_
    obtain ⟨row, -⟩ := read
    cases row with
    | none => exact Below.refl _
    | some row =>
      refine (Below.refl _).bind fun s => (Below.refl _).bind fun children => ?_
      refine (Below.forM (fun child => ?_) children).bind fun _ => Below.refl _
      cases child.constraint.on_delete with
      | RESTRICT => exact Below.refl _
      | CASCADE =>
        exact Below.forM (fun pk => (delete_row_cascading_below fuel child.child_table pk).bind fun _ => Below.refl _) _

/-- **The deletion ends**, in one way, however much fuel there is beyond what is enough. -/
theorem delete_row_cascading_ends (h : s.catalog.Ordered) (table_name : Bytes) (key : Key) :
    ∃ n, Ends .too_deep (delete_row_cascading n table_name key) s ∧
      ∀ fuel ≥ n, delete_row_cascading fuel table_name key s = delete_row_cascading n table_name key s := by
  obtain ⟨rank, bound, hr⟩ := h.ranked
  have hends : Ends .too_deep (delete_row_cascading (bound + 1) table_name key) s :=
    ends_of_wp (delete_row_cascading_ranks (bound + 1) table_name key s ⟨h.named, hr⟩ (by omega)) fun _ hne => hne rfl
  exact ⟨bound + 1, hends, fun fuel hfuel => Below.le (fun n => delete_row_cascading_below n table_name key) hfuel s hends⟩

end GSDBEngine