import GSDBEngine.Proof.Reroot

/-!
# What a cascading deletion deletes

Each call first finds the rows that reference its row, and has each of them deleted, whichever other
call deletes it, before its own.

* `Removed`: rows that lead to one row along CASCADE constraints are gone, and no row that is left references them.
* `delete_row_cascading_spec`: **what a call leaves.**
* `delete_row_cascading_correct`: **acyclic, ends, and deletes what it should**, on every reachable catalog.
-/

namespace GSDBEngine

open Eff

variable {s s' : ExecState} {cat cat' : Catalog} {C C₁ C₂ : AllContents} {last last₁ : TableRow}

/-! ### Deleted rows -/

/-- **Rows that lead to `last` are gone**, and none that is left references one of them. -/
structure Removed (cat : Catalog) (C C' : AllContents) (last : TableRow) : Prop where
  subset : ∀ t, C' t ⊆ C t
  chain : ∀ t, ∀ e ∈ C t, e ∉ C' t → Relation.ReflTransGen (cat.Cascades C) (t, e) last
  closed : ¬ cat.Dangles C C'

theorem Catalog.Cascades.mono (hs : ∀ t, C₁ t ⊆ C t) {child parent : TableRow} (h : cat.Cascades C₁ child parent) :
    cat.Cascades C child parent :=
  ⟨hs _ h.1, hs _ h.2.1, h.2.2⟩

namespace Removed

theorem refl (cat : Catalog) (C : AllContents) (last : TableRow) : Removed cat C C last where
  subset _ := subset_rfl
  chain _ _ he hne := absurd he hne
  closed := by
    rintro ⟨_, _, _, -, -, hmem, hnot⟩
    exact hnot hmem

/-- What a row that leads to `last` takes with it leads to `last`. -/
theorem trans (h : Removed cat C C₁ last) (h₁ : Removed cat C₁ C₂ last₁) (hchain : Relation.ReflTransGen (cat.Cascades C) last₁ last) :
    Removed cat C C₂ last where
  subset t := (h₁.subset t).trans (h.subset t)
  chain t e he hne := by
    by_cases he₁ : e ∈ C₁ t
    · have hpath := h₁.chain t e he₁ hne
      have hpath' := Relation.ReflTransGen.mono (fun _ _ hstep => Catalog.Cascades.mono h.subset hstep) _ _ hpath
      exact hpath'.trans hchain
    · exact h.chain t e he he₁
  closed := by
    rintro ⟨child, parent, fk, hrefers, hchild, hparent, hnot⟩
    by_cases hp₁ : parent.2 ∈ C₁ parent.1
    · exact h₁.closed ⟨child, parent, fk, hrefers, hchild, hp₁, hnot⟩
    · exact h.closed ⟨child, parent, fk, hrefers, h₁.subset _ hchild, hparent, hp₁⟩

/-- The row itself, once nothing references it. -/
theorem itself {t : Bytes} {e : Key × Row} (h : Removed cat C C₁ (t, e))
    (hnone : ∀ child fk, cat.RowRefers child (t, e) fk → child.2 ∉ C₁ child.1) :
    Removed cat C (Function.update C₁ t (C₁ t \ {e})) (t, e) := by
  have hmem : ∀ {t' e'}, e' ∈ Function.update C₁ t (C₁ t \ {e}) t' ↔ e' ∈ C₁ t' ∧ (t', e') ≠ (t, e) := by
    intro t' e'
    by_cases ht : t' = t
    · subst ht
      rw [Function.update_self]
      exact and_congr_right fun _ => not_congr ⟨fun heq => congrArg (Prod.mk t') heq, fun heq => (Prod.mk.inj heq).2⟩
    · rw [Function.update_of_ne ht]
      refine ⟨fun he' => ⟨he', fun heq => ht (Prod.mk.inj heq).1⟩, fun he' => he'.1⟩
  refine ⟨fun t' e' he' => h.subset t' (hmem.1 he').1, fun t' e' he' hne => ?_, ?_⟩
  · by_cases heq : (t', e') = (t, e)
    · rw [heq]
    · exact h.chain t' e' he' fun he₁ => hne (hmem.2 ⟨he₁, heq⟩)
  · rintro ⟨child, parent, fk, hrefers, hchild, hparent, hnot⟩
    have hchild₁ := (hmem.1 hchild).1
    by_cases hp₁ : parent.2 ∈ C₁ parent.1
    · by_cases heq : parent = (t, e)
      · subst heq
        exact hnone child fk hrefers hchild₁
      · exact hnot (hmem.2 ⟨hp₁, heq⟩)
    · exact h.closed ⟨child, parent, fk, hrefers, hchild₁, hparent, hp₁⟩

theorem reroot (hc : cat.Rerooted cat') {C' : AllContents} (h : Removed cat' C C' last) : Removed cat C C' last := by
  have hcascades : cat'.Cascades = cat.Cascades := by
    unfold Catalog.Cascades
    rw [hc.rowRefers]
  have hdangles : cat'.Dangles = cat.Dangles := by
    unfold Catalog.Dangles
    rw [hc.rowRefers]
  exact ⟨h.subset, fun t e he hne => hcascades ▸ h.chain t e he hne, hdangles ▸ h.closed⟩

end Removed

/-! ### The rows that reference a row -/

/-- Every constraint finds its rows. -/
theorem find_referencing_children_spec {ref_row : Row} (h : s.Represents C) (ho : s.catalog.Ordered) (hrow : ∀ v ∈ ref_row, v.isNaN = false) :
    ∀ refs : List (Bytes × ForeignKeyConstraint),
      (∀ ref ∈ refs, ∃ schema, s.catalog.tables.lookup ref.1 = some schema ∧ ref.2 ∈ schema.foreign_keys) →
      wp (find_referencing_children ref_row refs) (fun _ _ => True)
        (fun children s' => s' = s ∧ (∀ child ∈ children, (child.child_table, child.constraint) ∈ refs ∧
            ∀ pk ∈ child.child_primary_keys, ∃ e ∈ C child.child_table, child.constraint.References e.2 ref_row ∧ e.1 = pk) ∧
          ∀ ref ∈ refs, ∀ e ∈ C ref.1, ref.2.References e.2 ref_row →
            ∃ child ∈ children, child.child_table = ref.1 ∧ e.1 ∈ child.child_primary_keys) s
  | [], _ => ⟨rfl, fun _ h => absurd h List.not_mem_nil, fun _ h => absurd h List.not_mem_nil⟩
  | (child_table, fk) :: refs, hrefs => by
    obtain ⟨schema, hl, hfk⟩ := hrefs _ List.mem_cons_self
    have ih := find_referencing_children_spec h ho hrow refs fun ref hmem => hrefs ref (List.mem_cons_of_mem _ hmem)
    unfold find_referencing_children
    simp only [wp_bind]
    refine wp_post (find_children_spec h ho.named hl hfk (ho.aligned _ schema hl fk hfk) hrow) fun children s₁ h₁ => ?_
    obtain ⟨rfl, hof, hfound⟩ := h₁
    refine wp_post ih fun result s₂ h₂ => ?_
    obtain ⟨rfl, hsound, hcomplete⟩ := h₂
    refine ⟨rfl, fun child hchild => ?_, fun ref href e he hr => ?_⟩
    · rcases List.mem_append.1 hchild with hchild | hchild
      · obtain ⟨htable, hconstraint⟩ := hof child hchild
        refine ⟨by rw [htable, hconstraint]; exact List.mem_cons_self, fun pk hpk => ?_⟩
        obtain ⟨e, he, hr, hkey⟩ := (hfound pk).1 ⟨child, hchild, hpk⟩
        exact ⟨e, htable ▸ he, hconstraint ▸ hr, hkey⟩
      · exact ⟨List.mem_cons_of_mem _ (hsound child hchild).1, (hsound child hchild).2⟩
    · rcases List.mem_cons.1 href with rfl | href
      · obtain ⟨child, hchild, hpk⟩ := (hfound e.1).2 ⟨e, he, hr, rfl⟩
        exact ⟨child, List.mem_append_left _ hchild, (hof child hchild).1, hpk⟩
      · obtain ⟨child, hchild, htable, hpk⟩ := hcomplete ref href e he hr
        exact ⟨child, List.mem_append_right _ hchild, htable, hpk⟩

/-! ### The recursion -/

/-- No row has the key. -/
def Gone (C : AllContents) (table_name : Bytes) (key : Key) : Prop := ∀ e ∈ C table_name, e.1.rank ≠ key.rank

theorem Gone.mono {table_name : Bytes} {key : Key} (h : Gone C table_name key) (hs : ∀ t, C₁ t ⊆ C t) : Gone C₁ table_name key :=
  fun e he => h e (hs _ he)

/-- **What a call leaves**: none of its key, and the rows that went with it, or what there was. -/
def Left (s : ExecState) (C : AllContents) (table_name : Bytes) (key : Key) (found : Bool) (s' : ExecState) : Prop :=
  s.catalog.Rerooted s'.catalog.toCatalog ∧ ∃ C', s'.Represents C' ∧ Gone C' table_name key ∧
    if found then ∃ e ∈ C table_name, e.1.rank = key.rank ∧ Removed s.catalog.toCatalog C C' (table_name, e) else C' = C

/-- On the way to `last`, of which the rows of `C'` are left. -/
structure Deleting (s : ExecState) (C : AllContents) (last : TableRow) (s' : ExecState) (C' : AllContents) : Prop where
  catalog : s.catalog.Rerooted s'.catalog.toCatalog
  rows : s'.Represents C'
  removed : Removed s.catalog.toCatalog C C' last

/-- A call for a row that leads to `last`. -/
theorem Left.deleting {s₁ s₂ : ExecState} {child_table : Bytes} {e : Key × Row} {found : Bool} (hleft : Left s₁ C₁ child_table e.1 found s₂)
    (h : Deleting s C last s₁ C₁) (ho : s.catalog.Ordered) (hrep : s.Represents C) (hcascades : s.catalog.Cascades C (child_table, e) last) :
    ∃ C₂, Deleting s C last s₂ C₂ ∧ (∀ t, C₂ t ⊆ C₁ t) ∧ Gone C₂ child_table e.1 := by
  obtain ⟨hre, C₂, hrows, hgone, hleft⟩ := hleft
  cases found with
  | false =>
    obtain rfl : C₂ = C₁ := hleft
    exact ⟨C₂, ⟨h.catalog.trans hre, hrows, h.removed⟩, fun _ => subset_rfl, hgone⟩
  | true =>
    obtain ⟨e₁, he₁, hr, hremoved⟩ := hleft
    have hremoved := hremoved.reroot h.catalog
    -- the row that was found under the key is the one that references
    obtain ⟨he, -, fk, ⟨⟨schema, hl, -⟩, -⟩, -⟩ := id hcascades
    obtain ⟨-, -, hsound⟩ := hrep.binds ho.named hl
    obtain rfl : e₁ = e := hsound.one e₁ (h.removed.subset _ he₁) e he hr
    exact ⟨C₂, ⟨h.catalog.trans hre, hrows, h.removed.trans hremoved (.single hcascades)⟩, hremoved.subset, hgone⟩

/-- Thrown at a RESTRICT constraint, with some of the rows left. -/
def Kept (s : ExecState) (C : AllContents) (err : DdlErr) (s' : ExecState) : Prop :=
  ∀ a b, err = .restricted a b → s.catalog.Rerooted s'.catalog.toCatalog ∧ ∃ C', s'.Represents C' ∧ ∀ t, C' t ⊆ C t

/-- **The same, with all of the rows** if the way to the first row ends there, and otherwise without one of them. -/
def Stopped (s : ExecState) (C : AllContents) (table_name : Bytes) (key : Key) (err : DdlErr) (s' : ExecState) : Prop :=
  ∀ a b, err = .restricted a b → s.catalog.Rerooted s'.catalog.toCatalog ∧ ∃ C', s'.Represents C' ∧ (∀ t, C' t ⊆ C t) ∧
    (s.RestrictFirst C table_name key → C' = C) ∧
    (¬ s.RestrictFirst C table_name key → ∃ t schema, s.catalog.tables.lookup t = some schema ∧ ∃ e ∈ C t, e ∉ C' t)

theorem Kept.mono {s₁ : ExecState} {err : DdlErr} (h : Kept s₁ C₁ err s') (hc : s.catalog.Rerooted s₁.catalog.toCatalog)
    (hs : ∀ t, C₁ t ⊆ C t) : Kept s C err s' := by
  intro a b he
  obtain ⟨hre, C', hrep', hsub⟩ := h a b he
  exact ⟨hc.trans hre, C', hrep', fun t => (hsub t).trans (hs t)⟩

theorem Stopped.kept {table_name : Bytes} {key : Key} {err : DdlErr} (h : Stopped s C table_name key err s') : Kept s C err s' := by
  intro a b he
  obtain ⟨hre, C', hrep', hsub, -⟩ := h a b he
  exact ⟨hre, C', hrep', hsub⟩

theorem stopped_of_recursion {table_name : Bytes} {key : Key} {err : DdlErr} (h : err.recursion = false) :
    Stopped s C table_name key err s' := by
  rintro a b rfl
  cases h

/-- Once a row is gone. -/
theorem Kept.stopped {table_name child_table : Bytes} {key : Key} {err : DdlErr} {schema : TableSchema} {e : Key × Row}
    (h : Kept s C₁ err s') (hs : ∀ t, C₁ t ⊆ C t) (hl : s.catalog.tables.lookup child_table = some schema) (he : e ∈ C child_table)
    (hgone : e ∉ C₁ child_table) (hfirst : ¬ s.RestrictFirst C table_name key) : Stopped s C table_name key err s' := by
  intro a b herr
  obtain ⟨hre, C', hrep', hsub⟩ := h a b herr
  exact ⟨hre, C', hrep', fun t => (hsub t).trans (hs t), fun hf => absurd hf hfirst, fun _ =>
    ⟨child_table, schema, hl, e, he, fun he' => hgone (hsub _ he')⟩⟩

/-- What a call does, however it ends. -/
def CallSpec (fuel : ℕ) : Prop := ∀ table_name key s C, s.catalog.Ordered → s.Represents C →
  wp (delete_row_cascading fuel table_name key) (Stopped s C table_name key)
    (fun found s' => Left s C table_name key found s' ∧ ¬ s.RestrictFirst C table_name key) s

section loops

variable {fuel : ℕ} (hcall : CallSpec fuel)

include hcall

/-- The rows of one table, each with what references it. -/
theorem delete_keys_spec (ho : s.catalog.Ordered) (hrep : s.Represents C) {child_table : Bytes} :
    ∀ (pks : List Key) {s₁ : ExecState} {C₁ : AllContents}, Deleting s C last s₁ C₁ →
      (∀ pk ∈ pks, ∃ e, e.1 = pk ∧ s.catalog.Cascades C (child_table, e) last) →
      wp (pks.forM fun pk => do
          let _ ← delete_row_cascading fuel child_table pk) (Kept s C₁)
        (fun _ s₂ => ∃ C₂, Deleting s C last s₂ C₂ ∧ (∀ t, C₂ t ⊆ C₁ t) ∧ ∀ pk ∈ pks, Gone C₂ child_table pk) s₁
  | [], s₁, C₁, h, _ => ⟨C₁, h, fun _ => subset_rfl, fun _ hpk => absurd hpk List.not_mem_nil⟩
  | pk :: pks, s₁, C₁, h, hpks => by
    obtain ⟨e, rfl, hcascades⟩ := hpks pk List.mem_cons_self
    have hrest : ∀ pk ∈ pks, ∃ e, e.1 = pk ∧ s.catalog.Cascades C (child_table, e) last := fun pk hpk => hpks pk (List.mem_cons_of_mem _ hpk)
    show wp (_ >>= fun _ => pks.forM _) _ _ s₁
    rw [wp_bind, wp_bind]
    refine wp_mono (hcall child_table e.1 s₁ C₁ (h.catalog.ordered ho) h.rows) (fun found s₂ h₂ => ?_) fun _ _ herr =>
      herr.kept.mono h.catalog fun _ => subset_rfl
    obtain ⟨C₂, hdeleting, hsub, hgone⟩ := h₂.1.deleting h ho hrep hcascades
    rw [wp_pure]
    refine wp_mono (delete_keys_spec ho hrep pks hdeleting hrest) (fun _ s₃ h₃ => ?_) fun _ _ herr => herr.mono (.refl ho.named) hsub
    obtain ⟨C₃, hdeleting₃, hsub₃, hgone₃⟩ := h₃
    refine ⟨C₃, hdeleting₃, fun t => (hsub₃ t).trans (hsub t), fun pk' hpk' => ?_⟩
    rcases List.mem_cons.1 hpk' with rfl | hpk'
    · exact hgone.mono hsub₃
    · exact hgone₃ pk' hpk'

/-- One constraint after the other. -/
theorem delete_children_spec (ho : s.catalog.Ordered) (hrep : s.Represents C) (table_name : Bytes) :
    ∀ (children : List ReferencingChildren) {s₁ : ExecState} {C₁ : AllContents}, Deleting s C last s₁ C₁ →
      (∀ child ∈ children, child.constraint.on_delete = .CASCADE → ∀ pk ∈ child.child_primary_keys,
        ∃ e, e.1 = pk ∧ s.catalog.Cascades C (child.child_table, e) last) →
      wp (children.forM fun child =>
          match child.constraint.on_delete with
          | .RESTRICT => throw (.restricted table_name child.child_table)
          | .CASCADE => child.child_primary_keys.forM fun child_pk => do
            let _ ← delete_row_cascading fuel child.child_table child_pk) (Kept s C₁)
        (fun _ s₂ => ∃ C₂, Deleting s C last s₂ C₂ ∧ (∀ t, C₂ t ⊆ C₁ t) ∧
          ∀ child ∈ children, ∀ pk ∈ child.child_primary_keys, Gone C₂ child.child_table pk) s₁
  | [], s₁, C₁, h, _ => ⟨C₁, h, fun _ => subset_rfl, fun _ hchild => absurd hchild List.not_mem_nil⟩
  | child :: children, s₁, C₁, h, hchildren => by
    show wp (_ >>= fun _ => children.forM _) _ _ s₁
    rw [wp_bind]
    beta_reduce
    cases hon : child.constraint.on_delete with
    | RESTRICT => exact fun _ _ _ => ⟨h.catalog, C₁, h.rows, fun _ => subset_rfl⟩
    | CASCADE =>
      refine wp_post (delete_keys_spec hcall ho hrep _ h (hchildren child List.mem_cons_self hon)) fun _ s₂ h₂ => ?_
      obtain ⟨C₂, hdeleting, hsub, hgone⟩ := h₂
      refine wp_mono (delete_children_spec ho hrep table_name children hdeleting fun child' hchild' =>
        hchildren child' (List.mem_cons_of_mem _ hchild')) (fun _ s₃ h₃ => ?_) fun _ _ herr => herr.mono (.refl ho.named) hsub
      obtain ⟨C₃, hdeleting₃, hsub₃, hgone₃⟩ := h₃
      refine ⟨C₃, hdeleting₃, fun t => (hsub₃ t).trans (hsub t), fun child' hchild' => ?_⟩
      rcases List.mem_cons.1 hchild' with rfl | hchild'
      · exact fun pk hpk => (hgone pk hpk).mono hsub₃
      · exact hgone₃ child' hchild'

/-- **From the first constraint on**: it stops the call, or its first row goes, unless that stops the call. -/
theorem delete_first_spec (ho : s.catalog.Ordered) (hrep : s.Represents C) {table_name : Bytes} {key : Key} {e : Key × Row}
    (he : e ∈ C table_name) (hr : e.1.rank = key.rank) (hone : ∀ e' ∈ C table_name, e'.1.rank = key.rank → e' = e)
    (children : List ReferencingChildren)
    (hfind : find_referencing_children e.2 (s.catalog.get_foreign_keys_referencing table_name) s = .ok children s)
    (hne : ∀ child ∈ children, child.child_primary_keys ≠ [])
    (hchildren : ∀ child ∈ children, child.constraint.on_delete = .CASCADE → ∀ pk ∈ child.child_primary_keys,
      ∃ e', e'.1 = pk ∧ s.catalog.Cascades C (child.child_table, e') (table_name, e)) :
    wp (children.forM fun child =>
        match child.constraint.on_delete with
        | .RESTRICT => throw (.restricted table_name child.child_table)
        | .CASCADE => child.child_primary_keys.forM fun child_pk => do
          let _ ← delete_row_cascading fuel child.child_table child_pk) (Stopped s C table_name key)
      (fun _ s₂ => (∃ C₂, Deleting s C (table_name, e) s₂ C₂ ∧ (∀ t, C₂ t ⊆ C t) ∧
        ∀ child ∈ children, ∀ pk ∈ child.child_primary_keys, Gone C₂ child.child_table pk) ∧ ¬ s.RestrictFirst C table_name key) s := by
  have hstart : Deleting s C (table_name, e) s C := ⟨.refl ho.named, hrep, .refl _ _ _⟩
  -- what is found for the row is what is found
  have hfound : ∀ e' ∈ C table_name, e'.1.rank = key.rank → ∀ {child' children'},
      find_referencing_children e'.2 (s.catalog.get_foreign_keys_referencing table_name) s = .ok (child' :: children') s →
      children = child' :: children' := by
    intro e' he' hr' child' children' hfind'
    obtain rfl := hone e' he' hr'
    rw [hfind] at hfind'
    cases hfind'
    rfl
  cases children with
  | nil =>
    refine ⟨⟨C, hstart, fun _ => subset_rfl, fun _ hchild => absurd hchild List.not_mem_nil⟩, fun hfirst => ?_⟩
    cases hfirst with
    | restrict he' hr' hfind' => cases hfound _ he' hr' hfind'
    | cascade he' hr' hfind' => cases hfound _ he' hr' hfind'
  | cons child children =>
    show wp (_ >>= fun _ => children.forM _) _ _ s
    rw [wp_bind]
    beta_reduce
    cases hon : child.constraint.on_delete with
    | RESTRICT =>
      have hfirst : s.RestrictFirst C table_name key := .restrict he hr hfind hon
      exact fun _ _ _ => ⟨.refl ho.named, C, hrep, fun _ => subset_rfl, fun _ => rfl, fun hnot => absurd hfirst hnot⟩
    | CASCADE =>
      obtain ⟨pk, pks, hkeys⟩ := List.exists_cons_of_ne_nil (hne child List.mem_cons_self)
      have hcascades := hchildren child List.mem_cons_self hon
      rw [hkeys] at hcascades
      obtain ⟨e', rfl, hcascade⟩ := hcascades pk List.mem_cons_self
      have hiff : s.RestrictFirst C table_name key ↔ s.RestrictFirst C child.child_table e'.1 := by
        refine ⟨fun hfirst => ?_, fun hfirst => .cascade he hr hfind hon hkeys hfirst⟩
        cases hfirst with
        | restrict he' hr' hfind' hon' =>
          cases hfound _ he' hr' hfind'
          rw [hon] at hon'
          cases hon'
        | cascade he' hr' hfind' hon' hkeys' hfirst' =>
          cases hfound _ he' hr' hfind'
          rw [hkeys] at hkeys'
          cases hkeys'
          exact hfirst'
      show wp (child.child_primary_keys.forM _) _ _ s
      rw [hkeys]
      show wp (_ >>= fun _ => pks.forM _) _ _ s
      rw [wp_bind, wp_bind]
      refine wp_mono (hcall child.child_table e'.1 s C ho hrep) (fun found s₁ h₁ => ?_) fun err s₁ herr a b hab => ?_
      · obtain ⟨hleft, hnot⟩ := h₁
        have hnot : ¬ s.RestrictFirst C table_name key := fun hfirst => hnot (hiff.1 hfirst)
        obtain ⟨C₁, hdeleting, hsub, hgone⟩ := hleft.deleting hstart ho hrep hcascade
        obtain ⟨he', -, fk, ⟨⟨schema, hl, -⟩, -⟩, -⟩ := id hcascade
        have hstopped : ∀ {err s'}, Kept s C₁ err s' → Stopped s C table_name key err s' := fun hkept =>
          hkept.stopped hsub hl he' (fun hmem => hgone e' hmem rfl) hnot
        rw [wp_pure]
        refine wp_mono (delete_keys_spec hcall ho hrep pks hdeleting fun pk hpk => hcascades pk (List.mem_cons_of_mem _ hpk))
          (fun _ s₂ h₂ => ?_) fun _ _ => hstopped
        obtain ⟨C₂, hdeleting₂, hsub₂, hgone₂⟩ := h₂
        refine wp_mono (delete_children_spec hcall ho hrep table_name children hdeleting₂ fun child' hchild' =>
          hchildren child' (List.mem_cons_of_mem _ hchild')) (fun _ s₃ h₃ => ?_) fun _ _ herr =>
            hstopped (herr.mono (.refl ho.named) hsub₂)
        obtain ⟨C₃, hdeleting₃, hsub₃, hgone₃⟩ := h₃
        refine ⟨⟨C₃, hdeleting₃, fun t => (hsub₃ t).trans ((hsub₂ t).trans (hsub t)), fun child' hchild' => ?_⟩, hnot⟩
        rcases List.mem_cons.1 hchild' with rfl | hchild'
        · intro pk hpk
          rw [hkeys] at hpk
          rcases List.mem_cons.1 hpk with rfl | hpk
          · exact (hgone.mono hsub₂).mono hsub₃
          · exact (hgone₂ pk hpk).mono hsub₃
        · exact hgone₃ child' hchild'
      · have hres := herr a b hab
        rwa [← hiff] at hres

end loops

/-- The statements of `Tame` for the deletion itself. -/
theorem persist_roots_tame (ho : s.catalog.Ordered) (schema : TableSchema) (tbl : Table) (obj : TableState) :
    wp (persist_roots schema tbl obj) (fun e _ => e.recursion = false) (fun _ _ => True) s := by
  obtain ⟨rank, bound, hr⟩ := ho.ranked
  exact wp_post (persist_roots_ranks tbl obj ⟨ho.named, hr⟩) fun _ _ _ => trivial

/-- **One call.** -/
theorem delete_row_cascading_spec : ∀ fuel : ℕ, CallSpec fuel
  | 0, _, _, _, _, _, _ => by
    rintro a b h
    cases h
  | fuel + 1, table_name, key, s, C, ho, hrep => by
    unfold delete_row_cascading
    rw [wp_bind]
    refine wp_get_table (fun schema hl => ?_) (stopped_of_recursion rfl)
    have hname : schema.name = table_name := ho.named.tables _ _ hl
    obtain ⟨-, -, hsound⟩ := hrep.binds ho.named hl
    rw [wp_bind]
    refine wp_mono (wp_and (on_table_select hrep ho.named hl key) (tame_on_table _ _ _ s)) (fun read s₁ h₁ => ?_) fun _ _ herr =>
      stopped_of_recursion herr.2
    obtain ⟨⟨rfl, hnone, hsome⟩, -⟩ := h₁
    obtain ⟨row, _⟩ := read
    cases row with
    | none =>
      refine ⟨⟨.refl ho.named, C, hrep, hnone rfl, rfl⟩, fun hfirst => ?_⟩
      cases hfirst with
      | restrict he hr => exact hnone rfl _ he hr
      | cascade he hr => exact hnone rfl _ he hr
    | some row =>
      obtain ⟨e, he, hr, rfl⟩ := hsome row rfl
      rw [wp_bind, wp_get, wp_bind]
      have hrefs : ∀ ref ∈ s₁.catalog.get_foreign_keys_referencing schema.name,
          ∃ schema, s₁.catalog.tables.lookup ref.1 = some schema ∧ ref.2 ∈ schema.foreign_keys := fun ref href =>
        ((Catalog.mem_get_foreign_keys_referencing ho.named).1 href).1
      refine wp_mono (wp_and (wp_and (find_referencing_children_spec hrep ho (hsound.fits e he).numbers _ hrefs)
        (find_referencing_children_from _ s₁)) (wp_self _ s₁)) (fun children s₂ h₂ => ?_) fun _ _ herr => stopped_of_recursion herr.1.2
      obtain ⟨⟨⟨rfl, hfrom, hall⟩, -, hkeys⟩, hfind⟩ := h₂
      rw [wp_bind]
      have hcascade : ∀ child ∈ children, child.constraint.on_delete = .CASCADE → ∀ pk ∈ child.child_primary_keys,
          ∃ e', e'.1 = pk ∧ s₂.catalog.Cascades C (child.child_table, e') (table_name, e) := by
        intro child hchild hon pk hpk
        obtain ⟨href, hfound⟩ := hfrom child hchild
        obtain ⟨e', he', hreferences, hkey⟩ := hfound pk hpk
        obtain ⟨hschema, htable⟩ := (Catalog.mem_get_foreign_keys_referencing ho.named).1 href
        exact ⟨e', hkey, he', he, child.constraint, ⟨hschema, htable.trans hname, hreferences⟩, hon⟩
      refine wp_post (delete_first_spec (delete_row_cascading_spec fuel) ho hrep he hr
        (fun e' he' hr' => hsound.one e' he' e he (hr'.trans hr.symm)) children (hname ▸ hfind) (fun child hchild => (hkeys child hchild).2)
        hcascade) fun _ s₃ h₃ => ?_
      obtain ⟨⟨C₃, hdeleting, hsub, hgone⟩, hnot⟩ := h₃
      have ho₃ := hdeleting.catalog.ordered ho
      -- whatever references the row was found before, and is gone
      have hfree : ∀ child fk, s₂.catalog.RowRefers child (table_name, e) fk → child.2 ∉ C₃ child.1 := by
        rintro child fk ⟨hschema, htable, hreferences⟩ hmem
        have href : (child.1, fk) ∈ s₂.catalog.get_foreign_keys_referencing schema.name :=
          (Catalog.mem_get_foreign_keys_referencing ho.named).2 ⟨hschema, htable.trans hname.symm⟩
        obtain ⟨c, hc, hctable, hpk⟩ := hall _ href child.2 (hsub _ hmem) hreferences
        exact hgone c hc _ hpk child.2 (hctable ▸ hmem) rfl
      rw [wp_bind]
      refine wp_get_table (fun schema₃ hl₃ => ?_) (stopped_of_recursion rfl)
      rw [wp_bind, wp_get, wp_bind]
      refine wp_mono (wp_and (on_table_delete hdeleting.rows ho₃.named hl₃ key) (tame_on_table _ _ _ s₃)) (fun written s₄ h₄ => ?_)
        fun _ _ herr => stopped_of_recursion herr.2
      obtain ⟨⟨hcat, htbl, hrooted, old, hold, hrold, hrep₄⟩, -⟩ := h₄
      obtain ⟨_, tbl, obj⟩ := written
      obtain rfl : old = e := hsound.one old (hsub _ hold) e he (hrold.trans hr.symm)
      obtain rfl : tbl = s₃.opened_table schema₃ := htbl
      rw [wp_bind]
      refine wp_mono (wp_and (persist_roots_spec (hcat ▸ ho₃.named) hrep₄.opened hrooted) (persist_roots_tame (hcat ▸ ho₃) _ _ _))
        (fun _ s₅ h₅ => ?_) fun _ _ herr => stopped_of_recursion herr.2
      obtain ⟨⟨htrees, hre, hopened⟩, -⟩ := h₅
      have hrep₅ := hrep₄.reroot (hcat ▸ ho₃.named) htrees hre hopened
      rw [hcat] at hre
      refine ⟨⟨hdeleting.catalog.trans hre, _, hrep₅, fun e' he' hr' => ?_, old, he, hr, hdeleting.removed.itself hfree⟩, hnot⟩
      rw [Function.update_self] at he'
      exact he'.2 (hsound.one e' (hsub _ he'.1) old he (hr'.trans hr.symm))

/-- **On every reachable catalog**: no table references itself, through any others; a deletion ends; and one that returns
true has deleted the row, rows that lead to it along CASCADE constraints, and so many that no row references a deleted one. -/
theorem delete_row_cascading_correct {Q : Type} (hs : ExecState.Reachable Q s) :
    (∀ name, ¬ Relation.TransGen s.catalog.Refers name name) ∧
    (∀ table_name key, ∃ n, Ends .too_deep (delete_row_cascading n table_name key) s ∧
      ∀ fuel ≥ n, delete_row_cascading fuel table_name key s = delete_row_cascading n table_name key s) ∧
    ∀ C, s.Represents C → ∀ fuel table_name key s', delete_row_cascading fuel table_name key s = .ok true s' →
      ∃ C' e, s'.Represents C' ∧ (e ∈ C table_name ∧ e.1.rank = key.rank ∧ ∀ e' ∈ C' table_name, e'.1.rank ≠ key.rank) ∧
        (∀ t, C' t ⊆ C t) ∧
        (∀ t, ∀ e' ∈ C t, e' ∉ C' t → Relation.ReflTransGen (s.catalog.Cascades C) (t, e') (table_name, e)) ∧
        ¬ s.catalog.Dangles C C' := by
  have ho := hs.ordered
  refine ⟨ho.acyclic, delete_row_cascading_ends ho, fun C hrep fuel table_name key s' hrun => ?_⟩
  obtain ⟨⟨-, C', hrep', hgone, e, he, hr, hremoved⟩, -⟩ := wp_ok (delete_row_cascading_spec fuel table_name key s C ho hrep) hrun
  exact ⟨C', e, hrep', ⟨he, hr, hgone⟩, hremoved.subset, hremoved.chain, hremoved.closed⟩

/-! ### Two tables -/

/-- `CREATE TABLE c (id INT PRIMARY KEY, pid INT, FOREIGN KEY (pid) REFERENCES p (id) ON DELETE CASCADE)`. -/
def create_cascading : DdlStmt Unit :=
  .create_table ⟨bytes "c", [int_column "id" true "" "", int_column "pid" false "" ""], [], [], [],
    [⟨[bytes "pid"], bytes "p", [bytes "id"], .CASCADE⟩], []⟩

def stored_column (name : String) (is_primary_key : Bool) : Column where
  name := bytes name
  type := .INT
  max_length := 0
  is_nullable := !is_primary_key
  is_primary_key := is_primary_key
  auto_increment := false
  has_default := false
  default_value := .null
  no_default := fun _ => rfl

def parent_schema : TableSchema where
  name := bytes "p"
  columns := [stored_column "id" true]
  root_page := 8
  primary_key_indices := [0]
  checks := []
  foreign_keys := []
  create_sql := []

def child_schema : TableSchema where
  name := bytes "c"
  columns := [stored_column "id" true, stored_column "pid" false]
  root_page := 8
  primary_key_indices := [0]
  checks := []
  foreign_keys := [⟨[1], bytes "p", [0], .CASCADE, bytes "__fk_c_pid", []⟩]
  create_sql := []

def pid_index : IndexSchema := ⟨bytes "__fk_c_pid", bytes "c", [bytes "pid"], 8, false⟩

def single_entry (key : Key) (value : Bytes) : MapTree := ⟨⟨[(key, value)], List.pairwise_singleton _ _⟩, some_root⟩

/-- A row of `p` and a row of `c` that references it. -/
def two_rows : Trees where
  tree
    | .table name => if name = bytes "p" then single_entry [.int 1] [0, 1, 0, 0, 0] else single_entry [.int 1] [0, 1, 0, 0, 0, 1, 0, 0, 0]
    | .index _ => single_entry [.int 1, .int 1] []
  roots _ := some_root

def two_contents : AllContents := fun name =>
  if name = bytes "p" then {([.int 1], [.int 1])} else if name = bytes "c" then {([.int 1], [.int 1, .int 1])} else ∅

def deletes_one (s : ExecState) : Bool :=
  match delete_row_cascading 3 (bytes "p") [.int 1] s with
  | .ok found _ => found
  | .error _ _ => false

theorem single_represents {tbl : Table} {trees : Trees} {key : Key} {row : Row} {value : Bytes}
    (hvalue : deserialize_row tbl.schema value = .ok row) (hrows : trees.tree tbl.rows = single_entry key value)
    (hindexes : ∀ idx ∈ tbl.indexes, trees.tree (.index idx.schema.name) = single_entry (idx.value row ++ key) [] ∧
      is_indexable (idx.value row) = true) : tbl.Represents trees {(key, row)} where
  rows k bytes hmem := by
    rw [hrows] at hmem
    obtain ⟨rfl, rfl⟩ := Prod.mk.inj (List.mem_singleton.1 hmem)
    exact ⟨row, rfl, hvalue⟩
  stored e he := by
    obtain rfl := Set.mem_singleton_iff.1 he
    rw [hrows]
    exact ⟨value, List.mem_singleton_self _, hvalue⟩
  indexes idx hidx := by
    intro k v
    obtain ⟨htree, hindexable⟩ := hindexes idx hidx
    rw [htree]
    constructor
    · intro hmem
      obtain ⟨rfl, rfl⟩ := Prod.mk.inj (List.mem_singleton.1 hmem)
      exact ⟨rfl, _, rfl, hindexable, rfl⟩
    · rintro ⟨rfl, e, he, -, rfl⟩
      obtain rfl := Set.mem_singleton_iff.1 he
      exact List.mem_singleton_self _

theorem single_sound {tbl : Table} {e : Key × Row} (h : tbl.Fits e) : tbl.Sound {e} where
  fits e' he' := by
    obtain rfl := Set.mem_singleton_iff.1 he'
    exact h
  one _ he _ he' _ := (Set.mem_singleton_iff.1 he).trans (Set.mem_singleton_iff.1 he').symm
  unique _ _ _ he _ he' _ := (Set.mem_singleton_iff.1 he).trans (Set.mem_singleton_iff.1 he').symm

/-- A table whose `pid` references `p`, and the index of the foreign key. -/
def referencing_schema (name : Bytes) (on_delete : FkOnDelete) (index_name : Bytes) : TableSchema :=
  { child_schema with name := name, foreign_keys := [⟨[1], bytes "p", [0], on_delete, index_name, []⟩] }

def referencing_index (name index_name : Bytes) : IndexSchema := ⟨index_name, name, [bytes "pid"], 8, false⟩

/-- One row in `p`, and one that references it in every other table. -/
theorem one_row_each_represent (htrees : s.trees = two_rows) (hroots : ∀ name idx, s.catalog.indexes.lookup name = some idx → idx.root_page = 8)
    (htables : ∀ name schema, s.catalog.tables.lookup name = some schema →
      (name = bytes "p" ∧ schema = parent_schema ∧ s.catalog.get_indexes_for_table name = [] ∧ C name = {([.int 1], [.int 1])}) ∨
        name ≠ bytes "p" ∧ (∃ on_delete index_name, schema = referencing_schema name on_delete index_name ∧
          s.catalog.get_indexes_for_table name = [referencing_index name index_name] ∧
          s.catalog.indexes.lookup index_name = some (referencing_index name index_name)) ∧ C name = {([.int 1], [.int 1, .int 1])}) :
    s.Represents C := by
  -- only the columns matter
  have hvalue : deserialize_row child_schema [0, 1, 0, 0, 0, 1, 0, 0, 0] = .ok [.int 1, .int 1] := rfl
  have hbytes : serialize_row child_schema [.int 1, .int 1] = .ok [0, 1, 0, 0, 0, 1, 0, 0, 0] := rfl
  refine ⟨⟨fun name schema hl => ?_, fun name idx hl => ?_⟩, fun name schema hl => ?_, fun name schema hl fk hfk => ?_⟩
  · rcases htables name schema hl with ⟨-, rfl, -⟩ | ⟨-, ⟨_, _, rfl, -⟩, -⟩ <;> exact fun h => by cases h
  · rw [hroots name idx hl]
    decide
  · rcases htables name schema hl with ⟨rfl, rfl, hidx, hC⟩ | ⟨hne, ⟨on_delete, index_name, rfl, hidx, -⟩, hC⟩
    · rw [htrees, hidx, hC]
      refine ⟨⟨parent_schema, []⟩, rfl, single_represents rfl rfl fun idx hidx => absurd hidx List.not_mem_nil, single_sound ?_⟩
      exact ⟨rfl, ⟨_, rfl⟩, fun idx hidx => absurd hidx List.not_mem_nil, by decide⟩
    · rw [htrees, hidx, hC]
      refine ⟨⟨referencing_schema name on_delete index_name, [(referencing_index name index_name).binding (referencing_schema name on_delete index_name)]⟩,
        ?_, single_represents hvalue (if_neg hne) fun idx hidx => ?_, single_sound ?_⟩
      · exact Table.construct_eq_ok.2 ⟨fun idx hmem => by
          obtain rfl := List.mem_singleton.1 hmem
          exact ⟨rfl, fun col hcol => by obtain rfl := List.mem_singleton.1 hcol; rfl⟩, rfl⟩
      · obtain rfl := List.mem_singleton.1 hidx
        exact ⟨rfl, rfl⟩
      · refine ⟨rfl, ⟨_, hbytes⟩, fun idx hidx => ?_, by decide⟩
        obtain rfl := List.mem_singleton.1 hidx
        rfl
  · rcases htables name schema hl with ⟨rfl, rfl, -⟩ | ⟨-, ⟨on_delete, index_name, rfl, -, hlookup⟩, -⟩
    · exact absurd hfk List.not_mem_nil
    · obtain rfl := List.mem_singleton.1 hfk
      exact ⟨referencing_index name index_name, hlookup, rfl, rfl⟩

/-- A statement that succeeds. -/
theorem ExecState.Reachable.ddl {Q : Type} {stmt : DdlStmt Q} (h : ExecState.Reachable Q s) (hnext : stmt.next s = some s') :
    ExecState.Reachable Q s' := by
  have hrun : (CatalogStep.ddl stmt).run s = .ok () s' := DdlStmt.succeeds_of_next hnext
  exact .returned h hrun

theorem two_rows_represent (ht : s.catalog.tables.entries = [⟨bytes "c", child_schema⟩, ⟨bytes "p", parent_schema⟩])
    (hi : s.catalog.indexes.entries = [⟨bytes "__fk_c_pid", pid_index⟩]) (htrees : s.trees = two_rows) : s.Represents two_contents := by
  have hindexes : ∀ {name}, s.catalog.get_indexes_for_table name = if pid_index.table_name = name then [pid_index] else [] := by
    intro name
    unfold Catalog.get_indexes_for_table
    rw [hi]
    simp only [List.map_cons, List.map_nil, List.filter_cons, List.filter_nil, decide_eq_true_eq]
  have hlookup : s.catalog.indexes.lookup (bytes "__fk_c_pid") = some pid_index :=
    AList.mem_lookup_iff.2 (by rw [hi]; exact List.mem_singleton_self _)
  refine one_row_each_represent htrees (fun name idx hl => ?_) fun name schema hl => ?_
  · have hmem := AList.mem_lookup_iff.1 hl
    rw [hi] at hmem
    cases List.mem_singleton.1 hmem
    rfl
  · have hmem := AList.mem_lookup_iff.1 hl
    rw [ht] at hmem
    rw [hindexes]
    rcases List.mem_cons.1 hmem with h | h
    · cases h
      exact .inr ⟨by decide, ⟨.CASCADE, bytes "__fk_c_pid", rfl, rfl, hlookup⟩, rfl⟩
    · cases List.mem_singleton.1 h
      exact .inl ⟨rfl, rfl, rfl, rfl⟩

theorem delete_row_cascading_correct_cascade : ∃ s s', ExecState.Reachable Unit s ∧ s.Represents two_contents ∧
    delete_row_cascading 3 (bytes "p") [.int 1] s = .ok true s' ∧ (∀ name, ¬ Relation.TransGen s.catalog.Refers name name) ∧
    ∃ C' e, s'.Represents C' ∧ (e ∈ two_contents (bytes "p") ∧ e.1.rank = Key.rank [.int 1] ∧
        ∀ e' ∈ C' (bytes "p"), e'.1.rank ≠ Key.rank [.int 1]) ∧ (∀ t, C' t ⊆ two_contents t) ∧
      (∀ t, ∀ e' ∈ two_contents t, e' ∉ C' t → Relation.ReflTransGen (s.catalog.Cascades two_contents) (t, e') (bytes "p", e)) ∧
      ¬ s.catalog.Dangles two_contents C' := by
  have hrun : ((create_parent.next (ExecState.new any_trees)).any fun s₁ => (create_cascading.next s₁).any fun s₂ =>
      decide (s₂.catalog.tables.entries = [⟨bytes "c", child_schema⟩, ⟨bytes "p", parent_schema⟩]) &&
        (decide (s₂.catalog.indexes.entries = [⟨bytes "__fk_c_pid", pid_index⟩]) && deletes_one { s₂ with trees := two_rows })) = true := by
    decide +kernel
  obtain ⟨s₁, h₁, hrun⟩ := (Option.any_eq_true _ _).1 hrun
  obtain ⟨s₂, h₂, hrun⟩ := (Option.any_eq_true _ _).1 hrun
  obtain ⟨ht, hrun⟩ := (Bool.and_eq_true_iff ..).1 hrun
  obtain ⟨hi, hrun⟩ := (Bool.and_eq_true_iff ..).1 hrun
  have hreach₁ : ExecState.Reachable Unit s₁ := (ExecState.Reachable.new any_trees).ddl h₁
  have hreach₂ : ExecState.Reachable Unit s₂ := hreach₁.ddl h₂
  have hreach := hreach₂.rows two_rows
  have hrep : ExecState.Represents { s₂ with trees := two_rows } two_contents :=
    two_rows_represent (of_decide_eq_true ht) (of_decide_eq_true hi) rfl
  unfold deletes_one at hrun
  cases hdelete : delete_row_cascading 3 (bytes "p") [.int 1] { s₂ with trees := two_rows } with
  | error e s' => rw [hdelete] at hrun; cases hrun
  | ok found s' =>
    rw [hdelete] at hrun
    obtain rfl : found = true := hrun
    obtain ⟨hacyclic, -, hcorrect⟩ := delete_row_cascading_correct hreach
    exact ⟨_, s', hreach, hrep, hdelete, hacyclic, hcorrect two_contents hrep 3 _ _ s' hdelete⟩

end GSDBEngine