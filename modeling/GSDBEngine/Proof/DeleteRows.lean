import GSDBEngine.Proof.UpdateRows

/-!
# DELETE

Each row that WHERE has found is deleted with what references it, and the recursion ends at a RESTRICT constraint, with the rows gone
that were deleted by then. Whichever way it ends, no reference is left without its row.

* `Pruned`: rows that lead to given ones are gone. `delete_row_cascading_ready`: **what a call leaves, and how it can end.**
* `execute_delete_spec`: **a DELETE prunes the rows that it found.**
* `execute_delete_consistent`: what is left is what the schemas declare.
-/

namespace GSDBEngine

open Eff

variable {Q : Type} {s s' s₁ s₂ : ExecState} {cat : Catalog} {C C' C₁ C₂ : AllContents} {name : Bytes} {schema : TableSchema} {last last₁ : TableRow}
  {roots : Set TableRow}

/-! ### Rows that are gone -/

/-- **Rows that lead to the roots are gone**, and none that is left references one of them. -/
structure Pruned (cat : Catalog) (C C' : AllContents) (roots : Set TableRow) : Prop where
  subset : ∀ t, C' t ⊆ C t
  chain : ∀ t, ∀ e ∈ C t, e ∉ C' t → ∃ r ∈ roots, Relation.ReflTransGen (cat.Cascades C) (t, e) r
  closed : ¬ cat.Dangles C C'

theorem Pruned.refl (cat : Catalog) (C : AllContents) (roots : Set TableRow) : Pruned cat C C roots where
  subset _ := subset_rfl
  chain _ _ he hne := absurd he hne
  closed := by
    rintro ⟨_, _, _, -, -, hmem, hnot⟩
    exact hnot hmem

theorem Pruned.trans (h : Pruned cat C C₁ roots) (h₁ : Removed cat C₁ C₂ last) (hroot : last ∈ roots) : Pruned cat C C₂ roots where
  subset t := (h₁.subset t).trans (h.subset t)
  chain t e he hne := by
    by_cases he₁ : e ∈ C₁ t
    · have hpath := h₁.chain t e he₁ hne
      exact ⟨last, hroot, Relation.ReflTransGen.mono (fun _ _ hstep => Catalog.Cascades.mono h.subset hstep) _ _ hpath⟩
    · exact h.chain t e he he₁
  closed := by
    rintro ⟨child, parent, fk, hrefers, hchild, hparent, hnot⟩
    by_cases hp₁ : parent.2 ∈ C₁ parent.1
    · exact h₁.closed ⟨child, parent, fk, hrefers, hchild, hp₁, hnot⟩
    · exact h.closed ⟨child, parent, fk, hrefers, h₁.subset _ hchild, hparent, hp₁⟩

/-- Tables whose rows lead to each other reference each other. -/
theorem Catalog.Cascades.refers {child parent : TableRow} (h : cat.Cascades C child parent) : cat.Refers child.1 parent.1 := by
  obtain ⟨-, -, fk, ⟨⟨schema, hl, hfk⟩, href, -⟩, -⟩ := h
  exact ⟨schema, hl, fk, hfk, href⟩

/-- **No row leads to itself.** -/
theorem Catalog.Ordered.no_cycle (h : cat.Ordered) : ¬ Relation.TransGen (cat.Cascades C) last last := by
  intro hcycle
  exact h.acyclic last.1 (Relation.TransGen.lift Prod.fst (fun _ _ hstep => Catalog.Cascades.refers hstep) _ _ hcycle)

/-! ### The recursion -/

/-- How a deletion can end, other than by success. -/
def DdlErr.stops (e : DdlErr) : Prop := e = .too_deep ∨ ∃ table_name child_table, e = .restricted table_name child_table

/-- On the way to `last`, which is still there. -/
structure Pruning (s : ExecState) (C : AllContents) (last : TableRow) (s' : ExecState) (C' : AllContents) : Prop where
  catalog : s.catalog.Rerooted s'.catalog.toCatalog
  rows : s'.Ready C'
  removed : Removed s.catalog.toCatalog C C' last

/-- What a call leaves: there is no row of the key, and nothing has happened, or rows that lead to it are gone. -/
def Leaves (s : ExecState) (C : AllContents) (table_name : Bytes) (key : Key) (s' : ExecState) (C' : AllContents) : Prop :=
  (s' = s ∧ C' = C) ∨ ∃ e ∈ C table_name, e.1.rank = key.rank ∧ Pruning s C (table_name, e) s' C'

/-- What a call does, whichever way it ends. -/
def CallReady (fuel : ℕ) : Prop := ∀ table_name schema key s C, s.Ready C → s.catalog.tables.lookup table_name = some schema →
  wp (delete_row_cascading fuel table_name key) (fun err s' => err.stops ∧ ∃ C', Leaves s C table_name key s' C')
    (fun _ s' => ∃ C', Leaves s C table_name key s' C' ∧ Gone C' table_name key) s

/-- **A child goes on the way to its parent**, and the parent is still there. -/
theorem Pruning.step (h : Pruning s C last s₁ C₁) (hready : s.Ready C) (hlast : last.2 ∈ C₁ last.1) {child_table : Bytes} {e : Key × Row}
    (hcascades : s.catalog.Cascades C (child_table, e) last) (h₁ : Leaves s₁ C₁ child_table e.1 s₂ C₂) :
    Pruning s C last s₂ C₂ ∧ (∀ t, C₂ t ⊆ C₁ t) ∧ last.2 ∈ C₂ last.1 := by
  rcases h₁ with ⟨rfl, rfl⟩ | ⟨e₁, he₁, hr, hpruning⟩
  · exact ⟨h, fun _ => subset_rfl, hlast⟩
  · have hremoved := hpruning.removed.reroot h.catalog
    -- the row that was found under the key is the one that references
    obtain ⟨he, -, fk, ⟨⟨schema, hl, -⟩, -⟩, -⟩ := id hcascades
    obtain ⟨-, -, hsound⟩ := hready.represents.binds hready.sane.wellformed.named hl
    obtain rfl : e₁ = e := hsound.one e₁ (h.removed.subset _ he₁) e he hr
    refine ⟨⟨h.catalog.trans hpruning.catalog, hpruning.rows, h.removed.trans hremoved (.single hcascades)⟩, hremoved.subset, ?_⟩
    by_contra hgone
    have hpath := hremoved.chain last.1 last.2 hlast hgone
    have hpath' := Relation.ReflTransGen.mono (fun _ _ hstep => Catalog.Cascades.mono h.removed.subset hstep) _ _ hpath
    exact hready.sane.ordered.no_cycle (Relation.TransGen.tail' hpath' hcascades)

section loops

variable {fuel : ℕ} (hcall : CallReady fuel)

include hcall

/-- The rows of one table, each with what references it. -/
theorem delete_keys_ready (hready : s.Ready C) {child_table : Bytes} :
    ∀ (pks : List Key) {s₁ : ExecState} {C₁ : AllContents}, Pruning s C last s₁ C₁ → last.2 ∈ C₁ last.1 →
      (∀ pk ∈ pks, ∃ e, e.1 = pk ∧ s.catalog.Cascades C (child_table, e) last) →
      wp (pks.forM fun pk => do
          let _ ← delete_row_cascading fuel child_table pk) (fun err s₂ => err.stops ∧ ∃ C₂, Pruning s C last s₂ C₂)
        (fun _ s₂ => ∃ C₂, Pruning s C last s₂ C₂ ∧ (∀ t, C₂ t ⊆ C₁ t) ∧ last.2 ∈ C₂ last.1 ∧ ∀ pk ∈ pks, Gone C₂ child_table pk) s₁
  | [], s₁, C₁, h, hlast, _ => ⟨C₁, h, fun _ => subset_rfl, hlast, fun _ hpk => absurd hpk List.not_mem_nil⟩
  | pk :: pks, s₁, C₁, h, hlast, hpks => by
    obtain ⟨e, rfl, hcascades⟩ := hpks pk List.mem_cons_self
    have hrest : ∀ pk ∈ pks, ∃ e, e.1 = pk ∧ s.catalog.Cascades C (child_table, e) last := fun pk hpk => hpks pk (List.mem_cons_of_mem _ hpk)
    obtain ⟨-, -, fk, ⟨⟨schema, hl, -⟩, -⟩, -⟩ := id hcascades
    obtain ⟨root, hl₁⟩ := h.catalog.table hl
    show wp (_ >>= fun _ => pks.forM _) _ _ s₁
    rw [wp_bind, wp_bind]
    refine wp_mono (hcall child_table _ e.1 s₁ C₁ h.rows hl₁) (fun found s₂ h₂ => ?_) fun err s₂ h₂ => ?_
    · obtain ⟨C₂, hleaves, hgone⟩ := h₂
      obtain ⟨hpruning, hsub, hlast₂⟩ := h.step hready hlast hcascades hleaves
      rw [wp_pure]
      refine wp_post (delete_keys_ready hready pks hpruning hlast₂ hrest) fun _ s₃ h₃ => ?_
      obtain ⟨C₃, hpruning₃, hsub₃, hlast₃, hgone₃⟩ := h₃
      refine ⟨C₃, hpruning₃, fun t => (hsub₃ t).trans (hsub t), hlast₃, fun pk' hpk' => ?_⟩
      rcases List.mem_cons.1 hpk' with rfl | hpk'
      · exact hgone.mono hsub₃
      · exact hgone₃ pk' hpk'
    · obtain ⟨hstops, C₂, hleaves⟩ := h₂
      exact ⟨hstops, C₂, (h.step hready hlast hcascades hleaves).1⟩

/-- One constraint after the other. -/
theorem delete_children_ready (hready : s.Ready C) (table_name : Bytes) :
    ∀ (children : List ReferencingChildren) {s₁ : ExecState} {C₁ : AllContents}, Pruning s C last s₁ C₁ → last.2 ∈ C₁ last.1 →
      (∀ child ∈ children, child.constraint.on_delete = .CASCADE → ∀ pk ∈ child.child_primary_keys,
        ∃ e, e.1 = pk ∧ s.catalog.Cascades C (child.child_table, e) last) →
      wp (children.forM fun child =>
          match child.constraint.on_delete with
          | .RESTRICT => throw (.restricted table_name child.child_table)
          | .CASCADE => child.child_primary_keys.forM fun child_pk => do
            let _ ← delete_row_cascading fuel child.child_table child_pk) (fun err s₂ => err.stops ∧ ∃ C₂, Pruning s C last s₂ C₂)
        (fun _ s₂ => ∃ C₂, Pruning s C last s₂ C₂ ∧ (∀ t, C₂ t ⊆ C₁ t) ∧ last.2 ∈ C₂ last.1 ∧
          ∀ child ∈ children, ∀ pk ∈ child.child_primary_keys, Gone C₂ child.child_table pk) s₁
  | [], s₁, C₁, h, hlast, _ => ⟨C₁, h, fun _ => subset_rfl, hlast, fun _ hchild => absurd hchild List.not_mem_nil⟩
  | child :: children, s₁, C₁, h, hlast, hchildren => by
    show wp (_ >>= fun _ => children.forM _) _ _ s₁
    rw [wp_bind]
    beta_reduce
    cases hon : child.constraint.on_delete with
    | RESTRICT => exact ⟨.inr ⟨_, _, rfl⟩, C₁, h⟩
    | CASCADE =>
      refine wp_post (delete_keys_ready hcall hready _ h hlast (hchildren child List.mem_cons_self hon)) fun _ s₂ h₂ => ?_
      obtain ⟨C₂, hpruning, hsub, hlast₂, hgone⟩ := h₂
      refine wp_post (delete_children_ready hready table_name children hpruning hlast₂ fun child' hchild' =>
        hchildren child' (List.mem_cons_of_mem _ hchild')) fun _ s₃ h₃ => ?_
      obtain ⟨C₃, hpruning₃, hsub₃, hlast₃, hgone₃⟩ := h₃
      refine ⟨C₃, hpruning₃, fun t => (hsub₃ t).trans (hsub t), hlast₃, fun child' hchild' => ?_⟩
      rcases List.mem_cons.1 hchild' with rfl | hchild'
      · exact fun pk hpk => (hgone pk hpk).mono hsub₃
      · exact hgone₃ child' hchild'

end loops

/-- The row itself is deleted, once nothing references it. -/
theorem delete_row_ready (h : s.Ready C) (hl : s.catalog.tables.lookup name = some schema) {e : Key × Row} (he : e ∈ C name) {key : Key}
    (hr : e.1.rank = key.rank) :
    wp (on_table schema (s.indexes_of schema) (fun tbl => tbl.delete_row key) >>= fun w => persist_roots schema w.2.1 w.2.2)
      (fun _ _ => False)
      (fun _ s' => s.catalog.Rerooted s'.catalog.toCatalog ∧ s'.Ready (Function.update C name (C name \ {e}))) s := by
  have hn := h.sane.wellformed.named
  obtain ⟨-, hrep, hsound⟩ := h.represents.binds hn hl
  rw [wp_bind]
  refine on_table_ready h hl (fun _ hidx => hidx) fun st htrees hsync _ => ?_
  have hrep' : (s.opened_table schema).Represents st.trees (C name) := htrees ▸ hrep
  refine wp_mono (wp_and (Table.delete_row_spec (opened_table_bound hn) hrep' hsound)
    (Table.keeps_delete_row (Table.synced_stable _) key st hsync)) (fun _ obj hobj => ?_) fun err obj hobj => ?_
  · obtain ⟨⟨old, hold, hrold, hrep₁, hframe⟩, hsync₁⟩ := hobj
    obtain rfl : old = e := hsound.one old hold e he (hrold.trans hr.symm)
    refine wp_post (persist_ready h hl (fun t ht => (hframe t ht).trans (by rw [htrees])) hrep₁ (hsound.mono Set.sdiff_subset) hsync₁)
      fun _ s₂ h₂ => ?_
    exact ⟨h₂.2.1, h₂.1⟩
  · obtain ⟨⟨-, -, hnone⟩, -⟩ := hobj
    exact hnone e he hr

/-- **One call**, whichever way it ends. -/
theorem delete_row_cascading_ready : ∀ fuel : ℕ, CallReady fuel
  | 0, _, _, _, _, C, _, _ => ⟨.inl rfl, C, .inl ⟨rfl, rfl⟩⟩
  | fuel + 1, table_name, schema, key, s, C, h, hl => by
    have hn := h.sane.wellformed.named
    have ho := h.sane.ordered
    have hname : schema.name = table_name := hn.tables _ _ hl
    obtain ⟨-, -, hsound⟩ := h.represents.binds hn hl
    have hget : ∀ {E : DdlErr → ExecState → Prop} {t : ExecState} {found : TableSchema}, t.catalog.tables.lookup table_name = some found →
        wp (get_table table_name) E (fun schema' t' => schema' = found ∧ t' = t) t := by
      intro E t found hfound
      unfold get_table
      rw [wp_bind, wp_get, hfound]
      exact ⟨rfl, rfl⟩
    unfold delete_row_cascading
    rw [wp_bind]
    refine wp_post (hget hl) fun _ _ hg => ?_
    obtain ⟨rfl, rfl⟩ := hg
    rw [wp_bind]
    refine wp_post (on_table_reads h hl key) fun read s₁ h₁ => ?_
    obtain ⟨rfl, hnone, hsome⟩ := h₁
    obtain ⟨row, obj⟩ := read
    cases row with
    | none => exact ⟨C, .inl ⟨rfl, rfl⟩, hnone rfl⟩
    | some row =>
      obtain ⟨e, he, hr, rfl⟩ := hsome row rfl
      have hstart : Pruning s₁ C (table_name, e) s₁ C := ⟨.refl hn, h, .refl _ _ _⟩
      have hleaves : ∀ {err : DdlErr} {s₂ : ExecState}, (err.stops ∧ ∃ C₂, Pruning s₁ C (table_name, e) s₂ C₂) →
          err.stops ∧ ∃ C₂, Leaves s₁ C table_name key s₂ C₂ := by
        rintro err s₂ ⟨hstops, C₂, hpruning⟩
        exact ⟨hstops, C₂, .inr ⟨e, he, hr, hpruning⟩⟩
      rw [wp_bind, wp_get, wp_bind, hname]
      have hrefs : ∀ ref ∈ s₁.catalog.get_foreign_keys_referencing table_name,
          ∃ schema, s₁.catalog.tables.lookup ref.1 = some schema ∧ ref.2 ∈ schema.foreign_keys := fun ref href =>
        ((Catalog.mem_get_foreign_keys_referencing hn).1 href).1
      refine wp_mono (wp_and (find_referencing_children_ready h hl he)
        (find_referencing_children_spec h.represents ho (hsound.fits e he).numbers _ hrefs)) (fun children s₂ h₂ => ?_) fun _ _ hf => hf.1.elim
      obtain ⟨rfl, -, hfrom, hall⟩ := h₂
      have hcascade : ∀ child ∈ children, child.constraint.on_delete = .CASCADE → ∀ pk ∈ child.child_primary_keys,
          ∃ e', e'.1 = pk ∧ s₂.catalog.Cascades C (child.child_table, e') (table_name, e) := by
        intro child hchild hon pk hpk
        obtain ⟨href, hfound⟩ := hfrom child hchild
        obtain ⟨e', he', hreferences, hkey⟩ := hfound pk hpk
        obtain ⟨hschema, htable⟩ := (Catalog.mem_get_foreign_keys_referencing hn).1 href
        exact ⟨e', hkey, he', he, child.constraint, ⟨hschema, htable, hreferences⟩, hon⟩
      rw [wp_bind]
      refine wp_mono (delete_children_ready (delete_row_cascading_ready fuel) h table_name children hstart he hcascade) (fun _ s₃ h₃ => ?_)
        fun _ _ herr => hleaves herr
      obtain ⟨C₃, hpruning, hsub, hlast, hgone⟩ := h₃
      -- whatever references the row was found before, and is gone
      have hfree : ∀ child fk, s₂.catalog.RowRefers child (table_name, e) fk → child.2 ∉ C₃ child.1 := by
        rintro child fk ⟨hschema, htable, hreferences⟩ hmem
        have href : (child.1, fk) ∈ s₂.catalog.get_foreign_keys_referencing table_name :=
          (Catalog.mem_get_foreign_keys_referencing hn).2 ⟨hschema, htable⟩
        obtain ⟨c, hc, hctable, hpk⟩ := hall _ href child.2 (hsub _ hmem) hreferences
        exact hgone c hc _ hpk child.2 (hctable ▸ hmem) rfl
      obtain ⟨root, hl₃⟩ := hpruning.catalog.table hl
      rw [wp_bind]
      refine wp_post (hget hl₃) fun _ _ hg => ?_
      obtain ⟨rfl, rfl⟩ := hg
      rw [wp_bind, wp_get]
      have hdelete := delete_row_ready hpruning.rows hl₃ hlast hr
      rw [wp_bind] at hdelete ⊢
      refine wp_mono hdelete (fun w s₄ h₄ => ?_) fun _ _ hf => hf.elim
      rw [wp_bind]
      refine wp_mono h₄ (fun _ s₅ h₅ => ?_) fun _ _ hf => hf.elim
      obtain ⟨hre, hready⟩ := h₅
      refine ⟨_, .inr ⟨e, he, hr, hpruning.catalog.trans hre, hready, hpruning.removed.itself hfree⟩, fun e' he' hr' => ?_⟩
      rw [Function.update_self] at he'
      exact he'.2 (hsound.one e' (hsub _ he'.1) e he (hr'.trans hr.symm))

/-! ### DELETE -/

/-- A DELETE of rows on its way. -/
structure DeletingFrom (s : ExecState) (C : AllContents) (roots : Set TableRow) (s' : ExecState) (C' : AllContents) : Prop where
  catalog : s.catalog.Rerooted s'.catalog.toCatalog
  rows : s'.Ready C'
  pruned : Pruned s.catalog.toCatalog C C' roots

theorem delete_matched_ready (hready : s.Ready C) (hl : s.catalog.tables.lookup name = some schema) {fuel : ℕ} : ∀ (pks : List Key)
    {s₁ : ExecState} {C₁ : AllContents}, DeletingFrom s C roots s₁ C₁ → (∀ e ∈ C name, ∀ pk ∈ pks, e.1.rank = pk.rank → (name, e) ∈ roots) →
    wp (delete_matched fuel name pks) (fun err s₂ => err.stops ∧ ∃ C₂, DeletingFrom s C roots s₂ C₂)
      (fun _ s₂ => ∃ C₂, DeletingFrom s C roots s₂ C₂ ∧ (∀ t, C₂ t ⊆ C₁ t) ∧ ∀ pk ∈ pks, Gone C₂ name pk) s₁
  | [], s₁, C₁, h, _ => ⟨C₁, h, fun _ => subset_rfl, fun _ hpk => absurd hpk List.not_mem_nil⟩
  | pk :: pks, s₁, C₁, h, hroots => by
    obtain ⟨root, hl₁⟩ := h.catalog.table hl
    -- what one call leaves is on the way
    have hstep : ∀ {s₂ C₂}, Leaves s₁ C₁ name pk s₂ C₂ → DeletingFrom s C roots s₂ C₂ ∧ ∀ t, C₂ t ⊆ C₁ t := by
      rintro s₂ C₂ (⟨rfl, rfl⟩ | ⟨e, he, hr, hpruning⟩)
      · exact ⟨h, fun _ => subset_rfl⟩
      · have hremoved := hpruning.removed.reroot h.catalog
        have hroot := hroots e (h.pruned.subset _ he) pk List.mem_cons_self hr
        exact ⟨⟨h.catalog.trans hpruning.catalog, hpruning.rows, h.pruned.trans hremoved hroot⟩, hremoved.subset⟩
    unfold delete_matched
    rw [wp_bind]
    refine wp_mono (delete_row_cascading_ready fuel name _ pk s₁ C₁ h.rows hl₁) (fun found s₂ h₂ => ?_) fun err s₂ h₂ => ?_
    · obtain ⟨C₂, hleaves, hgone⟩ := h₂
      obtain ⟨h₂, hsub⟩ := hstep hleaves
      rw [wp_bind]
      refine wp_post (delete_matched_ready hready hl pks h₂ fun e he pk' hpk' => hroots e he pk' (List.mem_cons_of_mem _ hpk')) fun _ s₃ h₃ => ?_
      obtain ⟨C₃, h₃, hsub₃, hgone₃⟩ := h₃
      refine ⟨C₃, h₃, fun t => (hsub₃ t).trans (hsub t), fun pk' hpk' => ?_⟩
      rcases List.mem_cons.1 hpk' with rfl | hpk'
      · exact hgone.mono hsub₃
      · exact hgone₃ pk' hpk'
    · obtain ⟨hstops, C₂, hleaves⟩ := h₂
      exact ⟨hstops, C₂, (hstep hleaves).1⟩

/-- The rows that the statement finds. -/
def DeleteStmt.find (sub : Subqueries Q) (stmt : DeleteStmt Q) (schema : TableSchema) : DmlM (List ScanResult) := do
  let (_, _, obj) ← on_exec (on_table schema [] fun _ => pure ())
  let s ← get
  find_matched sub ⟨schema, (s.indexes_of schema).map (IndexSchema.binding schema)⟩ stmt.where_ obj

theorem DeleteStmt.find_eq (sub : Subqueries Q) (stmt : DeleteStmt Q) {u : Unit} {tbl : Table} {obj : TableState}
    (h : on_exec (on_table schema [] fun _ => pure ()) s = .ok (u, tbl, obj) s) :
    stmt.find sub schema s = find_matched sub (s.opened_table schema) stmt.where_ obj s := by
  unfold DeleteStmt.find
  exact bind_of_ok h

/-- A DELETE of a table that there is, and the rows that it finds. -/
structure DeleteStmt.Found (sub : Subqueries Q) (stmt : DeleteStmt Q) (s : ExecState) (C : AllContents) (schema : TableSchema)
    (matched : List ScanResult) : Prop where
  table : s.catalog.tables.lookup stmt.table_name = some schema
  found : stmt.find sub schema s = .ok matched s
  entries : ∀ m ∈ matched, m.entry ∈ C stmt.table_name

/-- The rows that were found. -/
def DeleteStmt.targets (stmt : DeleteStmt Q) (matched : List ScanResult) : Set TableRow :=
  { r | r.1 = stmt.table_name ∧ ∃ m ∈ matched, r.2 = m.entry }

/-- **A DELETE prunes the rows that it found.** It is stopped, or all of them are gone. -/
theorem execute_delete_spec (h : s.Ready C) {sub : Subqueries Q} {stmt : DeleteStmt Q} {fuel : ℕ} :
    wp (execute_delete sub fuel stmt)
      (fun err s' => (s' = s ∧ ∀ schema matched, ¬ stmt.Found sub s C schema matched) ∨
        ∃ schema matched, stmt.Found sub s C schema matched ∧ (∃ e, err = .ddl e ∧ e.stops) ∧ ∃ C', DeletingFrom s C (stmt.targets matched) s' C')
      (fun _ s' => ∃ schema matched, stmt.Found sub s C schema matched ∧ ∃ C', DeletingFrom s C (stmt.targets matched) s' C' ∧
        ∀ m ∈ matched, m.entry ∉ C' stmt.table_name) s := by
  have hn := h.sane.wellformed.named
  unfold execute_delete
  rw [wp_bind, wp_on_exec]
  refine wp_mono (get_table_spec s stmt.table_name) (fun schema s₀ h₀ => ?_) fun err s₀ h₀ => .inl ⟨h₀.1, fun schema matched hf => ?_⟩
  swap
  · have htable := hf.table
    rw [h₀.2] at htable
    cases htable
  obtain ⟨hs₀, hl⟩ := h₀
  subst hs₀
  obtain ⟨hbinds, hrep, hsound⟩ := h.represents.binds hn hl
  have hconstruct : ∃ l, Table.construct schema l = .ok (s₀.opened_table schema) := ⟨_, Table.construct_eq_ok.2 ⟨hbinds, rfl⟩⟩
  -- the rows are found before the first one is deleted
  have hopened : wp (on_exec (on_table schema [] fun _ => pure ())) (fun _ _ => False) (fun w s' => s' = s₀ ∧ w.2.2.trees = s₀.trees) s₀ := by
    rw [wp_on_exec]
    refine on_table_ready h hl (fun _ hmem => absurd hmem List.not_mem_nil) fun st htrees _ _ => ?_
    exact ⟨by rw [htrees], htrees⟩
  rw [wp_bind]
  refine wp_mono (wp_and (wp_self _ s₀) hopened) (fun w s₁ h₁ => ?_) fun _ _ hf => hf.2.elim
  obtain ⟨hrun, hs₁, htrees⟩ := h₁
  subst hs₁
  obtain ⟨u, tbl, obj⟩ := w
  have htrees : obj.trees = s₁.trees := htrees
  have hfind := DeleteStmt.find_eq sub stmt hrun
  have hrep' : (s₁.opened_table schema).Represents obj.trees (C stmt.table_name) := htrees ▸ hrep
  rw [wp_bind, wp_get, wp_bind]
  refine find_matched_state (fun matched hmatched => ?_) fun err herr => .inl ⟨rfl, fun schema' matched' hf => ?_⟩
  · obtain ⟨hmem, -⟩ := find_matched_spec hconstruct hrep' hsound hmatched
    have hfound : stmt.Found sub s₁ C schema matched := ⟨hl, hfind.trans hmatched, hmem⟩
    have hroots : ∀ e ∈ C stmt.table_name, ∀ pk ∈ matched.map ScanResult.primary_key, e.1.rank = pk.rank →
        (stmt.table_name, e) ∈ stmt.targets matched := by
      intro e he pk hpk hr
      obtain ⟨m, hm, rfl⟩ := List.mem_map.1 hpk
      exact ⟨rfl, m, hm, hsound.one e he m.entry (hmem m hm) hr⟩
    rw [wp_on_exec]
    refine wp_mono (delete_matched_ready h hl _ ⟨.refl hn, h, .refl _ _ _⟩ hroots) (fun _ s₂ h₂ => ?_) fun err s₂ h₂ => ?_
    · obtain ⟨C₂, hdeleting, -, hgone⟩ := h₂
      exact ⟨schema, matched, hfound, C₂, hdeleting, fun m hm hmem => hgone _ (List.mem_map_of_mem hm) _ hmem rfl⟩
    · exact .inr ⟨schema, matched, hfound, ⟨err, rfl, h₂.1⟩, h₂.2⟩
  · have hsame : schema' = schema := Option.some.inj (hf.table.symm.trans hl)
    have hfound := hf.found
    rw [hsame, hfind] at hfound
    cases hfound.symm.trans herr

/-- **What is left is what the schemas declare**, and no reference is left without its row. -/
theorem execute_delete_consistent (h : s.Consistent C) (hd : DeletingFrom s C roots s' C') : s'.Consistent C' where
  represents := hd.rows.represents
  admits name' schema' hl' e he := by
    obtain ⟨schema₀, hl₀, heq⟩ := hd.catalog.tables name' schema' hl'
    have hadmits := h.admits name' schema₀ hl₀ e (hd.pruned.subset _ he)
    rw [heq]
    exact ⟨hadmits.typed, hadmits.checked⟩
  foreign_keys := by
    rw [hd.catalog.asks, hd.catalog.rowRefers, hd.catalog.all_rows]
    refine h.foreign_keys.shrink (fun r hr => ⟨hr.1, hd.pruned.subset _ hr.2⟩) fun child hchild fk _ parent hparent hrefers => ⟨hparent.1, ?_⟩
    by_contra hgone
    exact hd.pruned.closed ⟨child, parent, fk, hrefers, hchild.2, hparent.2, hgone⟩

/-- **There is enough fuel**: the recursion goes up through the tables. -/
theorem execute_delete_ends (h : s.Ready C) {sub : Subqueries Q} {stmt : DeleteStmt Q} :
    ∃ n, ∀ fuel ≥ n, wp (execute_delete sub fuel stmt) (fun err _ => err ≠ .ddl .too_deep) (fun _ _ => True) s := by
  obtain ⟨rank, bound, hranked⟩ := h.sane.ordered.ranked
  have hn := h.sane.wellformed.named
  refine ⟨bound + 1, fun fuel hfuel => ?_⟩
  have hloop : ∀ (pks : List Key) {s₁ : ExecState}, RanksKept rank bound s₁ →
      wp (delete_matched fuel stmt.table_name pks) (fun err _ => err ≠ .too_deep) (fun _ _ => True) s₁ := by
    intro pks
    induction pks with
    | nil => exact fun _ => trivial
    | cons pk pks ih =>
      intro s₁ h₁
      unfold delete_matched
      rw [wp_bind]
      refine wp_post (delete_row_cascading_ranks fuel stmt.table_name pk s₁ h₁ (by omega)) fun _ s₂ h₂ => ?_
      rw [wp_bind]
      exact wp_post (ih h₂) fun _ _ _ => trivial
  -- what comes before is no recursion
  have hmapped : ∀ {ε α : Type} {x : Except ε α} {f : ε → DmlErr} {e : DmlErr}, (∀ err, f err ≠ .ddl .too_deep) →
      x.mapError f = .error e → e ≠ .ddl .too_deep := by
    intro ε α x f e hf he
    cases x with
    | ok a => cases he
    | error err =>
      rw [← Except.error.inj he]
      exact hf err
  unfold execute_delete
  rw [wp_bind, wp_on_exec]
  refine wp_get_table (fun schema hl => ?_) fun heq => by cases heq
  rw [wp_bind, wp_on_exec]
  refine on_table_ready h hl (fun _ hmem => absurd hmem List.not_mem_nil) fun st htrees _ _ => ?_
  rw [wp_pure, wp_bind, wp_get, wp_bind]
  unfold find_matched
  rw [wp_bind, wp_get, wp_bind]
  refine wp_liftE (fun cache _ => wp_liftE (fun matched _ => ?_) fun _ he => ?_) fun _ he => ?_
  · rw [wp_on_exec]
    exact wp_mono (hloop _ ⟨hn, hranked⟩) (fun _ _ _ => trivial) fun err _ hne heq => hne (DmlErr.ddl.inj heq)
  · exact hmapped (fun _ heq => by cases heq) he
  · exact hmapped (fun _ heq => by cases heq) he

end GSDBEngine
