import GSDBEngine.Proof.Sync
import GSDBEngine.Proof.Memory

/-!
# A method in its own transaction

Between transactions page 0 is the header (`Idle`). `begin` changes no frame; `commit`
copies images over frames that they are already equal to. So what a method body does
to the memory, in whatever transaction, is what the call does.

* `holds_begin`, `holds_commit`: the memory at both ends.
* `wp_own`: a body run between the two.
-/

namespace GSDBEngine

open Eff

variable {K : Type} [KeyOps K] {s s' : Store K} {μ : Mem K} {txn : ℕ} {I : LogInv K txn} {old : PageId → Page K}

/-- No demand on the log. -/
def LogInv.any (K : Type) [KeyOps K] (txn : ℕ) : LogInv K txn := ⟨fun _ => True, fun _ _ _ _ => trivial⟩

/-- No transaction is open: page 0 is the header. -/
structure Idle (s : Store K) : Prop where
  header : s.page HEADER_PAGE_ID = .header s.header
  pages : 1 ≤ s.total_pages

/-- Two stores with the same pages but for the header page. -/
theorem holds_congr (h : Holds s μ) (hpage : ∀ p, p ≠ HEADER_PAGE_ID → s'.page p = s.page p)
    (h0 : ∃ hd, s.page HEADER_PAGE_ID = .header hd) (h0' : ∃ hd, s'.page HEADER_PAGE_ID = .header hd)
    (htot : s'.total_pages = s.total_pages) (hroot : s'.root_page = s.root_page)
    (hhead : s'.header.first_free_page = s.header.first_free_page) : Holds s' μ ∧ s'.fixed = s.fixed := by
  obtain ⟨hd, h0⟩ := h0
  obtain ⟨hd', h0'⟩ := h0'
  have hfree : HEADER_PAGE_ID ∉ μ.free := fun hmem => by
    obtain ⟨-, next, under, hp⟩ := freeChain_free h.chain _ hmem
    rw [h0] at hp; cases hp
  refine ⟨⟨?_, hroot.trans h.root, ?_, h.nodup, fun p hp next under hpg => ?_, by rw [htot]; exact h.pages⟩, ?_⟩
  · rw [← h.view]
    funext p
    by_cases hp : p = HEADER_PAGE_ID
    · simp only [Store.view, hp, h0, h0']
      split <;> split <;> rfl
    · simp only [Store.view, hpage p hp, htot]
  · rw [hhead]
    exact freeChain_congr (le_of_eq htot.symm) (fun p hp => hpage p (ne_of_mem_of_not_mem hp hfree)) h.chain
  · by_cases hp0 : p = HEADER_PAGE_ID
    · rw [hp0, h0'] at hpg; cases hpg
    · rw [hpage p hp0] at hpg
      exact h.listed p (htot ▸ hp) next under hpg
  · funext p
    by_cases hp : p = HEADER_PAGE_ID
    · simp [Store.fixed, hp, h0, h0', htot]
    · simp only [Store.fixed, hpage p hp, htot]

theorem sync_begin (h : Idle s) {t : ℕ} (hb : walBegin s = .ok t s') : Sync (LogInv.any K t) s.page ∅ s' := by
  cases hb
  exact ⟨fun _ _ _ => rfl, trivial, rfl, ⟨_, h.header⟩, h.header, h.pages⟩

theorem holds_begin (h : Holds s μ) {t : ℕ} (hb : walBegin s = .ok t s') : Holds s' μ ∧ s'.fixed = s.fixed := by
  cases hb
  exact ⟨⟨h.view, h.root, h.chain, h.nodup, h.listed, h.pages⟩, rfl⟩

/-- **The copy `commit` makes changes no page but page 0**, which becomes the header. -/
theorem holds_commit (h : Sync I old ∅ s) (hs : Holds s μ) (hc : walCommit txn s = .ok () s') :
    Idle s' ∧ Holds s' μ ∧ s'.fixed = s.fixed := by
  have hframe := commit_frames h hc
  cases hc
  refine ⟨⟨h.header, h.pages⟩, ?_⟩
  exact holds_congr hs hframe h.isHeader ⟨_, h.header⟩ rfl rfl rfl

/-- A body in a transaction of its own. -/
def own (body : ℕ → M K Unit) : M K Unit := do
  let txn ← walBegin
  body txn
  walCommit txn

/-- **A body in its own transaction** does to the memory what it does in any. -/
theorem wp_own {b : ℕ → M K Unit} {E : Err K → Prop} {Q : Unit → Mem K → Prop} (hi : Idle s) (hs : Holds s μ)
    (hcall : ∀ (t : ℕ) (old : PageId → Page K) (s : Store K), Sync (LogInv.any K t) old ∅ s →
      CallOK (LogInv.any K t) old (b t) s)
    (hrun : ∀ t, Run μ (b t) E Q) :
    wp (own b) (fun e s' => E e ∧ (e.isRefusal = true → Idle s' ∧ Holds s' μ ∧ s'.fixed = s.fixed))
      (fun _ s' => Idle s' ∧ s'.fixed = s.fixed ∧ ∃ μ', Holds s' μ' ∧ Q () μ') s := by
  unfold own
  have hb : ∃ t s₁, walBegin s = .ok t s₁ := ⟨_, _, rfl⟩
  obtain ⟨t, s₁, hb⟩ := hb
  obtain ⟨hs₁, hfix⟩ := holds_begin hs hb
  have hsync := sync_begin hi hb
  have hi₁ : Idle s₁ := by cases hb; exact ⟨hi.header, hi.pages⟩
  rw [wp_bind]
  refine (show wp walBegin _ _ s from ?_)
  unfold wp
  rw [hb]
  show wp (b t >>= fun _ => walCommit t) _ _ s₁
  rw [wp_bind]
  refine wp_mono (wp_and (hcall t s.page s₁ hsync) (hrun t s₁ hs₁)) ?_ ?_
  · rintro ⟨⟩ s₂ ⟨hsync₂, μ', hs₂, hfix₂, hQ⟩
    obtain ⟨hi', hs', hfix'⟩ := holds_commit hsync₂ hs₂ rfl
    exact ⟨hi', hfix'.trans (hfix₂.trans hfix), μ', hs', hQ⟩
  · rintro e s₂ ⟨hsame, hE⟩
    refine ⟨hE, fun hr => ?_⟩
    rw [hsame hr]
    exact ⟨hi₁, hs₁, hfix⟩

end GSDBEngine
