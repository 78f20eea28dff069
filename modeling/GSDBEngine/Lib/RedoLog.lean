import Mathlib.Data.List.Basic
import Mathlib.Algebra.Order.Ring.Nat
import Mathlib.Tactic.Common

/-!
# Redo logs

A log of page images and commit records, and what replaying it on a base makes of
every page: each commit, in log order, installs the last image its transaction
logged for the page, wherever in the log that image stands.

* `replay_pageWrite`, `replay_commit`: what one more record changes, for a
  transaction no commit record names yet.
-/

namespace RedoLog

/-- A frame of the log, over page images of type `P`. -/
inductive Record (P : Type) where
  | pageWrite (txn page : ℕ) (image : P)
  | commit (txn : ℕ)

variable {P : Type}

/-- The transaction a record belongs to. -/
def Record.txn : Record P → ℕ
  | pageWrite t _ _ => t
  | commit t => t

/-- The last image of page `p` logged by transaction `t`. -/
def imageOf (t p : ℕ) : List (Record P) → Option P
  | [] => none
  | .pageWrite t' p' im :: log => (imageOf t p log).or (if t' = t ∧ p' = p then some im else none)
  | .commit _ :: log => imageOf t p log

/-- The committed transactions, in the order of their commit records. -/
def commits : List (Record P) → List ℕ
  | [] => []
  | .pageWrite _ _ _ :: log => commits log
  | .commit t :: log => t :: commits log

/-- Page `p` after the transactions `ts` have been applied to the page `cur`. -/
def applyAll (log : List (Record P)) (p : ℕ) (ts : List ℕ) (cur : P) : P :=
  ts.foldl (fun cur t => (imageOf t p log).getD cur) cur

/-- The pages after replaying `log` on `base`. -/
def replay (log : List (Record P)) (base : ℕ → P) (p : ℕ) : P :=
  applyAll log p (commits log) (base p)

variable {log : List (Record P)} {t u p q : ℕ} {im : P} {base : ℕ → P}

theorem imageOf_append (t p : ℕ) (l l' : List (Record P)) :
    imageOf t p (l ++ l') = (imageOf t p l').or (imageOf t p l) := by
  induction l with
  | nil => simp [imageOf]
  | cons r l ih => cases r <;> simp [imageOf, ih, Option.or_assoc]

theorem commits_append (l l' : List (Record P)) : commits (l ++ l') = commits l ++ commits l' := by
  induction l with
  | nil => rfl
  | cons r l ih => cases r <;> simp [commits, ih]

theorem imageOf_pageWrite :
    imageOf t p (log ++ [.pageWrite u q im]) = if u = t ∧ q = p then some im else imageOf t p log := by
  rw [imageOf_append]
  by_cases h : u = t ∧ q = p <;> simp [imageOf, h]

theorem imageOf_commit : imageOf t p (log ++ [.commit u]) = imageOf t p log := by
  rw [imageOf_append]; rfl

theorem imageOf_eq_none (h : ∀ r ∈ log, r.txn ≠ t) : imageOf t p log = none := by
  induction log with
  | nil => rfl
  | cons r log ih =>
    have hr := h r (by simp)
    have htl := ih fun x hx => h x (by simp [hx])
    cases r with
    | pageWrite t' p' im =>
      have : t' ≠ t := hr
      simp [imageOf, htl, this]
    | commit t' => simpa [imageOf] using htl

theorem mem_of_imageOf (h : imageOf t p log = some im) : .pageWrite t p im ∈ log := by
  induction log with
  | nil => cases h
  | cons r log ih =>
    cases r with
    | pageWrite t' p' im' =>
      rcases Option.or_eq_some_iff.1 h with h | ⟨-, h⟩
      · exact List.mem_cons_of_mem _ (ih h)
      · obtain ⟨⟨rfl, rfl⟩, him⟩ := Option.ite_none_right_eq_some.1 h
        obtain rfl := Option.some.inj him
        exact List.mem_cons_self ..
    | commit t' => exact List.mem_cons_of_mem _ (ih h)

theorem imageOf_ne_none (h : .pageWrite t p im ∈ log) : imageOf t p log ≠ none := by
  induction log with
  | nil => cases h
  | cons r log ih =>
    rcases List.mem_cons.1 h with rfl | h
    · unfold imageOf
      rw [if_pos ⟨rfl, rfl⟩]
      cases imageOf t p log <;> simp
    · have hne := ih h
      cases r with
      | pageWrite t' p' im' =>
        obtain ⟨x, hx⟩ := Option.ne_none_iff_exists'.1 hne
        simp [imageOf, hx]
      | commit t' => exact hne

theorem mem_commits : t ∈ commits log ↔ Record.commit t ∈ log := by
  induction log with
  | nil => simp [commits]
  | cons r log ih => cases r <;> simp [commits, ih]

theorem applyAll_congr {log' : List (Record P)} {ts : List ℕ} (h : ∀ t ∈ ts, imageOf t p log' = imageOf t p log)
    (cur : P) : applyAll log' p ts cur = applyAll log p ts cur := by
  induction ts generalizing cur with
  | nil => rfl
  | cons t ts ih =>
    simp only [applyAll, List.foldl_cons, h t (by simp)]
    exact ih (fun u hu => h u (by simp [hu])) _

/-- A page image of a transaction that has not committed changes nothing. -/
theorem replay_pageWrite (h : t ∉ commits log) :
    replay (log ++ [.pageWrite t q im]) base p = replay log base p := by
  have hc : commits (log ++ [.pageWrite t q im]) = commits log := by simp [commits_append, commits]
  unfold replay
  rw [hc]
  refine applyAll_congr (fun u hu => ?_) _
  rw [imageOf_pageWrite, if_neg]
  rintro ⟨rfl, -⟩
  exact h hu

/-- A commit record installs the images of its transaction. -/
theorem replay_commit :
    replay (log ++ [.commit t]) base p = (imageOf t p log).getD (replay log base p) := by
  have hc : commits (log ++ [.commit t]) = commits log ++ [t] := by simp [commits_append, commits]
  unfold replay
  rw [hc]
  simp only [applyAll, List.foldl_append, List.foldl_cons, List.foldl_nil, imageOf_commit]

@[simp] theorem replay_nil : replay [] base = base := rfl

end RedoLog
