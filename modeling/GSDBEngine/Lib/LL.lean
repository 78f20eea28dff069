import GSDBEngine.Lib.Eff
import Mathlib.Algebra.Order.Ring.Nat

/-!
# Parsers that look one token ahead

A grammar says which lists of tokens stand for what. A parser takes tokens from the front of a list; it is exact for a grammar if
what it takes is in the grammar, and if it takes what is in the grammar wherever the next token is not one that it would go on with.

* `Exact.bind`: **a sequence is exact** if what follows does not open with a token that the first part goes on with.
* `Exact.look`, `Exact.take`: a choice by the next token.
* `while_exact`: **a loop is exact** for the rounds of its grammar, folded from the left.
* `UpTo`: grammars that agree on short lists. `Yields`: what a grammar says of its results. `Writes`: the words that are always in it.
-/

namespace LL

open Eff

/-- The kind of a token, and the kind that is seen behind the last one. -/
class Kinds (τ : Type) (κ : outParam Type) where
  kind : τ → κ
  eof : κ

export Kinds (kind)

variable {τ κ ε α β ι : Type} [Kinds τ κ]

/-! ### Grammars -/

/-- Lists of tokens, and what they stand for. -/
def Grammar (τ α : Type) := List τ → α → Prop

instance : Monad (Grammar τ) where
  pure a := fun c b => c = [] ∧ b = a
  bind G H := fun c b => ∃ a c₁ c₂, c = c₁ ++ c₂ ∧ G c₁ a ∧ H a c₂ b

namespace Grammar

def alt (G H : Grammar τ α) : Grammar τ α := fun c a => G c a ∨ H c a

def fail : Grammar τ α := fun _ _ => False

/-- A result, if there is one. -/
def lift (x : Except ε α) : Grammar τ α := fun c a => c = [] ∧ x = .ok a

/-- A token of a kind. -/
def token (k : κ) : Grammar τ τ := fun c t => c = [t] ∧ kind t = k

/-- A token of the kind of an entry. -/
def one_of (table : List (κ × β)) : Grammar τ (κ × β) := fun c e => e ∈ table ∧ ∃ t, c = [t] ∧ kind t = e.1

/-- One after the other. -/
inductive Many (G : Grammar τ α) : Grammar τ (List α)
  | nil : Many G [] []
  | cons {c c' : List τ} {a : α} {as : List α} (first : G c a) (rest : Many G c' as) : Many G (c ++ c') (a :: as)

/-- `operand k operand k ... operand`, from the left. -/
def chain (k : κ) (node : α → α → α) (operand : Grammar τ α) : Grammar τ α := do
  let left ← operand
  let rights ← Many (do let _ ← token k; operand)
  pure (rights.foldl node left)

/-- `item k item k ... item`. -/
def separated (k : κ) (item : Grammar τ α) : Grammar τ (List α) := do
  let first ← item
  let others ← Many (do let _ ← token k; item)
  pure (first :: others)

end Grammar

open Grammar

variable {G G' : Grammar τ α} {H H' : α → Grammar τ β} {a : α} {b : β} {c : List τ}

theorem bind_intro {c₁ c₂ : List τ} (h : G c₁ a) (h' : H a c₂ b) : (G >>= H) (c₁ ++ c₂) b := ⟨a, c₁, c₂, rfl, h, h'⟩

theorem alt_assoc (G G' G₁ : Grammar τ α) : (G.alt G').alt G₁ = G.alt (G'.alt G₁) := funext fun _ => funext fun _ => propext or_assoc

theorem alt_fail (G : Grammar τ α) : G.alt fail = G := funext fun _ => funext fun _ => or_false _

/-- A token, and what is behind it. -/
theorem token_bind_iff {k : κ} {f : τ → Grammar τ β} : (token k >>= f) c b ↔ ∃ t c', c = t :: c' ∧ kind t = k ∧ f t c' b := by
  constructor
  · rintro ⟨t, _, c', rfl, ⟨rfl, ht⟩, h⟩
    exact ⟨t, c', rfl, ht, h⟩
  · rintro ⟨t, c', rfl, ht, h⟩
    exact ⟨t, [t], c', rfl, ⟨rfl, ht⟩, h⟩

theorem bind_pure_iff {f : α → β} : (G >>= fun a => pure (f a)) c b ↔ ∃ a, G c a ∧ b = f a := by
  constructor
  · rintro ⟨a, c₁, _, rfl, h, rfl, rfl⟩
    rw [List.append_nil]
    exact ⟨a, h, rfl⟩
  · rintro ⟨a, h, rfl⟩
    exact ⟨a, c, [], (List.append_nil c).symm, h, rfl, rfl⟩

theorem bind_pure_self (G : Grammar τ α) : (G >>= fun a => pure a) = G := by
  funext c a
  refine propext ⟨fun h => ?_, fun h => bind_pure_iff.2 ⟨a, h, rfl⟩⟩
  obtain ⟨b, hb, rfl⟩ := bind_pure_iff.1 h
  exact hb

theorem bind_bind {γ : Type} (G : Grammar τ α) (H : α → Grammar τ β) (J : β → Grammar τ γ) :
    ((G >>= H) >>= J) = G >>= fun a => H a >>= J := by
  funext c d
  refine propext ⟨fun h => ?_, fun h => ?_⟩
  · obtain ⟨b, _, c₃, rfl, ⟨a, c₁, c₂, rfl, h₁, h₂⟩, h₃⟩ := h
    exact ⟨a, c₁, c₂ ++ c₃, List.append_assoc .., h₁, bind_intro h₂ h₃⟩
  · obtain ⟨a, c₁, _, rfl, h₁, b, c₂, c₃, rfl, h₂, h₃⟩ := h
    exact ⟨b, c₁ ++ c₂, c₃, (List.append_assoc ..).symm, bind_intro h₁ h₂, h₃⟩

/-- A result is changed before it is used. -/
theorem map_bind {γ : Type} (G : Grammar τ α) (g : α → β) (H : β → Grammar τ γ) :
    ((G >>= fun a => pure (g a)) >>= H) = G >>= fun a => H (g a) := by
  funext c d
  refine propext ⟨fun h => ?_, fun h => ?_⟩
  · obtain ⟨b, c₁, c₂, rfl, h₁, h₂⟩ := h
    obtain ⟨a, ha, rfl⟩ := bind_pure_iff.1 h₁
    exact ⟨a, c₁, c₂, rfl, ha, h₂⟩
  · obtain ⟨a, c₁, c₂, rfl, h₁, h₂⟩ := h
    exact ⟨g a, c₁, c₂, rfl, bind_pure_iff.2 ⟨a, h₁, rfl⟩, h₂⟩

theorem Grammar.Many.snoc {c' : List τ} {as : List α} (h : Many G c as) (h' : G c' a) : Many G (c ++ c') (as ++ [a]) := by
  induction h with
  | nil =>
    have hone := Many.cons h' Many.nil
    rwa [List.append_nil] at hone
  | cons first rest ih =>
    rw [List.append_assoc]
    exact .cons first ih

theorem Grammar.Many.forall {P : α → Prop} {as : List α} (h : Many G c as) (hG : ∀ c a, G c a → P a) : ∀ a ∈ as, P a := by
  induction h with
  | nil => exact fun _ hm => absurd hm List.not_mem_nil
  | cons first rest ih =>
    intro a hm
    rcases List.mem_cons.1 hm with rfl | hm
    · exact hG _ _ first
    · exact ih a hm

/-! ### What comes first -/

section first

variable {T T' L L' K : List κ}

/-- The kind of the next token. -/
def next (toks : List τ) : κ := (toks.head?.map kind).getD (Kinds.eof τ)

/-- The next token is of none of these kinds. -/
def Stops (L : List κ) (toks : List τ) : Prop := next toks ∉ L

/-- There is a first token, of one of these kinds. -/
def Opens (G : Grammar τ α) (T : List κ) : Prop := ∀ c a, G c a → ∃ t c', c = t :: c' ∧ kind t ∈ T

/-- If there is a first token, then it is of one of these kinds. -/
def MayOpen (G : Grammar τ α) (T : List κ) : Prop := ∀ c a, G c a → c = [] ∨ ∃ t c', c = t :: c' ∧ kind t ∈ T

/-- Before a rest that `L` stops, it is stopped by `K`. -/
def Follow (G : Grammar τ α) (L K : List κ) : Prop := ∀ c a rest, G c a → Stops L rest → Stops K (c ++ rest)

theorem Stops.mono {toks : List τ} (h : Stops L' toks) (hL : ∀ k ∈ L, k ∈ L') : Stops L toks := fun hm => h (hL _ hm)

theorem stops_nil {toks : List τ} : Stops [] toks := List.not_mem_nil

theorem Opens.mono (h : Opens G T) (hT : ∀ k ∈ T, k ∈ T') : Opens G T' := by
  intro c a hc
  obtain ⟨t, c', rfl, ht⟩ := h c a hc
  exact ⟨t, c', rfl, hT _ ht⟩

theorem MayOpen.mono (h : MayOpen G T) (hT : ∀ k ∈ T, k ∈ T') : MayOpen G T' := by
  intro c a hc
  rcases h c a hc with rfl | ⟨t, c', rfl, ht⟩
  · exact .inl rfl
  · exact .inr ⟨t, c', rfl, hT _ ht⟩

theorem opens_token (k : κ) : Opens (token k : Grammar τ τ) [k] := by
  rintro c t ⟨rfl, rfl⟩
  exact ⟨t, [], rfl, List.mem_singleton_self _⟩

theorem opens_one_of (table : List (κ × β)) : Opens (one_of table : Grammar τ (κ × β)) (table.map Prod.fst) := by
  rintro c e ⟨he, t, rfl, ht⟩
  refine ⟨t, [], rfl, ?_⟩
  rw [ht]
  exact List.mem_map_of_mem he

theorem opens_fail : Opens (fail : Grammar τ α) T := fun _ _ h => h.elim

theorem mayOpen_pure : MayOpen (pure a : Grammar τ α) ([] : List κ) := fun _ _ h => .inl h.1

theorem Opens.may (h : Opens G T) : MayOpen G T := fun c a hc => .inr (h c a hc)

theorem Opens.alt (h : Opens G T) (h' : Opens G' T') : Opens (G.alt G') (T ++ T') := by
  rintro c a (hc | hc)
  · exact h.mono (fun k hk => List.mem_append_left _ hk) c a hc
  · exact h'.mono (fun k hk => List.mem_append_right _ hk) c a hc

theorem MayOpen.alt (h : MayOpen G T) (h' : MayOpen G' T') : MayOpen (G.alt G') (T ++ T') := by
  rintro c a (hc | hc)
  · exact h.mono (fun k hk => List.mem_append_left _ hk) c a hc
  · exact h'.mono (fun k hk => List.mem_append_right _ hk) c a hc

theorem Opens.bind (h : Opens G T) : Opens (G >>= H) T := by
  rintro c b ⟨a, c₁, c₂, rfl, h₁, -⟩
  obtain ⟨t, c', rfl, ht⟩ := h c₁ a h₁
  exact ⟨t, c' ++ c₂, rfl, ht⟩

theorem MayOpen.bind (h : MayOpen G T) (hH : ∀ a, MayOpen (H a) T') : MayOpen (G >>= H) (T ++ T') := by
  rintro c b ⟨a, c₁, c₂, rfl, h₁, h₂⟩
  rcases h c₁ a h₁ with rfl | ⟨t, c', rfl, ht⟩
  · exact (hH a).mono (fun k hk => List.mem_append_right _ hk) c₂ b h₂
  · exact .inr ⟨t, c' ++ c₂, rfl, List.mem_append_left _ ht⟩

theorem mayOpen_many (h : Opens G T) : MayOpen (Many G) T := by
  intro c as hc
  cases hc with
  | nil => exact .inl rfl
  | cons first rest =>
    obtain ⟨t, c', rfl, ht⟩ := h _ _ first
    exact .inr ⟨t, _, rfl, ht⟩

theorem Opens.follow (h : Opens G T) (hT : ∀ k ∈ T, k ∉ K) : Follow G L K := by
  intro c a rest hc _
  obtain ⟨t, c', rfl, ht⟩ := h c a hc
  exact hT _ ht

theorem MayOpen.follow (h : MayOpen G T) (hT : ∀ k ∈ T, k ∉ K) (hK : ∀ k ∈ K, k ∈ L) : Follow G L K := by
  intro c a rest hc hrest
  rcases h c a hc with rfl | ⟨t, c', rfl, ht⟩
  · exact hrest.mono hK
  · exact hT _ ht

theorem follow_fail : Follow (fail : Grammar τ α) L K := fun _ _ _ hc _ => False.elim hc

theorem follow_pure (hK : ∀ k ∈ K, k ∈ L) : Follow (pure a : Grammar τ α) L K :=
  mayOpen_pure.follow (fun _ hk => absurd hk List.not_mem_nil) hK

end first

/-! ### Exact parsers -/

/-- What is taken is in the grammar, and what is in the grammar is taken, unless the parser goes on: with a token of `L`. -/
structure Exact (p : EStateM ε (List τ) α) (G : Grammar τ α) (L : List κ) : Prop where
  sound : ∀ {toks rest : List τ} {a : α}, p toks = .ok a rest → ∃ c, toks = c ++ rest ∧ G c a
  complete : ∀ {c rest : List τ} {a : α}, G c a → Stops L rest → p (c ++ rest) = .ok a rest

variable {p q : EStateM ε (List τ) α} {f : α → EStateM ε (List τ) β} {L L' K : List κ} {k : κ}

theorem run_then {s s' : List τ} (h : p s = .ok a s') : (p >>= f) s = f a s' := by
  show EStateM.bind p f s = _
  unfold EStateM.bind
  rw [h]

namespace Exact

theorem mono (h : Exact p G L) (hL : ∀ k ∈ L, k ∈ L') : Exact p G L' := ⟨h.sound, fun hc hrest => h.complete hc (hrest.mono hL)⟩

theorem pure (a : α) : Exact (pure a : EStateM ε (List τ) α) (pure a) L := by
  refine ⟨fun {toks rest b} h => ?_, fun {c rest b} hc _ => ?_⟩
  · cases h
    exact ⟨[], rfl, rfl, rfl⟩
  · obtain ⟨rfl, rfl⟩ := hc
    rfl

theorem liftE (x : Except ε α) : Exact (Eff.liftE x : EStateM ε (List τ) α) (lift x) L := by
  refine ⟨fun {toks rest b} h => ?_, fun {c rest b} hc _ => ?_⟩
  · cases x with
    | error e => cases h
    | ok v =>
      cases h
      exact ⟨[], rfl, rfl, rfl⟩
  · obtain ⟨rfl, rfl⟩ := hc
    rfl

/-- It never returns. -/
theorem fail (h : ∀ toks a rest, p toks ≠ .ok a rest) : Exact p fail L :=
  ⟨fun hrun => absurd hrun (h _ _ _), fun hc _ => False.elim hc⟩

theorem of_alt_fail (h : Exact p (G.alt Grammar.fail) L) : Exact p G L := by rwa [alt_fail] at h

/-- A sequence, where the second part is nothing that the first one would go on with. -/
theorem bind (hp : Exact p G L) (hf : ∀ a, Exact (f a) (H a) L') (hfollow : ∀ a, Follow (H a) L' L) : Exact (p >>= f) (G >>= H) L' := by
  refine ⟨fun {toks rest b} h => ?_, fun {c rest b} hc hrest => ?_⟩
  · obtain ⟨a, mid, hpa, hfa⟩ := bind_ok h
    obtain ⟨c₁, rfl, h₁⟩ := hp.sound hpa
    obtain ⟨c₂, rfl, h₂⟩ := (hf a).sound hfa
    exact ⟨c₁ ++ c₂, (List.append_assoc ..).symm, a, c₁, c₂, rfl, h₁, h₂⟩
  · obtain ⟨a, c₁, c₂, rfl, h₁, h₂⟩ := hc
    rw [List.append_assoc, run_then (hp.complete h₁ (hfollow a c₂ b rest h₂ hrest))]
    exact (hf a).complete h₂ hrest

theorem bind_any (hp : Exact p G []) (hf : ∀ a, Exact (f a) (H a) L') : Exact (p >>= f) (G >>= H) L' :=
  hp.bind hf fun _ _ _ _ _ _ => stops_nil

/-- The last step changes the result. -/
theorem map (hp : Exact p G L) (g : α → β) : Exact (p >>= fun a => Pure.pure (g a)) (G >>= fun a => Pure.pure (g a)) L := by
  refine hp.bind (fun a => .pure _) fun a c b rest hc hrest => ?_
  obtain ⟨rfl, -⟩ := hc
  exact hrest

/-- A condition on the next token, which is not taken. -/
theorem look {cond : EStateM ε (List τ) Bool} [DecidableEq κ] (hcond : ∀ toks, cond toks = .ok (decide (next toks ∈ K)) toks)
    (hp : Exact p G L) (hq : Exact q G' L) (hG : Opens G K) (hG' : Follow G' L K) :
    Exact (cond >>= fun b => if b = true then p else q) (G.alt G') L := by
  refine ⟨fun {toks rest a} h => ?_, fun {c rest a} hc hrest => ?_⟩
  · rw [run_then (hcond toks)] at h
    by_cases hk : next toks ∈ K
    · rw [if_pos (decide_eq_true hk)] at h
      obtain ⟨c, rfl, hc⟩ := hp.sound h
      exact ⟨c, rfl, .inl hc⟩
    · rw [if_neg (by rw [decide_eq_false hk]; exact Bool.false_ne_true)] at h
      obtain ⟨c, rfl, hc⟩ := hq.sound h
      exact ⟨c, rfl, .inr hc⟩
  · rw [run_then (hcond _)]
    rcases hc with hc | hc
    · have hk : next (c ++ rest) ∈ K := by
        obtain ⟨t, c', rfl, ht⟩ := hG c a hc
        exact ht
      rw [if_pos (decide_eq_true hk)]
      exact hp.complete hc hrest
    · rw [if_neg (by rw [decide_eq_false (hG' c a rest hc hrest)]; exact Bool.false_ne_true)]
      exact hq.complete hc hrest

end Exact

/-- It takes a token of the kind, if that is next. -/
structure Takes (cond : EStateM ε (List τ) Bool) (k : κ) : Prop where
  yes : ∀ {t : τ} {rest : List τ}, kind t = k → cond (t :: rest) = .ok true rest
  no : ∀ {toks : List τ}, Stops [k] toks → cond toks = .ok false toks

variable {cond : EStateM ε (List τ) Bool}

/-- Whether there was such a token. -/
theorem Takes.cases [DecidableEq κ] (h : Takes cond k) (hk : k ≠ Kinds.eof τ) (toks : List τ) :
    (∃ t rest, toks = t :: rest ∧ kind t = k ∧ cond toks = .ok true rest) ∨ cond toks = .ok false toks := by
  by_cases hnext : next toks = k
  · cases toks with
    | nil => exact absurd hnext.symm hk
    | cons t rest => exact .inl ⟨t, rest, rfl, hnext, h.yes hnext⟩
  · exact .inr (h.no fun hm => hnext (List.mem_singleton.1 hm))

/-- A choice by a token that is taken. -/
theorem Exact.take [DecidableEq κ] (h : Takes cond k) (hk : k ≠ Kinds.eof τ) (hp : Exact p G L) (hq : Exact q G' L) (hG' : Follow G' L [k]) :
    Exact (cond >>= fun b => if b = true then p else q) ((token k >>= fun _ => G).alt G') L := by
  refine ⟨fun {toks rest a} hrun => ?_, fun {c rest a} hc hrest => ?_⟩
  · rcases h.cases hk toks with ⟨t, toks, rfl, ht, hcond⟩ | hcond
    · rw [run_then hcond, if_pos rfl] at hrun
      obtain ⟨c, rfl, hc⟩ := hp.sound hrun
      exact ⟨t :: c, rfl, .inl (token_bind_iff.2 ⟨t, c, rfl, ht, hc⟩)⟩
    · rw [run_then hcond, if_neg Bool.false_ne_true] at hrun
      obtain ⟨c, rfl, hc⟩ := hq.sound hrun
      exact ⟨c, rfl, .inr hc⟩
  · rcases hc with hc | hc
    · obtain ⟨t, c, rfl, ht, hc⟩ := token_bind_iff.1 hc
      rw [List.cons_append, run_then (h.yes ht), if_pos rfl]
      exact hp.complete hc hrest
    · rw [run_then (h.no (hG' c a rest hc hrest)), if_neg Bool.false_ne_true]
      exact hq.complete hc hrest

/-! ### Loops -/

section loop

variable (cond : EStateM ε (List τ) Bool) (item : EStateM ε (List τ) ι) (node : α → ι → α)

/-- `while (cond) left = node(left, item)`, so many times at most. -/
def while_loop : ℕ → α → EStateM ε (List τ) α
  | 0, a => pure a
  | n + 1, a => do
    if ← cond then
      let x ← item
      while_loop n (node a x)
    else pure a

/-- Each round takes a token, so there are no more rounds than tokens. -/
def repeat_while (a : α) : EStateM ε (List τ) α := do
  let toks ← get
  while_loop cond item node toks.length a

/-- The rounds of a loop; one opens with `K`. -/
structure Rounds (G : Grammar τ ι) (L K : List κ) : Prop where
  sound : ∀ {toks mid rest : List τ} {x : ι}, cond toks = .ok true mid → item mid = .ok x rest → ∃ c, toks = c ++ rest ∧ G c x
  complete : ∀ {c rest : List τ} {x : ι}, G c x → Stops L rest → ∃ mid, cond (c ++ rest) = .ok true mid ∧ item mid = .ok x rest
  opens : Opens G K
  leaves : ∀ {toks rest : List τ}, cond toks = .ok false rest → rest = toks
  halts : ∀ {rest : List τ}, Stops K rest → cond rest = .ok false rest

variable {cond item node} {G : Grammar τ ι} {as : List ι}

theorem Rounds.take [DecidableEq κ] (h : Takes cond k) (hk : k ≠ Kinds.eof τ) (hitem : Exact item G L) :
    Rounds cond item (token k >>= fun _ => G) L [k] := by
  refine ⟨fun {toks mid rest x} hcond hrun => ?_, fun {c rest x} hc hrest => ?_, (opens_token k).bind, fun {toks rest} hcond => ?_,
    fun hrest => h.no hrest⟩
  · rcases h.cases hk toks with ⟨t, toks, rfl, ht, hyes⟩ | hno
    · obtain rfl : toks = mid := by
        rw [hyes] at hcond
        cases hcond
        rfl
      obtain ⟨c, rfl, hc⟩ := hitem.sound hrun
      exact ⟨t :: c, rfl, token_bind_iff.2 ⟨t, c, rfl, ht, hc⟩⟩
    · rw [hno] at hcond
      cases hcond
  · obtain ⟨t, c, rfl, ht, hc⟩ := token_bind_iff.1 hc
    exact ⟨c ++ rest, h.yes ht, hitem.complete hc hrest⟩
  · rcases h.cases hk toks with ⟨t, toks, rfl, ht, hyes⟩ | hno
    · rw [hyes] at hcond
      cases hcond
    · rw [hno] at hcond
      cases hcond
      rfl

theorem Rounds.look [DecidableEq κ] (hcond : ∀ toks, cond toks = .ok (decide (next toks ∈ K)) toks) (hitem : Exact item G L)
    (hG : Opens G K) : Rounds cond item G L K := by
  refine ⟨fun {toks mid rest x} hyes hrun => ?_, fun {c rest x} hc hrest => ?_, hG, fun {toks rest} hno => ?_, fun {rest} hrest => ?_⟩
  · rw [hcond toks] at hyes
    obtain rfl : toks = mid := by
      injection hyes
    exact hitem.sound hrun
  · have hk : next (c ++ rest) ∈ K := by
      obtain ⟨t, c', rfl, ht⟩ := hG c x hc
      exact ht
    exact ⟨c ++ rest, by rw [hcond, decide_eq_true hk], hitem.complete hc hrest⟩
  · rw [hcond toks] at hno
    injection hno with _ hrest
    exact hrest.symm
  · rw [hcond, decide_eq_false hrest]

theorem while_sound (h : Rounds cond item G L K) : ∀ {n : ℕ} {a b : α} {toks rest : List τ}, while_loop cond item node n a toks = .ok b rest →
    ∃ c as, toks = c ++ rest ∧ Many G c as ∧ b = as.foldl node a
  | 0, a, b, toks, rest, hrun => by
    cases hrun
    exact ⟨[], [], rfl, .nil, rfl⟩
  | n + 1, a, b, toks, rest, hrun => by
    have ih := @while_sound h n
    unfold while_loop at hrun
    obtain ⟨go, mid, hcond, hgo⟩ := bind_ok hrun
    cases go with
    | true =>
      rw [if_pos rfl] at hgo
      obtain ⟨x, mid', hitem, hloop⟩ := bind_ok hgo
      obtain ⟨c, rfl, hx⟩ := h.sound hcond hitem
      obtain ⟨c', as, rfl, has, rfl⟩ := ih hloop
      exact ⟨c ++ c', x :: as, (List.append_assoc ..).symm, .cons hx has, rfl⟩
    | false =>
      rw [if_neg Bool.false_ne_true] at hgo
      obtain rfl := h.leaves hcond
      cases hgo
      exact ⟨[], [], rfl, .nil, rfl⟩

/-- The induction is on the rounds; another round, or the rest, stops each of them. -/
theorem while_complete (h : Rounds cond item G L K) (hagain : ∀ k ∈ K, k ∉ L) (hL : ∀ k ∈ L, k ∈ L') (hK : ∀ k ∈ K, k ∈ L') {c rest : List τ}
    (hc : Many G c as) (hrest : Stops L' rest) : ∀ n a, c.length ≤ n → while_loop cond item node n a (c ++ rest) = .ok (as.foldl node a) rest := by
  induction hc with
  | nil =>
    intro n a _
    cases n with
    | zero => rfl
    | succ n =>
      unfold while_loop
      rw [List.nil_append, run_then (h.halts (hrest.mono hK)), if_neg Bool.false_ne_true]
      rfl
  | @cons c c' x as first others ih =>
    intro n a hn
    have hpos : 0 < c.length := by
      obtain ⟨t, c₁, rfl, -⟩ := h.opens c x first
      exact Nat.succ_pos _
    rw [List.length_append] at hn
    obtain ⟨m, rfl⟩ : ∃ m, n = m + 1 := ⟨n - 1, by omega⟩
    have hstop : Stops L (c' ++ rest) := (mayOpen_many h.opens).follow hagain hL c' as rest others hrest
    obtain ⟨mid, hcond, hitem⟩ := h.complete first hstop
    unfold while_loop
    rw [List.append_assoc, run_then hcond, if_pos rfl, run_then hitem]
    exact ih m (node a x) (by omega)

theorem while_exact (h : Rounds cond item G L K) (hagain : ∀ k ∈ K, k ∉ L) (hL : ∀ k ∈ L, k ∈ L') (hK : ∀ k ∈ K, k ∈ L') (a : α) :
    Exact (repeat_while cond item node a) (Many G >>= fun as => pure (as.foldl node a)) L' := by
  refine ⟨fun {toks rest b} hrun => ?_, fun {c rest b} hc hrest => ?_⟩
  · obtain ⟨c, as, rfl, has, rfl⟩ := while_sound h hrun
    exact ⟨c, rfl, bind_pure_iff.2 ⟨as, has, rfl⟩⟩
  · obtain ⟨as, has, rfl⟩ := bind_pure_iff.1 hc
    have hlen : c.length ≤ (c ++ rest).length := by
      rw [List.length_append]
      omega
    exact while_complete h hagain hL hK has hrest _ a hlen

end loop

/-! ### Short lists -/

/-- On lists of up to `n` tokens. -/
def UpTo (n : ℕ) (G G' : Grammar τ α) : Prop := ∀ c a, c.length ≤ n → G c a → G' c a

namespace UpTo

variable {n : ℕ}

theorem refl (G : Grammar τ α) : UpTo n G G := fun _ _ _ hc => hc

theorem alt {G₁ G₁' : Grammar τ α} (h : UpTo n G G') (h₁ : UpTo n G₁ G₁') : UpTo n (G.alt G₁) (G'.alt G₁') :=
  fun c a hn hc => hc.imp (h c a hn) (h₁ c a hn)

theorem bind (h : UpTo n G G') (hH : ∀ a, UpTo n (H a) (H' a)) : UpTo n (G >>= H) (G' >>= H') := by
  rintro c b hn ⟨a, c₁, c₂, rfl, h₁, h₂⟩
  rw [List.length_append] at hn
  exact ⟨a, c₁, c₂, rfl, h c₁ a (by omega) h₁, hH a c₂ b (by omega) h₂⟩

theorem many (h : UpTo n G G') : UpTo n (Many G) (Many G') := by
  intro c as hn hc
  induction hc with
  | nil => exact .nil
  | cons first rest ih =>
    rw [List.length_append] at hn
    exact .cons (h _ _ (by omega) first) (ih (by omega))

theorem chain {node : α → α → α} (h : UpTo n G G') : UpTo n (G.chain k node) (G'.chain k node) :=
  h.bind fun _ => (many ((refl _).bind fun _ => h)).bind fun _ => refl _

/-- Behind a token the list is shorter. -/
theorem token {f f' : τ → Grammar τ β} (h : ∀ t, UpTo n (f t) (f' t)) : UpTo (n + 1) (Grammar.token k >>= f) (Grammar.token k >>= f') := by
  intro c b hn hc
  obtain ⟨t, c, rfl, ht, hc⟩ := token_bind_iff.1 hc
  rw [List.length_cons] at hn
  exact token_bind_iff.2 ⟨t, c, rfl, ht, h t c b (by omega) hc⟩

end UpTo

/-! ### Results -/

/-- Every result satisfies `P`. -/
def Yields (G : Grammar τ α) (P : α → Prop) : Prop := ∀ c a, G c a → P a

namespace Yields

variable {P P' : α → Prop} {R : β → Prop}

theorem any (G : Grammar τ α) : Yields G fun _ => True := fun _ _ _ => trivial

theorem pure (h : P a) : Yields (Pure.pure a : Grammar τ α) P := by
  rintro c b ⟨-, rfl⟩
  exact h

theorem one_of (table : List (κ × β)) : Yields (Grammar.one_of table : Grammar τ (κ × β)) (· ∈ table) := fun _ _ h => h.1

theorem alt (h : Yields G P) (h' : Yields G' P) : Yields (G.alt G') P := fun c a hc => hc.elim (h c a) (h' c a)

theorem bind (h : Yields G P) (hH : ∀ a, P a → Yields (H a) R) : Yields (G >>= H) R := by
  rintro c b ⟨a, c₁, c₂, rfl, h₁, h₂⟩
  exact hH a (h c₁ a h₁) c₂ b h₂

/-- Whatever is in front. -/
theorem behind (hH : ∀ a, Yields (H a) R) : Yields (G >>= H) R := (any G).bind fun a _ => hH a

theorem many (h : Yields G P) : Yields (Many G) fun as => ∀ a ∈ as, P a := fun _ _ hc => hc.forall h

theorem separated (h : Yields G P) : Yields (G.separated k) fun as => as ≠ [] ∧ ∀ a ∈ as, P a := by
  refine h.bind fun first hfirst => (many (behind fun _ => h)).bind fun others hothers => .pure ⟨List.cons_ne_nil _ _, fun a ha => ?_⟩
  rcases List.mem_cons.1 ha with rfl | ha
  · exact hfirst
  · exact hothers a ha

theorem chain {node : α → α → α} (h : Yields G P) (hleft : ∀ a, P a → P' a) (hnode : ∀ a b, P' a → P b → P' (node a b)) :
    Yields (G.chain k node) P' := by
  refine h.bind fun left hl => (many (behind fun _ => h)).bind fun rights hr => .pure ?_
  have hfold : ∀ (rights : List α) (left : α), P' left → (∀ a ∈ rights, P a) → P' (rights.foldl node left) := by
    intro rights
    induction rights with
    | nil => exact fun left hl _ => hl
    | cons a rights ih =>
      intro left hl hr
      exact ih _ (hnode left a hl (hr a List.mem_cons_self)) fun b hb => hr b (List.mem_cons_of_mem _ hb)
  exact hfold rights left (hleft left hl) hr

end Yields

/-! ### Words -/

/-- Tokens that read as the words are in the grammar, for the result. -/
def Writes {ω : Type} (word : τ → ω) (ws : List ω) (G : Grammar τ α) (a : α) : Prop := ∀ c, c.map word = ws → G c a

namespace Writes

variable {ω : Type} {word : τ → ω} {w : ω} {ws ws' : List ω}

theorem pure (a : α) : Writes word [] (Pure.pure a : Grammar τ α) a := fun _ hc => ⟨List.map_eq_nil_iff.1 hc, rfl⟩

theorem lift {x : Except ε α} (h : x = .ok a) : Writes word [] (Grammar.lift x : Grammar τ α) a := fun _ hc => ⟨List.map_eq_nil_iff.1 hc, h⟩

theorem left (h : Writes word ws G a) : Writes word ws (G.alt G') a := fun c hc => .inl (h c hc)

theorem right (h : Writes word ws G' a) : Writes word ws (G.alt G') a := fun c hc => .inr (h c hc)

theorem bind (h : Writes word ws G a) (h' : Writes word ws' (H a) b) : Writes word (ws ++ ws') (G >>= H) b := by
  intro c hc
  obtain ⟨c₁, c₂, rfl, h₁, h₂⟩ := List.map_eq_append_iff.1 hc
  exact ⟨a, c₁, c₂, rfl, h c₁ h₁, h' c₂ h₂⟩

theorem map {f : α → β} (h : Writes word ws G a) : Writes word ws (G >>= fun a => Pure.pure (f a)) (f a) :=
  fun c hc => bind_pure_iff.2 ⟨a, h c hc, rfl⟩

theorem token {f : τ → Grammar τ β} (hw : ∀ t, word t = w → kind t = k) (h : ∀ t, word t = w → Writes word ws (f t) b) :
    Writes word (w :: ws) (Grammar.token k >>= f) b := by
  intro c hc
  obtain ⟨t, c', rfl, ht, hc'⟩ := List.map_eq_cons_iff.1 hc
  exact token_bind_iff.2 ⟨t, c', rfl, hw t ht, h t ht c' hc'⟩

theorem one_of {table : List (κ × β)} {e : κ × β} (he : e ∈ table) (hw : ∀ t, word t = w → kind t = e.1) :
    Writes word [w] (Grammar.one_of table : Grammar τ (κ × β)) e := by
  intro c hc
  obtain ⟨t, c', rfl, ht, hnil⟩ := List.map_eq_cons_iff.1 hc
  obtain rfl := List.map_eq_nil_iff.1 hnil
  exact ⟨he, t, rfl, hw t ht⟩

/-- The words of each, one after the other. -/
theorem many {print : α → List ω} : ∀ {as : List α}, (∀ a ∈ as, Writes word (print a) G a) → Writes word (as.flatMap print) (Many G) as
  | [], _ => fun c hc => by
    obtain rfl := List.map_eq_nil_iff.1 hc
    exact .nil
  | a :: as, h => fun c hc => by
    rw [List.flatMap_cons] at hc
    obtain ⟨c₁, c₂, rfl, h₁, h₂⟩ := List.map_eq_append_iff.1 hc
    exact .cons (h a List.mem_cons_self c₁ h₁) (many (fun b hb => h b (List.mem_cons_of_mem _ hb)) c₂ h₂)

theorem separated {print : α → List ω} {as : List α} (hw : ∀ t, word t = w → kind t = k) (h : Writes word (print a) G a)
    (hs : ∀ a ∈ as, Writes word (print a) G a) :
    Writes word (print a ++ as.flatMap fun a => w :: print a) (G.separated k) (a :: as) :=
  h.bind (map (many fun b hb => token hw fun _ _ => hs b hb))

/-- A chain goes on to the right. -/
theorem chain {node : α → α → α} {a b : α} (hw : ∀ t, word t = w → kind t = k) (h : Writes word ws (G.chain k node) a)
    (h' : Writes word ws' G b) : Writes word (ws ++ w :: ws') (G.chain k node) (node a b) := by
  intro c hc
  obtain ⟨c₁, c₂, rfl, h₁, h₂⟩ := List.map_eq_append_iff.1 hc
  obtain ⟨t, c₂, rfl, ht, h₂⟩ := List.map_eq_cons_iff.1 h₂
  obtain ⟨left, d, e, rfl, hleft, htail⟩ := h c₁ h₁
  obtain ⟨rights, hrights, rfl⟩ := bind_pure_iff.1 htail
  rw [List.append_assoc]
  refine ⟨left, d, _, rfl, hleft, bind_pure_iff.2 ⟨rights ++ [b], ?_, ?_⟩⟩
  · exact hrights.snoc (token_bind_iff.2 ⟨t, c₂, rfl, hw t ht, h' c₂ h₂⟩)
  · rw [List.foldl_append]
    rfl

/-- A chain of one. -/
theorem single {node : α → α → α} (h : Writes word ws G a) : Writes word ws (G.chain k node) a := by
  intro c hc
  exact ⟨a, c, [], (List.append_nil c).symm, h c hc, bind_pure_iff.2 ⟨[], .nil, rfl⟩⟩

end Writes

end LL
