import Mathlib.Data.List.Basic
import Mathlib.Algebra.Order.Ring.Nat
import Mathlib.Tactic.Common

/-!
# A buffer, read by position

A reader has a buffer and a position in it. To read outside of the buffer is a fault: it has no result, and it is not an error
that the program could throw.

* `Fault`, `BufferM`, `copy`, `need`: the readers, with the test for the end that a careful one makes first.
* `Reads m w x`: **`m` reads exactly `w`**, wherever it is in a buffer, and returns `x`.
* `Tracks m r`: **`m` never reads outside**, and does by position what `r` does to the list of what is left.
* `store`, `window`: symbols written over those of a buffer, and what a part of it is then.
-/

namespace Buffer

/-- How a reader ends that does not return. -/
inductive Fault (ε : Type) where
  | threw (e : ε)
  | outside
  deriving DecidableEq

/-- Of the symbols of a buffer, from a position on. -/
abbrev BufferM (B ε : Type) := ReaderT (List B) (StateT ℕ (Except (Fault ε)))

variable {B ε α β : Type}

def fail (e : ε) : BufferM B ε α := fun _ _ => .error (.threw e)

/-- `n` symbols. -/
def copy (n : ℕ) : BufferM B ε (List B) := fun buf pos =>
  if pos + n ≤ buf.length then .ok ((buf.drop pos).take n, pos + n) else .error .outside

/-- `if (pos + n > buf.size()) throw e` -/
def need (n : ℕ) (e : ε) : BufferM B ε Unit := fun buf pos =>
  if pos + n > buf.length then .error (.threw e) else .ok ((), pos)

/-- `buf[i]`, of another buffer. -/
def index (l : List B) (i : ℕ) : BufferM B ε B := fun _ pos =>
  match l[i]? with
  | some b => .ok (b, pos)
  | none => .error .outside

/-- `n` items. -/
def times (item : BufferM B ε α) : ℕ → BufferM B ε (List α)
  | 0 => pure []
  | n + 1 => do
    let x ← item
    let xs ← times item n
    pure (x :: xs)

/-- `while (pos < end)`, for the items of a buffer that ends where it is full. Every item takes a symbol. -/
def until_end (item : BufferM B ε α) : ℕ → BufferM B ε (List α)
  | 0 => pure []
  | n + 1 => fun buf pos =>
    if pos < buf.length then
      (do
        let x ← item
        let xs ← until_end item n
        pure (x :: xs) : BufferM B ε (List α)) buf pos
    else .ok ([], pos)

theorem bind_run (m : BufferM B ε α) (f : α → BufferM B ε β) (buf : List B) (pos : ℕ) :
    (m >>= f) buf pos = m buf pos >>= fun p => f p.1 buf p.2 := rfl

theorem bind_returns {m : BufferM B ε α} {f : α → BufferM B ε β} {buf : List B} {pos pos' : ℕ} {a : α} (h : m buf pos = .ok (a, pos')) :
    (m >>= f) buf pos = f a buf pos' := by
  rw [bind_run, h]
  rfl

theorem bind_fails {m : BufferM B ε α} {f : α → BufferM B ε β} {buf : List B} {pos : ℕ} {e : Fault ε} (h : m buf pos = .error e) :
    (m >>= f) buf pos = .error e := by
  rw [bind_run, h]
  rfl

/-! ### Exactly so much -/

/-- It takes `w` from wherever it is and returns `x`. -/
def Reads (m : BufferM B ε α) (w : List B) (x : α) : Prop :=
  ∀ pre rest, m (pre ++ (w ++ rest)) pre.length = .ok (x, pre.length + w.length)

namespace Reads

variable {m : BufferM B ε α} {f : α → BufferM B ε β} {w w' : List B} {x : α} {y : β}

theorem pure (x : α) : Reads (Pure.pure x : BufferM B ε α) [] x := fun _ _ => rfl

theorem bind (h : Reads m w x) (h' : Reads (f x) w' y) : Reads (m >>= f) (w ++ w') y := by
  intro pre rest
  have hfirst := h pre (w' ++ rest)
  have hsecond := h' (pre ++ w) rest
  rw [List.append_assoc, List.length_append] at hsecond
  rw [List.append_assoc, bind_returns hfirst, hsecond, List.length_append, Nat.add_assoc]

/-- The last step changes the result. -/
theorem map {g : α → β} (h : Reads m w x) : Reads (m >>= fun a => Pure.pure (g a)) w (g x) := by
  have hbind : Reads (m >>= fun a => Pure.pure (g a)) (w ++ []) (g x) := h.bind (.pure (g x))
  rwa [List.append_nil] at hbind

theorem copy {n : ℕ} (h : w.length = n) : Reads (Buffer.copy n : BufferM B ε (List B)) w w := by
  intro pre rest
  have hfits : pre.length + n ≤ (pre ++ (w ++ rest)).length := by
    rw [List.length_append, List.length_append]
    omega
  unfold Buffer.copy
  rw [if_pos hfits, List.drop_left, ← h, List.take_left]

/-- One after the other, as many as there are. -/
theorem times {item : BufferM B ε α} {write : α → List B} : ∀ {xs : List α}, (∀ x ∈ xs, Reads item (write x) x) →
    Reads (Buffer.times item xs.length) (xs.flatMap write) xs
  | [], _ => .pure []
  | x :: xs, h => by
    have hx : Reads item (write x) x := h x List.mem_cons_self
    have ih : Reads (Buffer.times item xs.length) (xs.flatMap write) xs := times fun y hy => h y (List.mem_cons_of_mem x hy)
    exact hx.bind ih.map

/-- One after the other, to the end of the buffer. -/
theorem until_end {item : BufferM B ε α} {write : α → List B} (hpos : ∀ x, 0 < (write x).length) : ∀ (n : ℕ) (xs : List α) (pre : List B),
    (∀ x ∈ xs, Reads item (write x) x) → xs.length < n →
      Buffer.until_end item n (pre ++ xs.flatMap write) pre.length = .ok (xs, pre.length + (xs.flatMap write).length)
  | 0, _, _, _, hn => absurd hn (Nat.not_lt_zero _)
  | n + 1, [], pre, _, _ => by
    have hend : ¬ pre.length < (pre ++ ([] : List α).flatMap write).length := by
      rw [List.flatMap_nil, List.append_nil]
      exact Nat.lt_irrefl _
    exact if_neg hend
  | n + 1, x :: xs, pre, h, hn => by
    have hx : Reads item (write x) x := h x List.mem_cons_self
    have ih := until_end hpos n xs (pre ++ write x) (fun y hy => h y (List.mem_cons_of_mem _ hy)) (Nat.lt_of_succ_lt_succ hn)
    rw [List.append_assoc, List.length_append] at ih
    have hmore : pre.length < (pre ++ (x :: xs).flatMap write).length := by
      have := hpos x
      rw [List.flatMap_cons, List.length_append, List.length_append]
      omega
    unfold Buffer.until_end
    rw [if_pos hmore, List.flatMap_cons, bind_returns (hx pre (xs.flatMap write)), bind_returns ih, List.length_append, Nat.add_assoc]
    rfl

end Reads

/-! ### Never outside -/

/-- By position, what `r` does to the symbols that are left. -/
structure Tracks (m : BufferM B ε α) (r : List B → Except ε (α × List B)) : Prop where
  throws : ∀ {buf : List B} {pos : ℕ} {e : ε}, pos ≤ buf.length → r (buf.drop pos) = .error e → m buf pos = .error (.threw e)
  returns : ∀ {buf : List B} {pos : ℕ} {a : α} {rest : List B}, pos ≤ buf.length → r (buf.drop pos) = .ok (a, rest) →
    ∃ pos', m buf pos = .ok (a, pos') ∧ rest = buf.drop pos' ∧ pos' ≤ buf.length

namespace Tracks

variable {m : BufferM B ε α} {r : List B → Except ε (α × List B)} {f : α → BufferM B ε β} {g : α → List B → Except ε (β × List B)}

theorem pure (x : α) : Tracks (Pure.pure x : BufferM B ε α) fun rest => .ok (x, rest) := by
  refine ⟨fun _ h => ?_, fun {buf pos a rest} hpos h => ?_⟩
  · cases h
  · obtain ⟨rfl, rfl⟩ := Prod.mk.inj (Except.ok.inj h)
    exact ⟨pos, rfl, rfl, hpos⟩

theorem bind (hm : Tracks m r) (hf : ∀ a, Tracks (f a) (g a)) : Tracks (m >>= f) fun rest => r rest >>= fun p => g p.1 p.2 := by
  refine ⟨fun {buf pos e} hpos h => ?_, fun {buf pos b rest} hpos h => ?_⟩
  · cases hr : r (buf.drop pos) with
    | error e' =>
      rw [hr] at h
      cases h
      exact bind_fails (hm.throws hpos hr)
    | ok p =>
      obtain ⟨pos', hm', hrest, hpos'⟩ := hm.returns hpos hr
      rw [hr] at h
      rw [bind_returns hm']
      refine (hf p.1).throws hpos' ?_
      rw [← hrest]
      exact h
  · cases hr : r (buf.drop pos) with
    | error e' =>
      rw [hr] at h
      cases h
    | ok p =>
      obtain ⟨pos', hm', hrest, hpos'⟩ := hm.returns hpos hr
      rw [hr] at h
      rw [bind_returns hm']
      refine (hf p.1).returns hpos' ?_
      rw [← hrest]
      exact h

theorem congr {r' : List B → Except ε (α × List B)} (h : Tracks m r) (hr : ∀ rest, r' rest = r rest) : Tracks m r' := by
  rw [funext hr]
  exact h

/-- The test, and then what it is for. -/
theorem need_copy {h : List B → BufferM B ε β} {k : List B → List B → Except ε (β × List B)} (n : ℕ) (e : ε) (hf : ∀ w, Tracks (h w) (k w)) :
    Tracks (do need n e; let w ← copy n; h w : BufferM B ε β) fun rest =>
      if n ≤ rest.length then k (rest.take n) (rest.drop n) else .error e := by
  have hneed : ∀ {buf : List B} {pos : ℕ}, pos ≤ buf.length → (n ≤ (buf.drop pos).length ↔ pos + n ≤ buf.length) := by
    intro buf pos hpos
    rw [List.length_drop]
    omega
  have htaken : ∀ {buf : List B} {pos : ℕ}, pos + n ≤ buf.length →
      (do need n e; let w ← copy n; h w : BufferM B ε β) buf pos = h ((buf.drop pos).take n) buf (pos + n) := by
    intro buf pos hfits
    have htest : (need n e : BufferM B ε Unit) buf pos = .ok ((), pos) := if_neg (Nat.not_lt.2 hfits)
    have hcopy : (copy n : BufferM B ε (List B)) buf pos = .ok ((buf.drop pos).take n, pos + n) := if_pos hfits
    rw [bind_returns htest, bind_returns hcopy]
  refine ⟨fun {buf pos e'} hpos hr => ?_, fun {buf pos a rest} hpos hr => ?_⟩
  · by_cases hn : n ≤ (buf.drop pos).length
    · have hfits : pos + n ≤ buf.length := (hneed hpos).1 hn
      rw [if_pos hn, List.drop_drop] at hr
      rw [htaken hfits]
      exact (hf _).throws hfits hr
    · rw [if_neg hn] at hr
      cases hr
      have hfail : pos + n > buf.length := Nat.lt_of_not_le fun hle => hn ((hneed hpos).2 hle)
      exact bind_fails (if_pos hfail)
  · by_cases hn : n ≤ (buf.drop pos).length
    · have hfits : pos + n ≤ buf.length := (hneed hpos).1 hn
      rw [if_pos hn, List.drop_drop] at hr
      rw [htaken hfits]
      exact (hf _).returns hfits hr
    · rw [if_neg hn] at hr
      cases hr

theorem index {l : List B} {i : ℕ} {b : B} (h : l[i]? = some b) : Tracks (Buffer.index l i : BufferM B ε B) fun rest => .ok (b, rest) := by
  have hindex : (Buffer.index l i : BufferM B ε B) = Pure.pure b := by
    funext buf pos
    unfold Buffer.index
    rw [h]
    rfl
  rw [hindex]
  exact .pure b

end Tracks

/-! ### Writes -/

variable {buf w w' : List B} {pos off n : ℕ}

/-- `w` over the symbols from `pos` on. -/
def store (buf : List B) (pos : ℕ) (w : List B) : List B := buf.take pos ++ (w ++ buf.drop (pos + w.length))

/-- `n` symbols from `off` on. -/
def window (buf : List B) (off n : ℕ) : List B := (buf.drop off).take n

theorem store_nil (buf : List B) (pos : ℕ) : store buf pos [] = buf := List.take_append_drop pos buf

theorem length_store (h : pos + w.length ≤ buf.length) : (store buf pos w).length = buf.length := by
  rw [store, List.length_append, List.length_append, List.length_take, List.length_drop]
  omega

theorem take_store (h : pos + w.length ≤ buf.length) : (store buf pos w).take pos = buf.take pos := by
  have hlen : (buf.take pos).length = pos := List.length_take_of_le (by omega)
  rw [store]
  exact List.take_left' hlen

theorem drop_store (h : pos + w.length ≤ buf.length) : (store buf pos w).drop (pos + w.length) = buf.drop (pos + w.length) := by
  have hlen : (buf.take pos ++ w).length = pos + w.length := by
    rw [List.length_append, List.length_take]
    omega
  rw [store, ← List.append_assoc]
  exact List.drop_left' hlen

/-- A write behind a write. -/
theorem store_store (h : pos + w.length ≤ buf.length) : store (store buf pos w) (pos + w.length) w' = store buf pos (w ++ w') := by
  have htake : (store buf pos w).take (pos + w.length) = buf.take pos ++ w := by
    have hlen : (buf.take pos ++ w).length = pos + w.length := by
      rw [List.length_append, List.length_take]
      omega
    rw [store, ← List.append_assoc]
    exact List.take_left' hlen
  have hdrop : (store buf pos w).drop (pos + w.length + w'.length) = buf.drop (pos + (w ++ w').length) := by
    rw [← List.drop_drop, drop_store h, List.drop_drop, List.length_append, Nat.add_assoc]
  conv_lhs => rw [store, htake, hdrop]
  rw [store, List.append_assoc, List.append_assoc]

/-- A write before a write. -/
theorem store_before (h : pos + w.length ≤ buf.length) (hw' : off + w'.length = pos) :
    store (store buf pos w) off w' = store buf off (w' ++ w) := by
  have htake : (store buf pos w).take off = buf.take off := by
    have hle : off ≤ pos := by omega
    have hshort := congrArg (List.take off) (take_store h)
    rwa [List.take_take, List.take_take, Nat.min_eq_left hle] at hshort
  have hdrop : (store buf pos w).drop pos = w ++ buf.drop (pos + w.length) := by
    rw [store]
    exact List.drop_left' (List.length_take_of_le (by omega))
  conv_lhs => rw [store, htake, hw', hdrop]
  rw [store, List.append_assoc, List.length_append, ← Nat.add_assoc, hw']

theorem window_store_self (h : pos + w.length ≤ buf.length) : window (store buf pos w) pos w.length = w := by
  have hdrop : (store buf pos w).drop pos = w ++ buf.drop (pos + w.length) := by
    rw [store]
    exact List.drop_left' (List.length_take_of_le (by omega))
  rw [window, hdrop, List.take_left]

/-- What a write leaves alone. -/
theorem window_store (h : pos + w.length ≤ buf.length) (hdisjoint : off + n ≤ pos ∨ pos + w.length ≤ off) :
    window (store buf pos w) off n = window buf off n := by
  rcases hdisjoint with hbefore | hbehind
  · have htake : ∀ l : List B, window l off n = window (l.take pos) off n := by
      intro l
      rw [window, window, List.drop_take, List.take_take, Nat.min_eq_left (by omega)]
    rw [htake, take_store h, ← htake]
  · obtain ⟨k, rfl⟩ := Nat.exists_eq_add_of_le hbehind
    rw [window, window, ← List.drop_drop, drop_store h, List.drop_drop]

end Buffer
