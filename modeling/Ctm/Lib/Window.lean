import Mathlib.Data.List.Basic
import Mathlib.Data.Nat.Notation

/-!
# Windows over a history, and filtered histories

A history is a list with its newest item first.  A consumer with window `w` reads the
newest item and the one `w` items earlier.  When only some items count, `select` keeps
those; the consumer reads the same pair of the whole history when the newest `w + 1`
items all count, and in general only then.

## Main definitions

* `pair xs w` — the newest item and the one `w` earlier.
* `select p xs` — the items whose flag is set.
* `pair_select` — the newest `w + 1` items count, so the pair is that of the selection.
* `le_of_select_set` — where a marked item can stand in a selection.
-/

namespace Window

variable {α β : Type*} {p : List Bool} {xs : List β} {w i : ℕ}

/-- The newest item and the one `w` earlier. -/
def pair (xs : List β) (w : ℕ) : Option (β × β) := do
  let a ← xs[0]?
  let b ← xs[w]?
  some (a, b)

/-- The items of `xs` whose flag in `p` is set. -/
def select : List Bool → List β → List β
  | b :: p, x :: xs => if b then x :: select p xs else select p xs
  | _, _ => []

theorem pair_eq_none (h : xs.length ≤ w) : pair xs w = none := by
  rw [pair, List.getElem?_eq_none h]
  cases xs[0]? with
  | none => rfl
  | some a => rfl

theorem getElem?_of_pair_eq_some {a b : β} (h : pair xs w = some (a, b)) : xs[w]? = some b := by
  simp only [pair, Option.bind_eq_bind, Option.bind_eq_some_iff] at h
  obtain ⟨a', -, b', hb, heq⟩ := h
  obtain ⟨-, rfl⟩ := Prod.mk.inj (Option.some.inj heq)
  exact hb

theorem select_map (f : α → Bool) (g : α → β) (l : List α) :
    select (l.map f) (l.map g) = (l.filter f).map g := by
  induction l with
  | nil => rfl
  | cons a l ih =>
      cases h : f a with
      | true => simp [select, h, ih]
      | false => simp [select, h, ih]

theorem length_select_le : (select p xs).length ≤ xs.length := by
  induction p generalizing xs with
  | nil => simp [select]
  | cons b p ih =>
      cases xs with
      | nil => simp [select]
      | cons x xs =>
          have := @ih xs
          cases b with
          | true => simpa [select] using this
          | false => simp only [select, List.length_cons]; simp; omega

/-- Items before which every flag is set keep their place. -/
theorem getElem?_select (hlen : xs.length = p.length) (h : ∀ b ∈ p.take (w + 1), b = true)
    (hi : i ≤ w) : (select p xs)[i]? = xs[i]? := by
  induction p generalizing xs w i with
  | nil =>
      obtain rfl : xs = [] := List.length_eq_zero_iff.mp hlen
      rfl
  | cons b p ih =>
      cases xs with
      | nil => simp at hlen
      | cons x xs =>
          have hb : b = true := h b (by simp)
          subst hb
          cases i with
          | zero => simp [select]
          | succ i =>
              cases w with
              | zero => omega
              | succ w =>
                  simp only [select, if_true, List.getElem?_cons_succ]
                  refine ih (by simpa using hlen) (fun b hb => h b ?_) (by omega : i ≤ w)
                  rw [List.take_succ_cons]
                  exact List.mem_cons_of_mem _ hb

/-- A selection that keeps the newest `w + 1` items keeps the pair. -/
theorem pair_select (hlen : xs.length = p.length)
    (h : p.length ≤ w ∨ ∀ b ∈ p.take (w + 1), b = true) : pair (select p xs) w = pair xs w := by
  rcases h with h | h
  · have hle : (select p xs).length ≤ xs.length := length_select_le
    have hxs : xs.length ≤ w := by omega
    rw [pair_eq_none hxs, pair_eq_none (Nat.le_trans hle hxs)]
  · rw [pair, pair, getElem?_select hlen h (Nat.zero_le w), getElem?_select hlen h (Nat.le_refl w)]

theorem select_replicate {n : ℕ} {y : β} (h : i < (select p (List.replicate n y)).length) :
    (select p (List.replicate n y))[i]? = some y := by
  induction p generalizing n i with
  | nil => simp [select] at h
  | cons b p ih =>
      cases n with
      | zero => simp [select] at h
      | succ n =>
          cases b with
          | false => simpa [List.replicate_succ, select] using ih (by
              simpa [List.replicate_succ, select] using h)
          | true =>
              cases i with
              | zero => simp [List.replicate_succ, select]
              | succ i =>
                  simpa [List.replicate_succ, select] using ih (by
                    simpa [List.replicate_succ, select] using h)

/-- An item marked at place `w` is selected to place `w` only when every flag up to `w` is
set, and never to a later place. -/
theorem le_of_select_set {n : ℕ} {x y : β} (hxy : x ≠ y) (hn : p.length ≤ n)
    (h : (select p ((List.replicate n y).set w x))[i]? = some x) :
    i ≤ w ∧ (i = w → ∀ b ∈ p.take (w + 1), b = true) := by
  have hmark : ∀ (q : List Bool) (k j : ℕ), (select q (List.replicate k y))[j]? ≠ some x := by
    intro q k j hj
    obtain ⟨hlt, -⟩ := List.getElem?_eq_some_iff.mp hj
    rw [select_replicate hlt] at hj
    exact hxy (Option.some.inj hj).symm
  induction p generalizing n w i with
  | nil => simp [select] at h
  | cons b p ih =>
      cases n with
      | zero => simp at hn
      | succ n =>
          rw [List.length_cons] at hn
          cases w with
          | zero =>
              rw [List.replicate_succ, List.set_cons_zero] at h
              cases b with
              | false => exact absurd (by simpa [select] using h) (hmark p n i)
              | true =>
                  cases i with
                  | zero => simp
                  | succ i => exact absurd (by simpa [select] using h) (hmark p n i)
          | succ w =>
              rw [List.replicate_succ, List.set_cons_succ] at h
              cases b with
              | false =>
                  obtain ⟨hle, -⟩ := ih (n := n) (w := w) (i := i) (by omega)
                    (by simpa [select] using h)
                  exact ⟨by omega, fun hi => absurd hi (by omega)⟩
              | true =>
                  cases i with
                  | zero =>
                      rw [select, if_pos rfl, List.getElem?_cons_zero] at h
                      exact absurd (Option.some.inj h).symm hxy
                  | succ i =>
                      obtain ⟨hle, htake⟩ := ih (n := n) (w := w) (i := i) (by omega)
                        (by simpa [select] using h)
                      refine ⟨by omega, ?_⟩
                      intro hi b hb
                      rw [List.take_succ_cons] at hb
                      cases hb with
                      | head => rfl
                      | tail _ hb => exact htake (by omega) b hb

end Window
