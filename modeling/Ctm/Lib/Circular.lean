import Mathlib.Data.Nat.ModEq
import Mathlib.Data.List.Basic

/-!
# Circular stores

Items written in turn to the slots `0, 1, .., cap - 1, 0, ..` of a store of `cap` slots:
item `i` goes to slot `i % cap`, and stays there until item `i + cap` comes.  So the
store always holds the last `cap` items of its history.

## Main definitions

* `HoldsLast cap slot xs` — the slots hold the last `cap` items of the history `xs`.
* `HoldsLast.push` — the next item goes to slot `xs.length % cap`.
* `back_mod` — stepping back from the newest slot reaches an older item.
-/

namespace Circular

variable {β : Type*} {cap : ℕ} {slot slot' : ℕ → Option β} {xs : List β}

/-- The slots hold the last `cap` items of the history. -/
def HoldsLast (cap : ℕ) (slot : ℕ → Option β) (xs : List β) : Prop :=
  ∀ i x, xs[i]? = some x → xs.length ≤ i + cap → slot (i % cap) = some x

theorem HoldsLast.nil : HoldsLast cap slot [] := by
  intro i x h
  simp at h

/-- Two items less than `cap` writes apart are in different slots. -/
theorem mod_ne {i n : ℕ} (hi : i < n) (hn : n < i + cap) : i % cap ≠ n % cap := by
  intro h
  have hdvd : cap ∣ n - i := (Nat.modEq_iff_dvd' (by omega)).mp h
  have := Nat.le_of_dvd (by omega) hdvd
  omega

/-- Writing the next item to its slot, and nothing else, keeps the last `cap` items. -/
theorem HoldsLast.push (H : HoldsLast cap slot xs) {x : β}
    (hx : slot' (xs.length % cap) = some x)
    (hframe : ∀ j, j ≠ xs.length % cap → slot' j = slot j) :
    HoldsLast cap slot' (xs ++ [x]) := by
  intro i y hy hi
  rw [List.length_append, List.length_singleton] at hi
  by_cases hlt : i < xs.length
  · rw [List.getElem?_append_left hlt] at hy
    rw [hframe _ (mod_ne hlt (by omega))]
    exact H i y hy (by omega)
  · have hle : i < (xs ++ [x]).length := (List.getElem?_eq_some_iff.mp hy).1
    rw [List.length_append, List.length_singleton] at hle
    obtain rfl : i = xs.length := by omega
    rw [List.getElem?_concat_length] at hy
    rw [hx, hy]

/-- Going `o` slots back from the slot of the newest of `n` items reaches the slot of the
item `o` writes earlier. -/
theorem back_mod {n o : ℕ} (hcap : o < cap) (ho : o < n) :
    ((n - 1) % cap + cap - o) % cap = (n - 1 - o) % cap := by
  have hsum : (n - 1) % cap + cap - o ≡ n - 1 - o [MOD cap] := by
    apply Nat.ModEq.add_right_cancel' o
    calc (n - 1) % cap + cap - o + o = (n - 1) % cap + cap := by omega
      _ ≡ (n - 1) + 0 [MOD cap] := (Nat.mod_modEq _ _).add (by simp [Nat.ModEq])
      _ = n - 1 - o + o := by omega
  exact hsum

end Circular
