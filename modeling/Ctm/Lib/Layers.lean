import Mathlib.Data.List.Basic

/-!
# Lists written over one another

A picture is drawn by writing lists over one another, each from the start on and none of them
erased.  At each place stands what the last list long enough has put there.

## Main definitions

* `latest layers i` — what stands at place `i`.
* `latest_concat` — one more layer.
-/

namespace Layers
variable {α β : Type*} {layers : List (List α)} {l : List α} {i : ℕ}

/-- What the layers leave at place `i`. -/
def latest (layers : List (List α)) (i : ℕ) : Option α :=
  (layers.filterMap fun l => l[i]?).getLast?

/-- One more layer covers the places it reaches. -/
theorem latest_concat : latest (layers ++ [l]) i = (l[i]?).or (latest layers i) := by
  rw [latest, List.filterMap_append, List.getLast?_append]
  cases hl : l[i]? with
  | none => simp [hl, latest]
  | some a => simp [hl]

theorem latest_concat_of_lt (hi : i < l.length) : latest (layers ++ [l]) i = some l[i] := by
  rw [latest_concat, List.getElem?_eq_getElem hi, Option.some_or]

theorem latest_concat_of_le (hi : l.length ≤ i) : latest (layers ++ [l]) i = latest layers i := by
  rw [latest_concat, List.getElem?_eq_none hi, Option.none_or]

theorem latest_eq_none : latest layers i = none ↔ ∀ l ∈ layers, l.length ≤ i := by
  simp [latest]

end Layers
