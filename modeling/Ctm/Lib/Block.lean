import Mathlib.Data.List.Basic
import Mathlib.Data.Nat.Notation

/-!
# Blocks of memory cells

A block is a list of cells, read and written by ranges.  A range that leaves the block
is not an access: `load` and `store` answer `none`.  A block cut into slots of one size
is read slot by slot, and writing one slot leaves the others alone.

## Main definitions

* `load`, `store` — access to a range of a block.
* `slot b size i` — the `i`-th slot of `size` cells.
* `slot_store_same`, `slot_store_ne` — what a store to one slot does to every slot.
-/

namespace Block

variable {α : Type*} {b b' xs : List α} {off size i j : ℕ}

/-- The `n` cells from `off` on, when they lie within the block. -/
def load (b : List α) (off n : ℕ) : Option (List α) :=
  if off + n ≤ b.length then some ((b.drop off).take n) else none

/-- The block with `xs` stored from `off` on, when `xs` fits there. -/
def store (b : List α) (off : ℕ) (xs : List α) : Option (List α) :=
  if off + xs.length ≤ b.length then
    some (b.take off ++ xs ++ b.drop (off + xs.length))
  else none

/-- The `i`-th slot of a block of slots of `size` cells. -/
def slot (b : List α) (size i : ℕ) : Option (List α) := load b (i * size) size

theorem store_isSome (h : off + xs.length ≤ b.length) : ∃ b', store b off xs = some b' :=
  ⟨_, if_pos h⟩

theorem store_eq_some (h : store b off xs = some b') :
    off + xs.length ≤ b.length ∧ b' = b.take off ++ xs ++ b.drop (off + xs.length) := by
  rw [store] at h
  split at h
  · rename_i hfit
    exact ⟨hfit, (Option.some.inj h).symm⟩
  · cases h

/-- A store does not change the size of the block. -/
theorem length_of_store (h : store b off xs = some b') : b'.length = b.length := by
  obtain ⟨hfit, rfl⟩ := store_eq_some h
  simp
  omega

/-- A load reads the cells stored at its range. -/
theorem load_store_same (h : store b off xs = some b') : load b' off xs.length = some xs := by
  have hlen := length_of_store h
  obtain ⟨hfit, rfl⟩ := store_eq_some h
  have htake : (b.take off).length = off := by
    rw [List.length_take]
    omega
  rw [load, if_pos (by rw [hlen]; exact hfit), List.append_assoc,
    List.drop_left' htake, List.take_left']
  rfl

/-- A load of a range apart from the stored one reads what it read before. -/
theorem load_store_disjoint {off' n : ℕ} (h : store b off xs = some b')
    (hd : off' + n ≤ off ∨ off + xs.length ≤ off') : load b' off' n = load b off' n := by
  have hlen := length_of_store h
  obtain ⟨hfit, rfl⟩ := store_eq_some h
  rw [load, load, hlen]
  congr 2
  apply List.ext_getElem?
  intro k
  rw [List.getElem?_take, List.getElem?_take, List.getElem?_drop, List.getElem?_drop]
  by_cases hk : k < n
  · rw [if_pos hk, if_pos hk]
    rcases hd with hd | hd
    · rw [List.append_assoc, List.getElem?_append_left (by rw [List.length_take]; omega),
        List.getElem?_take_of_lt (by omega)]
    · rw [List.getElem?_append_right (by simp; omega), List.getElem?_drop]
      congr 1
      simp
      omega
  · rw [if_neg hk, if_neg hk]

/-- The ranges of two different slots do not meet. -/
theorem slot_disjoint (size : ℕ) (h : i ≠ j) :
    j * size + size ≤ i * size ∨ i * size + size ≤ j * size := by
  rcases Nat.lt_or_gt_of_ne h with hlt | hlt
  · right
    calc i * size + size = (i + 1) * size := by rw [Nat.succ_mul]
      _ ≤ j * size := Nat.mul_le_mul_right size hlt
  · left
    calc j * size + size = (j + 1) * size := by rw [Nat.succ_mul]
      _ ≤ i * size := Nat.mul_le_mul_right size hlt

/-- A slot below the number of slots lies within the block. -/
theorem slot_fits (size : ℕ) {n : ℕ} (h : i < n) : i * size + size ≤ n * size := by
  calc i * size + size = (i + 1) * size := by rw [Nat.succ_mul]
    _ ≤ n * size := Nat.mul_le_mul_right size h

theorem slot_store_same (h : store b (i * xs.length) xs = some b') :
    slot b' xs.length i = some xs := load_store_same h

theorem slot_store_ne (h : store b (i * xs.length) xs = some b') (hij : i ≠ j) :
    slot b' xs.length j = slot b xs.length j :=
  load_store_disjoint h (slot_disjoint xs.length hij)

end Block
