import Mathlib.Data.Nat.Notation
import Mathlib.Data.List.Basic

/-!
# Character pads

A pad is a rectangle of characters, kept row by row.  A string is put down from a position
on and continues on the next row at the right edge, up to the end of the pad; a position
outside the pad leaves it as it is.  A string that ends before the right edge changes its
own cells and no other.

## Main definitions

* `Pad`, `Pad.char` — a pad, and the character at a position.
* `Pad.addstr`, `Pad.hline` — strings, and horizontal lines.
* `Pad.text` — what can be read from a position on.
* `Pad.text_addstr`, `Pad.text_addstr_of_disjoint` — what a string does to what is read.
-/

/-- A rectangle of characters, numbered row by row. -/
structure Pad (α : Type*) where
  rows : ℕ
  cols : ℕ
  cells : ℕ → α

namespace Pad
variable {α : Type*} {p : Pad α} {y x y' x' n i : ℕ} {s : List α} {c : α}

/-- A pad filled with one character. -/
def blank (rows cols : ℕ) (c : α) : Pad α := ⟨rows, cols, fun _ => c⟩

/-- The character in column `x` of row `y`. -/
def char (p : Pad α) (y x : ℕ) : α := p.cells (y * p.cols + x)

/-- The string `s` from column `x` of row `y` on. -/
def addstr (p : Pad α) (y x : ℕ) (s : List α) : Pad α :=
  if y < p.rows ∧ x < p.cols then
    { p with cells := fun i =>
        if y * p.cols + x ≤ i ∧ i < p.rows * p.cols then
          (s[i - (y * p.cols + x)]?).getD (p.cells i)
        else p.cells i }
  else p

/-- A line of `n` characters from column `x` of row `y` on, up to the right edge. -/
def hline (p : Pad α) (y x : ℕ) (c : α) (n : ℕ) : Pad α :=
  p.addstr y x (List.replicate (min n (p.cols - x)) c)

/-- The `n` characters from column `x` of row `y` on. -/
def text (p : Pad α) (y x n : ℕ) : List α := (List.range n).map fun i => p.char y (x + i)

@[simp] theorem rows_addstr : (p.addstr y x s).rows = p.rows := by
  rw [addstr]
  split <;> rfl

@[simp] theorem cols_addstr : (p.addstr y x s).cols = p.cols := by
  rw [addstr]
  split <;> rfl

@[simp] theorem rows_hline : (p.hline y x c n).rows = p.rows := rows_addstr

@[simp] theorem cols_hline : (p.hline y x c n).cols = p.cols := cols_addstr

/-- Positions in different rows, or in different columns, are different cells. -/
theorem cell_inj (hx : x < p.cols) (hx' : x' < p.cols)
    (h : y * p.cols + x = y' * p.cols + x') : y = y' ∧ x = x' := by
  have hpos : 0 < p.cols := by omega
  have hdiv : (y * p.cols + x) / p.cols = y := by
    rw [Nat.mul_comm, Nat.mul_add_div hpos, Nat.div_eq_of_lt hx, Nat.add_zero]
  have hdiv' : (y' * p.cols + x') / p.cols = y' := by
    rw [Nat.mul_comm, Nat.mul_add_div hpos, Nat.div_eq_of_lt hx', Nat.add_zero]
  have hy : y = y' := by rw [← hdiv, h, hdiv']
  exact ⟨hy, by subst hy; omega⟩

/-- **A string that ends before the right edge changes its own cells and no other.** -/
theorem char_addstr (hs : x + s.length ≤ p.cols) (hx' : x' < p.cols) :
    (p.addstr y x s).char y' x' =
      if y' = y ∧ y < p.rows ∧ x ≤ x' then (s[x' - x]?).getD (p.char y' x') else p.char y' x' := by
  by_cases hin : y < p.rows ∧ x < p.cols
  · simp only [char, cols_addstr]
    rw [addstr, if_pos hin]
    simp only
    by_cases hrow : y' = y ∧ y < p.rows ∧ x ≤ x'
    · obtain ⟨rfl, hy, hle⟩ := hrow
      have hend : y' * p.cols + x' < p.rows * p.cols := by
        calc y' * p.cols + x' < y' * p.cols + p.cols := by omega
          _ = (y' + 1) * p.cols := (Nat.succ_mul _ _).symm
          _ ≤ p.rows * p.cols := Nat.mul_le_mul_right _ hy
      rw [if_pos ⟨by omega, hend⟩, if_pos ⟨rfl, hy, hle⟩,
        show y' * p.cols + x' - (y' * p.cols + x) = x' - x by omega]
    · rw [if_neg hrow]
      split
      · -- Past the cells of the string there is nothing to put down.
        rename_i hcell
        have hpast : s.length ≤ y' * p.cols + x' - (y * p.cols + x) := by
          by_contra hlt
          have hsame : y' * p.cols + x' =
              y * p.cols + (x + (y' * p.cols + x' - (y * p.cols + x))) := by omega
          obtain ⟨rfl, -⟩ := cell_inj hx' (by omega) hsame
          exact hrow ⟨rfl, hin.1, by omega⟩
        rw [List.getElem?_eq_none hpast, Option.getD_none]
      · rfl
  · rw [addstr, if_neg hin]
    split
    · rename_i hrow
      have hpast : s.length ≤ x' - x := by
        by_contra hlt
        exact hin ⟨hrow.2.1, by omega⟩
      rw [List.getElem?_eq_none hpast, Option.getD_none]
    · rfl

@[simp] theorem length_text : (p.text y x n).length = n := by
  rw [text, List.length_map, List.length_range]

/-- A string is read where it was put down. -/
theorem text_addstr (hs : x + s.length ≤ p.cols) (hy : y < p.rows) :
    (p.addstr y x s).text y x s.length = s := by
  apply List.ext_getElem
  · exact length_text
  · intro i _ hi
    simp only [text, List.getElem_map, List.getElem_range]
    rw [char_addstr hs (by omega), if_pos ⟨rfl, hy, by omega⟩, show x + i - x = i by omega,
      List.getElem?_eq_getElem hi, Option.getD_some]

/-- Nothing else changes: what is read in another row, before the string, or behind it. -/
theorem text_addstr_of_disjoint (hs : x + s.length ≤ p.cols) (hn : x' + n ≤ p.cols)
    (hdisjoint : y' ≠ y ∨ x' + n ≤ x ∨ x + s.length ≤ x') :
    (p.addstr y x s).text y' x' n = p.text y' x' n := by
  apply List.map_congr_left
  intro i hi
  rw [List.mem_range] at hi
  rw [char_addstr hs (by omega)]
  split
  · rename_i hrow
    have hpast : s.length ≤ x' + i - x := by
      obtain ⟨hy, -, hle⟩ := hrow
      rcases hdisjoint with hne | hbefore | hbehind
      · exact absurd hy hne
      · omega
      · omega
    rw [List.getElem?_eq_none hpast, Option.getD_none]
  · rfl

theorem text_hline_of_ne (hx : x ≤ p.cols) (hn : x' + n ≤ p.cols) (hy : y' ≠ y) {k : ℕ} :
    (p.hline y x c k).text y' x' n = p.text y' x' n := by
  refine text_addstr_of_disjoint ?_ hn (.inl hy)
  rw [List.length_replicate]
  omega

end Pad
