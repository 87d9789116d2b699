import Ctm.Lib.Circular

/-!
# Rings with free-running indices

A ring of `size` cells between one producer and one consumer.  Item `i` of the stream
the producer writes goes to cell `i % size`.  Both sides count without bound, `w` items
written and `r` items read, but keep their counts as 32-bit numbers only: their
difference, their cells and, as far as it goes, their order are read off the 32-bit
numbers.

## Main definitions

* `write`, `read` — block copies that wrap at the end of the cells.
* `Holds size buf r xs` — the cells hold the items of `xs` from `r` on.
* `Holds.write`, `Holds.read` — the next items go in, the oldest come out.
* `toNat_sub`, `toNat_mod`, `le_iff` — distance, cell and order of two counts.
-/

namespace Spsc

variable {α : Type*} {buf : ℕ → α} {size off n r w i j k : ℕ} {xs ys : List α}

/-- `memcpy` of the block `xs` to the cells from `off` on. -/
def copyIn (buf : ℕ → α) (off : ℕ) (xs : List α) : ℕ → α := fun i =>
  if off ≤ i then (xs[i - off]?).getD (buf i) else buf i

/-- `memcpy` of the `n` cells from `off` on. -/
def copyOut (buf : ℕ → α) (off n : ℕ) : List α := (List.range' off n).map buf

/-- Copy `xs` to the cells from `off` on, and what does not fit before `size` to the cells
from `0` on. -/
def write (buf : ℕ → α) (size off : ℕ) (xs : List α) : ℕ → α :=
  let l0 := min xs.length (size - off)
  let l1 := xs.length - l0
  let buf := copyIn buf off (xs.take l0)
  if 0 < l1 then copyIn buf 0 (xs.drop l0) else buf

/-- The `n` cells from `off` on, those past `size` taken from `0` on. -/
def read (buf : ℕ → α) (size off n : ℕ) : List α :=
  let l0 := min n (size - off)
  let l1 := n - l0
  copyOut buf off l0 ++ if 0 < l1 then copyOut buf 0 l1 else []

theorem length_copyOut : (copyOut buf off n).length = n := by simp [copyOut]

theorem length_read : (read buf size off n).length = n := by
  simp only [read]
  split
  · rw [List.length_append, length_copyOut, length_copyOut]
    omega
  · rw [List.append_nil, length_copyOut]
    omega

theorem getElem?_copyOut (hk : k < n) : (copyOut buf off n)[k]? = some (buf (off + k)) := by
  rw [copyOut, List.getElem?_map, List.getElem?_range' hk]
  simp

/-- Cell `k` of a wrapping read. -/
theorem getElem?_read (hoff : off < size) (hn : n ≤ size) (hk : k < n) :
    (read buf size off n)[k]? = some (buf ((off + k) % size)) := by
  simp only [read]
  by_cases hfit : k < min n (size - off)
  · rw [List.getElem?_append_left (by rw [length_copyOut]; exact hfit), getElem?_copyOut hfit,
      Nat.mod_eq_of_lt (by omega)]
  · rw [if_pos (by omega), List.getElem?_append_right (by rw [length_copyOut]; omega),
      length_copyOut, getElem?_copyOut (by omega)]
    have hmod : (off + k) % size = off + k - size := by
      rw [Nat.mod_eq_sub_mod (by omega), Nat.mod_eq_of_lt (by omega)]
    rw [hmod]
    congr 2
    omega

/-- Each cell after a wrapping write: the item `i - off` places on, if there is one. -/
theorem write_apply (hoff : off < size) (hlen : xs.length ≤ size) (hi : i < size) :
    write buf size off xs i =
      (xs[if off ≤ i then i - off else i + size - off]?).getD (buf i) := by
  simp only [write]
  by_cases hwrap : 0 < xs.length - min xs.length (size - off)
  · rw [if_pos hwrap, copyIn, if_pos (Nat.zero_le i), List.getElem?_drop, Nat.sub_zero, copyIn]
    by_cases hle : off ≤ i
    · rw [if_pos hle, if_pos hle, List.getElem?_eq_none (by omega), Option.getD_none,
        List.getElem?_take_of_lt (by omega)]
    · rw [if_neg hle, if_neg hle]
      congr 2
      omega
  · rw [if_neg hwrap, copyIn, List.take_of_length_le (by omega)]
    by_cases hle : off ≤ i
    · rw [if_pos hle, if_pos hle]
    · rw [if_neg hle, if_neg hle, List.getElem?_eq_none (by omega), Option.getD_none]

/-- The cell of item `k` of a block written from item `w` on holds it. -/
theorem write_same (hlen : xs.length ≤ size) (hk : k < xs.length) :
    write buf size (w % size) xs ((w + k) % size) = xs[k] := by
  have hsize : 0 < size := by omega
  have hw : w % size < size := Nat.mod_lt w hsize
  rw [write_apply hw hlen (Nat.mod_lt _ hsize), Nat.add_mod, Nat.mod_eq_of_lt (by omega : k < size)]
  have hidx : (if w % size ≤ (w % size + k) % size then (w % size + k) % size - w % size
      else (w % size + k) % size + size - w % size) = k := by
    by_cases hfit : w % size + k < size
    · rw [Nat.mod_eq_of_lt hfit, if_pos (by omega)]
      omega
    · have hmod : (w % size + k) % size = w % size + k - size := by
        rw [Nat.mod_eq_sub_mod (by omega), Nat.mod_eq_of_lt (by omega)]
      rw [hmod, if_neg (by omega)]
      omega
  rw [hidx, List.getElem?_eq_getElem hk, Option.getD_some]

/-- A cell none of the written items goes to keeps its content. -/
theorem write_of_ne (hlen : xs.length ≤ size) (hi : i < size)
    (hne : ∀ k < xs.length, i ≠ (w + k) % size) :
    write buf size (w % size) xs i = buf i := by
  have hsize : 0 < size := by omega
  have hw : w % size < size := Nat.mod_lt w hsize
  rw [write_apply hw hlen hi, List.getElem?_eq_none, Option.getD_none]
  by_contra hlt
  refine hne _ (Nat.lt_of_not_le hlt) ?_
  rw [Nat.add_mod]
  by_cases hle : w % size ≤ i
  · rw [if_pos hle, Nat.mod_eq_of_lt (by omega : i - w % size < size), Nat.add_sub_cancel' hle,
      Nat.mod_eq_of_lt hi]
  · rw [if_neg hle, Nat.mod_eq_of_lt (by omega : i + size - w % size < size),
      show w % size + (i + size - w % size) = i + size by omega, Nat.add_mod_right,
      Nat.mod_eq_of_lt hi]

/-! ## The stream in the ring -/

/-- The cells hold the items of the stream `xs` from item `r` on. -/
def Holds (size : ℕ) (buf : ℕ → α) (r : ℕ) (xs : List α) : Prop :=
  ∀ i x, r ≤ i → xs[i]? = some x → buf (i % size) = x

theorem Holds.nil : Holds size buf r [] := by
  intro i x _ h
  simp at h

/-- What was read may be forgotten. -/
theorem Holds.mono (H : Holds size buf r xs) (h : r ≤ n) : Holds size buf n xs :=
  fun i x hi hx => H i x (Nat.le_trans h hi) hx

/-- What was not yet written may be forgotten. -/
theorem Holds.take (H : Holds size buf r xs) (n : ℕ) : Holds size buf r (xs.take n) := by
  intro i x hi hx
  rw [List.getElem?_take] at hx
  split at hx
  · exact H i x hi hx
  · cases hx

/-- The next items, written while the unread ones and they fit in the ring. -/
theorem Holds.write (H : Holds size buf r xs) (hr : r ≤ xs.length)
    (hfit : xs.length + ys.length ≤ r + size) :
    Holds size (Spsc.write buf size (xs.length % size) ys) r (xs ++ ys) := by
  intro i x hi hx
  have hlt : i < (xs ++ ys).length := (List.getElem?_eq_some_iff.mp hx).1
  rw [List.length_append] at hlt
  have hlen : ys.length ≤ size := by omega
  by_cases hold : i < xs.length
  · rw [List.getElem?_append_left hold] at hx
    rw [write_of_ne hlen (Nat.mod_lt _ (by omega)), H i x hi hx]
    intro k hk
    exact Circular.mod_ne (by omega) (by omega)
  · rw [List.getElem?_append_right (by omega)] at hx
    obtain ⟨hk, rfl⟩ := List.getElem?_eq_some_iff.mp hx
    have hsame := @write_same α buf size xs.length (i - xs.length) ys hlen hk
    rwa [Nat.add_sub_cancel' (by omega)] at hsame

/-- The oldest unread items. -/
theorem Holds.read (H : Holds size buf r xs) (hn : r + n ≤ xs.length) (hsize : n ≤ size) :
    Spsc.read buf size (r % size) n = (xs.drop r).take n := by
  apply List.ext_getElem?
  intro k
  by_cases hk : k < n
  · rw [getElem?_read (Nat.mod_lt _ (by omega)) hsize hk, List.getElem?_take_of_lt hk,
      List.getElem?_drop, List.getElem?_eq_getElem (by omega : r + k < xs.length),
      Nat.mod_add_mod, H (r + k) _ (by omega) (List.getElem?_eq_getElem (by omega))]
  · rw [List.getElem?_eq_none (by rw [length_read]; omega),
      List.getElem?_eq_none (by rw [List.length_take]; omega)]

/-! ## Counts kept in 32 bits -/

/-- The distance of two counts. -/
theorem toNat_sub (hr : r ≤ w) (hw : w < r + 2 ^ 32) :
    (UInt32.ofNat w - UInt32.ofNat r).toNat = w - r := by
  rw [UInt32.toNat_sub, UInt32.toNat_ofNat', UInt32.toNat_ofNat']
  omega

/-- The cell of a count. -/
theorem toNat_mod (hsize : size ∣ 2 ^ 32) (n : ℕ) : (UInt32.ofNat n).toNat % size = n % size := by
  rw [UInt32.toNat_ofNat', Nat.mod_mod_of_dvd _ hsize]

/-- The read count passes for no smaller than the write count when the ring is empty, or
when the unread items lie across a multiple of `2 ^ 32`. -/
theorem le_iff (hr : r ≤ w) (hw : w < r + 2 ^ 32) :
    UInt32.ofNat w ≤ UInt32.ofNat r ↔ r = w ∨ (UInt32.ofNat w).toNat < w - r := by
  rw [UInt32.le_iff_toNat_le, UInt32.toNat_ofNat', UInt32.toNat_ofNat']
  omega

end Spsc
