import Ctm.Lib.Circular
import Ctm.RingBuffer.Basic

/-!
# The ring buffer holds the last items of its history

After `n` writes the head is slot `(n - 1) % capacity` and the count is
`min n capacity`, so stepping back from the head reads the history backwards.

## Main definitions

* `Advanced rb n` — the counters of a ring buffer advanced `n` times.
* `Holds rb xs` — a ring buffer after the writes `xs`.
* `peek_history` — what every offset reads after any sequence of writes.
-/

namespace Ctm
namespace RingBuffer
variable {rb rb' : RingBuffer} {n : ℕ} {xs : List (List UInt8)}

/-- A ring buffer from `ring_buffer_alloc`, advanced `n` times. -/
structure Advanced (rb : RingBuffer) (n : ℕ) : Prop where
  capacity_pos : 0 < rb.capacity
  itemSize_pos : 0 < rb.itemSize
  fits : rb.capacity * rb.itemSize ≤ ptrdiffMax
  length : rb.buffer.length = rb.capacity * rb.itemSize
  count : rb.count = min n rb.capacity
  head : rb.head = (n - 1) % rb.capacity

/-- A ring buffer after the writes `xs`, oldest first. -/
structure Holds (rb : RingBuffer) (xs : List (List UInt8)) : Prop extends
    Advanced rb xs.length where
  last : Circular.HoldsLast rb.capacity (Block.slot rb.buffer rb.itemSize) xs

theorem alloc_eq_some {capacity itemSize : ℕ} {mallocOk callocOk : Bool}
    (h : alloc capacity itemSize mallocOk callocOk = some rb) :
    capacity * itemSize ≤ ptrdiffMax ∧
      rb = ⟨capacity, 0, List.replicate (capacity * itemSize) 0, itemSize, 0⟩ := by
  cases mallocOk with
  | false => cases h
  | true =>
      rw [alloc, if_pos rfl] at h
      cases hc : calloc callocOk capacity itemSize with
      | none =>
          rw [hc] at h
          cases h
      | some buffer =>
          rw [hc] at h
          obtain ⟨hfits, rfl⟩ := calloc_eq_some hc
          exact ⟨hfits, (Option.some.inj h).symm⟩

/-- A fresh ring buffer has an empty history. -/
theorem Holds.alloc {capacity itemSize : ℕ} {mallocOk callocOk : Bool}
    (h : alloc capacity itemSize mallocOk callocOk = some rb) (hc : 1 ≤ capacity)
    (hs : 1 ≤ itemSize) : Holds rb [] := by
  obtain ⟨hfits, rfl⟩ := alloc_eq_some h
  exact ⟨⟨hc, hs, hfits, by simp, by simp, by simp⟩, Circular.HoldsLast.nil⟩

section Advanced
variable (H : Advanced rb n)
include H

/-- A `size_t` holds every number the ring buffer computes. -/
theorem Advanced.two_capacity_lt : 2 * rb.capacity < sizeMod := by
  have hle : rb.capacity * 1 ≤ rb.capacity * rb.itemSize :=
    Nat.mul_le_mul_left _ H.itemSize_pos
  have hfits := H.fits
  simp only [ptrdiffMax] at hfits
  simp only [sizeMod]
  omega

/-- The pointer to a slot does not wrap. -/
theorem Advanced.slot_mod {i : ℕ} (h : i < rb.capacity) :
    i * rb.itemSize % sizeMod = i * rb.itemSize := by
  have hslot := Block.slot_fits rb.itemSize h
  have hfits := H.fits
  apply Nat.mod_eq_of_lt
  simp only [ptrdiffMax] at hfits
  simp only [sizeMod]
  omega

theorem Advanced.head_lt : rb.head < rb.capacity := by
  rw [H.head]
  exact Nat.mod_lt _ H.capacity_pos

/-- The `n`-th advance, from 0, moves the head to slot `n % capacity`. -/
theorem advance_spec : rb.advance = some (n % rb.capacity * rb.itemSize,
      ⟨rb.capacity, min (n + 1) rb.capacity, rb.buffer, rb.itemSize, n % rb.capacity⟩) := by
  have hbig := H.two_capacity_lt
  have hhead := H.head_lt
  have hhead' : (if 0 < rb.count then umod ((rb.head + 1) % sizeMod) rb.capacity
      else some rb.head) = some (n % rb.capacity) := by
    have hpos := H.capacity_pos
    rw [H.count]
    cases n with
    | zero => rw [if_neg (by omega), H.head]
    | succ n =>
        rw [if_pos (by omega), Nat.mod_eq_of_lt (by omega), umod_of_pos hpos, H.head]
        simp
  have hcount : (if rb.count < rb.capacity then (rb.count + 1) % sizeMod else rb.count) =
      min (n + 1) rb.capacity := by
    rw [H.count]
    split
    · rw [Nat.mod_eq_of_lt (by omega)]
      omega
    · omega
  simp only [advance, hhead', hcount, Option.bind_eq_bind, Option.bind_some,
    H.slot_mod (Nat.mod_lt n H.capacity_pos)]

/-- An offset that has been written and not yet overwritten is a slot. -/
theorem peek_of_lt {o : ℕ} (h : o < min n rb.capacity) :
    rb.peek o = some (some ((n - 1 - o) % rb.capacity * rb.itemSize), none) := by
  have hbig := H.two_capacity_lt
  have hhead := H.head_lt
  have hidx : ((rb.head + rb.capacity) % sizeMod + (sizeMod - o)) % sizeMod =
      rb.head + rb.capacity - o := by
    rw [Nat.mod_eq_of_lt (by omega : rb.head + rb.capacity < sizeMod),
      show rb.head + rb.capacity + (sizeMod - o) = rb.head + rb.capacity - o + sizeMod by omega,
      Nat.add_mod_right, Nat.mod_eq_of_lt (by omega)]
  rw [peek, if_neg (by rw [H.count]; omega)]
  simp only [hidx, umod_of_pos H.capacity_pos, Option.bind_eq_bind, Option.bind_some]
  rw [H.head, Circular.back_mod (by omega) (by omega),
    H.slot_mod (Nat.mod_lt _ H.capacity_pos)]

theorem peek_of_le {o : ℕ} (h : min n rb.capacity ≤ o) :
    rb.peek o = some (none, some .EINVAL) := by
  rw [peek, if_pos (by rw [H.count]; exact h)]

end Advanced

/-- A write appends to the history. -/
theorem write_spec (H : Holds rb xs) {x : List UInt8} (hx : x.length = rb.itemSize) :
    ∃ rb', rb.write x = some rb' ∧ Holds rb' (xs ++ [x]) ∧ rb'.capacity = rb.capacity ∧
      rb'.itemSize = rb.itemSize := by
  have hslot := Nat.mod_lt xs.length H.capacity_pos
  obtain ⟨buffer, hstore⟩ : ∃ buffer,
      Block.store rb.buffer (xs.length % rb.capacity * x.length) x = some buffer := by
    apply Block.store_isSome
    rw [H.length, ← hx]
    exact Block.slot_fits _ hslot
  refine ⟨⟨rb.capacity, min (xs.length + 1) rb.capacity, buffer, rb.itemSize,
    xs.length % rb.capacity⟩, ?_, ?_, rfl, rfl⟩
  · rw [write, advance_spec H.toAdvanced]
    simp only [Option.bind_eq_bind, Option.bind_some]
    rw [← hx, hstore]
    rfl
  · refine ⟨⟨H.capacity_pos, H.itemSize_pos, H.fits, ?_, by simp, by simp⟩, ?_⟩
    · exact (Block.length_of_store hstore).trans H.length
    · apply H.last.push
      · rw [← hx]
        exact Block.slot_store_same hstore
      · intro j hj
        rw [← hx]
        exact Block.slot_store_ne hstore (Ne.symm hj)

/-- Every sequence of writes succeeds and is the history. -/
theorem writes_spec (H : Holds rb xs) (ys : List (List UInt8))
    (hy : ∀ y ∈ ys, y.length = rb.itemSize) :
    ∃ rb', ys.foldlM write rb = some rb' ∧ Holds rb' (xs ++ ys) ∧
      rb'.capacity = rb.capacity ∧ rb'.itemSize = rb.itemSize := by
  induction ys generalizing rb xs with
  | nil => exact ⟨rb, rfl, by simpa using H, rfl, rfl⟩
  | cons y ys ih =>
      obtain ⟨rb₁, h₁, H₁, hc₁, hs₁⟩ := write_spec H (hy y (by simp))
      obtain ⟨rb₂, h₂, H₂, hc₂, hs₂⟩ := ih H₁ (fun z hz => by rw [hs₁]; exact hy z (by simp [hz]))
      refine ⟨rb₂, ?_, by simpa using H₂, hc₂.trans hc₁, hs₂.trans hs₁⟩
      simp [List.foldlM_cons, h₁, h₂]

/-- A peek reads the history backwards. -/
theorem peek_holds (H : Holds rb xs) {o : ℕ} (h : o < min xs.length rb.capacity) :
    ∃ slot, rb.peek o = some (some slot, none) ∧ rb.item slot = xs[xs.length - 1 - o]? := by
  refine ⟨_, peek_of_lt H.toAdvanced h, ?_⟩
  rw [List.getElem?_eq_getElem (by omega)]
  exact H.last _ _ (List.getElem?_eq_getElem (by omega)) (by omega)

/-- **The ring buffer is the last `capacity` items of its history.**  After any writes
`xs`, offset `o` reads item `n - 1 - o` when it is one of the last `capacity`, and is NULL
otherwise. -/
theorem peek_history {capacity itemSize : ℕ} {mallocOk callocOk : Bool} (hc : 1 ≤ capacity)
    (hs : 1 ≤ itemSize) (h : alloc capacity itemSize mallocOk callocOk = some rb)
    (xs : List (List UInt8)) (hx : ∀ x ∈ xs, x.length = itemSize) :
    ∃ rb', xs.foldlM write rb = some rb' ∧ ∀ o,
      (o < min xs.length capacity → ∃ slot, rb'.peek o = some (some slot, none) ∧
        rb'.item slot = xs[xs.length - 1 - o]?) ∧
      (min xs.length capacity ≤ o → ∃ errno, rb'.peek o = some (none, errno)) := by
  obtain ⟨-, hrb⟩ := alloc_eq_some h
  have hcap : rb.capacity = capacity := by rw [hrb]
  have hsize : rb.itemSize = itemSize := by rw [hrb]
  obtain ⟨rb', hrun, H, hcap', -⟩ := writes_spec (Holds.alloc h hc hs) xs
    (fun x hmem => by rw [hsize]; exact hx x hmem)
  rw [List.nil_append] at H
  have hc' : rb'.capacity = capacity := hcap'.trans hcap
  refine ⟨rb', hrun, fun o => ⟨fun ho => ?_, fun ho => ?_⟩⟩
  · exact peek_holds H (by rw [hc']; exact ho)
  · exact ⟨_, peek_of_le H.toAdvanced (by rw [hc']; exact ho)⟩

/-- Four writes to a ring buffer of three slots. -/
theorem peek_history_wrapped : ∃ rb', ([[1], [2], [3], [4]] : List (List UInt8)).foldlM write
      ⟨3, 0, [0, 0, 0], 1, 0⟩ = some rb' ∧ ∃ slot, rb'.peek 2 = some (some slot, none) ∧
        rb'.item slot = some [2] := by
  obtain ⟨rb', hrun, h⟩ := peek_history (by decide) (by decide)
    (rfl : alloc 3 1 true true = some ⟨3, 0, [0, 0, 0], 1, 0⟩) [[1], [2], [3], [4]] (by decide)
  exact ⟨rb', hrun, (h 2).1 (by decide)⟩

end RingBuffer
end Ctm
