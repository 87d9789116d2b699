import Ctm.RingBuffer.History

/-!
# Slots inside the allocation

`ring_buffer_alloc` leaves its arguments to `calloc`, which accepts every product up to
`PTRDIFF_MAX`, zero included.  With at least one slot, every pointer the ring buffer
hands out has a whole item behind it and no index wraps.  Without a slot
`ring_buffer_advance` points into an allocation of no bytes all the same.

## Main definitions

* `advanceTimes` — any number of calls of `ring_buffer_advance`.
* `Inside`, `SlotsInside` — the next calls stay inside the buffer, now and after any
  number of advances.
* `slotsInside_iff` — when they do.
-/

namespace Ctm
namespace RingBuffer
variable {rb rb' : RingBuffer} {n : ℕ}

/-- `n` calls of `ring_buffer_advance`. -/
def advanceTimes (rb : RingBuffer) : ℕ → Option RingBuffer
  | 0 => some rb
  | n + 1 => (advanceTimes rb n).bind fun rb => rb.advance.map Prod.snd

/-- The slots of the next `ring_buffer_advance` and of every `ring_buffer_peek` lie within the
buffer, none of the calls divides by zero, and the index `head + capacity - offset` does not
wrap. -/
structure Inside (rb : RingBuffer) : Prop where
  advance : ∃ slot rb', rb.advance = some (slot, rb') ∧ slot + rb.itemSize ≤ rb.buffer.length
  peek : ∀ offset, ∃ slot errno, rb.peek offset = some (slot, errno) ∧
    ∀ p, slot = some p → p + rb.itemSize ≤ rb.buffer.length
  index : ∀ offset < rb.count, rb.head + rb.capacity < sizeMod ∧ offset ≤ rb.head + rb.capacity

/-- They do after any number of advances. -/
def SlotsInside (rb : RingBuffer) : Prop :=
  ∀ n, ∃ rb', rb.advanceTimes n = some rb' ∧ rb'.Inside

/-- A slot below the capacity lies within the buffer. -/
theorem Advanced.slot_le (H : Advanced rb n) {i : ℕ} (hi : i < rb.capacity) :
    i * rb.itemSize + rb.itemSize ≤ rb.buffer.length := by
  rw [H.length]
  exact Block.slot_fits _ hi

/-- The counters after one more advance. -/
theorem Advanced.advance (H : Advanced rb n) :
    ∃ slot rb', rb.advance = some (slot, rb') ∧ Advanced rb' (n + 1) ∧
      slot + rb.itemSize ≤ rb.buffer.length := by
  refine ⟨_, _, advance_spec H, ⟨H.capacity_pos, H.itemSize_pos, H.fits, H.length, rfl, ?_⟩, ?_⟩
  · simp
  · exact H.slot_le (Nat.mod_lt _ H.capacity_pos)

theorem Advanced.advanceTimes (H : Advanced rb 0) (n : ℕ) :
    ∃ rb', rb.advanceTimes n = some rb' ∧ Advanced rb' n := by
  induction n with
  | zero => exact ⟨rb, rfl, H⟩
  | succ n ih =>
      obtain ⟨rb₁, h₁, H₁⟩ := ih
      obtain ⟨slot, rb₂, h₂, H₂, -⟩ := H₁.advance
      refine ⟨rb₂, ?_, H₂⟩
      rw [RingBuffer.advanceTimes, h₁, Option.bind_some, h₂, Option.map_some]

theorem Advanced.inside (H : Advanced rb n) : rb.Inside where
  advance := by
    obtain ⟨slot, rb', h, -, hle⟩ := H.advance
    exact ⟨slot, rb', h, hle⟩
  peek := by
    intro offset
    by_cases h : offset < min n rb.capacity
    · refine ⟨_, _, peek_of_lt H h, ?_⟩
      rintro p hp
      obtain rfl := Option.some.inj hp
      exact H.slot_le (Nat.mod_lt _ H.capacity_pos)
    · exact ⟨none, _, peek_of_le H (by omega), by simp⟩
  index := by
    intro offset h
    have hbig := H.two_capacity_lt
    have hhead := H.head_lt
    have hcount := H.count
    omega

/-- **Ring buffer slots stay inside the allocation exactly when there is a slot.** -/
theorem slotsInside_iff {capacity itemSize : ℕ} {mallocOk callocOk : Bool}
    (h : alloc capacity itemSize mallocOk callocOk = some rb) (hs : 1 ≤ itemSize) :
    SlotsInside rb ↔ 1 ≤ capacity := by
  constructor
  · intro hinside
    obtain ⟨hfits, rfl⟩ := alloc_eq_some h
    obtain ⟨rb', hrb, ⟨slot, rb'', -, hle⟩, -, -⟩ := hinside 0
    obtain rfl := Option.some.inj hrb
    by_contra hzero
    obtain rfl : capacity = 0 := by omega
    simp at hle
    omega
  · intro hc n
    obtain ⟨rb', hrb, H⟩ := (Holds.alloc h hc hs).toAdvanced.advanceTimes n
    exact ⟨rb', hrb, H.inside⟩

/-- Three slots of one byte. -/
theorem slotsInside_three : SlotsInside ⟨3, 0, [0, 0, 0], 1, 0⟩ :=
  (slotsInside_iff (rfl : alloc 3 1 true true = some ⟨3, 0, [0, 0, 0], 1, 0⟩) (by decide)).mpr
    (by decide)

/-- A ring buffer of no slots is granted, and its first advance points behind the allocation. -/
theorem slots_outside_empty : ¬ ∀ (capacity itemSize : ℕ) (rb : RingBuffer), 1 ≤ itemSize →
    alloc capacity itemSize true true = some rb → SlotsInside rb := by
  intro hall
  obtain ⟨rb', hrb, ⟨slot, rb'', -, hle⟩, -, -⟩ := hall 0 1 ⟨0, 0, [], 1, 0⟩ (by decide) rfl 0
  obtain rfl := Option.some.inj hrb
  simp at hle

end RingBuffer
end Ctm
