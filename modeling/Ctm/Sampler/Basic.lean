import Mathlib.Data.Int.Notation
import Ctm.RingBuffer.Basic

/-!
# The sampler of `metrics/sampler.c`

A sampler keeps a ring buffer of samples.  Its thread takes a slot, lets `capture_fn`
fill it, and sleeps; consumers read two slots.  Each section the source runs under
`sampler->lock` is one function here.

## Main definitions

* `Sampler` — the `struct sampler`.
* `create`, `subscribe`, `getValue` — the functions of the source.
* `startSection` — the locked section of `sampler_start`, which creates the thread.
* `stopSection` — the locked section of `sampler_stop`.
* `iteration` — the locked section of an iteration of `sampler_thread_fn`.
-/

namespace Ctm

/-- A `pthread_t`. -/
abbrev ThreadId := ℕ

/-- `CTM_SAMPLER_CAPACITY` -/
def samplerCapacity : ℕ := 100

/-- The `struct sampler`.  `capture_fn` is not kept: what it does is an input of each
iteration. -/
structure Sampler where
  ringBuffer : RingBuffer
  intervalMs : ℕ
  isRunning : Bool
  /-- The thread named last; `none` before the first `pthread_create`. -/
  thread : Option ThreadId
  /-- Whether there is a subscriber. -/
  onCaptured : Bool
deriving DecidableEq, Repr

namespace Sampler

/-- Which resources `sampler_create` gets: memory for the sampler, the ring buffer and its
block, and the result of `pthread_mutex_init`. -/
structure Resources where
  malloc : Bool
  ringMalloc : Bool
  ringCalloc : Bool
  mutexInit : Option Errno

/-- `sampler_create`: the sampler or NULL, and the `errno` set with NULL. -/
def create (intervalMs itemSize : ℕ) (captureFn : Bool) (r : Resources) :
    Option Sampler × Option Errno :=
  if itemSize = 0 ∨ captureFn = false then (none, some .EINVAL)
  else if r.malloc = false then (none, some .ENOMEM)
  else
    match RingBuffer.alloc samplerCapacity itemSize r.ringMalloc r.ringCalloc with
    | none => (none, some .ENOMEM)
    | some ringBuffer =>
        match r.mutexInit with
        | some error => (none, some error)
        | none => (some ⟨ringBuffer, intervalMs, false, none, false⟩, none)

/-- A created sampler has a fresh ring buffer and does not run. -/
theorem create_eq_some {intervalMs itemSize : ℕ} {captureFn : Bool} {r : Resources}
    {s : Sampler} (h : create intervalMs itemSize captureFn r = (some s, none)) :
    itemSize ≠ 0 ∧ ∃ ringBuffer,
      RingBuffer.alloc samplerCapacity itemSize r.ringMalloc r.ringCalloc = some ringBuffer ∧
        s = ⟨ringBuffer, intervalMs, false, none, false⟩ := by
  rw [create] at h
  split at h
  · cases h
  · rename_i hsize
    split at h
    · cases h
    · split at h
      · cases h
      · rename_i ringBuffer hring
        split at h
        · cases h
        · exact ⟨fun h0 => hsize (.inl h0), ringBuffer, hring,
            (Option.some.inj (Prod.mk.inj h).1).symm⟩

theorem create_isRunning {intervalMs itemSize : ℕ} {captureFn : Bool} {r : Resources}
    {s : Sampler} (h : create intervalMs itemSize captureFn r = (some s, none)) :
    s.isRunning = false := by
  obtain ⟨-, ringBuffer, -, rfl⟩ := create_eq_some h
  rfl

/-- What `pthread_create` does: it names a new thread, or fails and leaves an unspecified
name. -/
inductive PthreadCreate
  | created (thread : ThreadId)
  | failed (code : Errno) (junk : Option ThreadId)

/-- The locked section of `sampler_start`: its result, the `errno` it sets, and the thread it
created. -/
def startSection (sampler : Sampler) (create : PthreadCreate) :
    (ℤ × Option Errno) × Option ThreadId × Sampler :=
  if sampler.isRunning then ((0, none), none, sampler)
  else
    match create with
    | .created t => ((0, none), some t, { sampler with isRunning := true, thread := some t })
    | .failed code junk =>
        ((-1, some code), none, { sampler with isRunning := false, thread := junk })

theorem startSection_of_running {s : Sampler} {create : PthreadCreate}
    (h : s.isRunning = true) : s.startSection create = ((0, none), none, s) := if_pos h

theorem startSection_of_not_running {s : Sampler} {create : PthreadCreate}
    (h : s.isRunning = false) : s.startSection create =
      match create with
      | .created t => ((0, none), some t, { s with isRunning := true, thread := some t })
      | .failed code junk => ((-1, some code), none, { s with isRunning := false, thread := junk }) :=
  if_neg (by rw [h]; decide)

/-- `sampler_start` -/
def start (sampler : Option Sampler) (create : PthreadCreate) :
    (ℤ × Option Errno) × Option Sampler :=
  match sampler with
  | none => ((-1, some .EINVAL), none)
  | some s => ((s.startSection create).1, some (s.startSection create).2.2)

/-- The locked section of `sampler_stop`: `was_running`, and the flag cleared. -/
def stopSection (sampler : Sampler) : Bool × Sampler :=
  (sampler.isRunning, { sampler with isRunning := false })

/-- `sampler_subscribe` -/
def subscribe (sampler : Option Sampler) (subscriber : Bool) :
    (ℤ × Option Errno) × Option Sampler :=
  match sampler, subscriber with
  | some s, true => ((0, none), some { s with onCaptured := true })
  | s, _ => ((-1, some .EINVAL), s)

/-- What a call of `capture_fn` does: its result, and the bytes it leaves in its slot. -/
structure Capture where
  ret : ℤ
  slot : List UInt8

/-- The capture succeeded. -/
def Capture.ok (c : Capture) : Bool := c.ret == 0

/-- The locked section of an iteration of `sampler_thread_fn`: `none` to leave the loop, or
whether to notify the subscriber. -/
def iteration (sampler : Sampler) (c : Capture) : Option (Option Bool × Sampler) :=
  if !sampler.isRunning then some (none, sampler)
  else do
    let ringBuffer ← sampler.ringBuffer.write c.slot
    some (some c.ok, { sampler with ringBuffer := ringBuffer })

/-- What `sampler_get_value` answers: its result, the `errno` it sets, and the arguments of
its call of `process_fn`, if it calls it. -/
structure Value where
  ret : ℤ
  errno : Option Errno
  args : Option (List UInt8 × List UInt8)
deriving DecidableEq

/-- `sampler_get_value` -/
def getValue (sampler : Option Sampler) (window : ℕ)
    (processFn : Option (List UInt8 → List UInt8 → ℤ)) : Option Value :=
  match sampler, processFn with
  | some s, some process =>
      if window = 0 then some ⟨-1, some .EINVAL, none⟩
      else do
        let (currentData, _) ← s.ringBuffer.peek 0
        let (previousData, _) ← s.ringBuffer.peek window
        match currentData, previousData with
        | some currentData, some previousData => do
            let current ← s.ringBuffer.item currentData
            let previous ← s.ringBuffer.item previousData
            some ⟨process current previous, none, some (current, previous)⟩
        | _, _ => some ⟨-1, some .EAGAIN, none⟩
  | _, _ => some ⟨-1, some .EINVAL, none⟩

end Sampler
end Ctm
