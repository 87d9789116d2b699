import Mathlib.Tactic.Abel
import Ctm.Lib.Ledger
import Ctm.Sampler.Threads

/-!
# What a sampler is made of

`sampler_create` takes three blocks and a mutex, and `sampler_create_with_subscription_and_start`
adds a thread.  Each of these calls can be refused, and each refusal has a path of its own that
gives back what was taken before and leaves in `errno` why the sampler is NULL.  A `free` may
leave another `errno` behind: `sampler_create` saves it around one `free`, but not around the one
in `ring_buffer_alloc`, and nobody saves it around those of `sampler_destroy`.

## Main definitions

* `World` — the blocks and mutexes outstanding, and `errno`.
* `Built` — a sampler with its blocks and its mutex.
* `samplerCreate`, `samplerDestroy`, `samplerCreateWithSubscriptionAndStart` — the functions of
  the source, with what they take and give back.
* `Failure`, `firstFailure` — the call that is refused first.
* `samplerCreateWithSubscriptionAndStart_spec` — every path gives back what it took.
-/

namespace Ctm
namespace Sampler

/-- The blocks and mutexes outstanding, and `errno`. -/
structure World where
  memory : Ledger
  locks : Ledger
  errno : Errno

/-- A sampler with its block, those of its ring buffer, and its mutex. -/
structure Built where
  sampler : Sampler
  block : ℕ
  ringBlock : ℕ
  bufferBlock : ℕ
  lock : ℕ

namespace World

/-- `malloc` -/
def malloc (w : World) (granted : Bool) : Option ℕ × World :=
  match w.memory.malloc granted with
  | (none, memory) => (none, ⟨memory, w.locks, .ENOMEM⟩)
  | (some block, memory) => (some block, ⟨memory, w.locks, w.errno⟩)

/-- `calloc`: the block, and its bytes. -/
def calloc (w : World) (ok : Bool) (nmemb size : ℕ) : Option (ℕ × List UInt8) × World :=
  match Ctm.calloc ok nmemb size with
  | none => (none, { w with errno := .ENOMEM })
  | some bytes =>
      match w.memory.malloc true with
      | (none, memory) => (none, ⟨memory, w.locks, .ENOMEM⟩)
      | (some block, memory) => (some (block, bytes), ⟨memory, w.locks, w.errno⟩)

/-- `pthread_mutex_init`, when it succeeds. -/
def mutexInit (w : World) : ℕ × World :=
  (w.locks.next, { w with locks := (w.locks.malloc true).2 })

/-- `pthread_mutex_destroy`; `none` for a mutex that is not there. -/
def mutexDestroy (w : World) (lock : ℕ) : Option World := do
  let locks ← w.locks.free (some lock)
  pure { w with locks := locks }

/-- `free`, which leaves `freeErrno block errno` in `errno`; `none` is a double free. -/
def free (freeErrno : ℕ → Errno → Errno) (w : World) (block : ℕ) : Option World := do
  let memory ← w.memory.free (some block)
  pure ⟨memory, w.locks, freeErrno block w.errno⟩

/-- The blocks and mutexes outstanding. -/
structure Owns (w : World) (blocks locks : Multiset ℕ) : Prop where
  memory : w.memory.Owns blocks
  locks : w.locks.Owns locks

end World

section Functions
variable (freeErrno : ℕ → Errno → Errno)

/-- `ring_buffer_alloc`: the ring buffer with its two blocks. -/
def ringBufferAlloc (capacity itemSize : ℕ) (mallocOk callocOk : Bool) (w : World) :
    Option (Option (RingBuffer × ℕ × ℕ) × World) :=
  match w.malloc mallocOk with
  | (none, w) => some (none, w)
  | (some ringBlock, w) =>
      match w.calloc callocOk capacity itemSize with
      | (none, w) => do
          let w ← w.free freeErrno ringBlock
          pure (none, w)
      | (some (bufferBlock, buffer), w) =>
          some (some (⟨capacity, 0, buffer, itemSize, 0⟩, ringBlock, bufferBlock), w)

/-- `ring_buffer_free` -/
def ringBufferFree (ringBlock bufferBlock : ℕ) (w : World) : Option World := do
  let w ← w.free freeErrno bufferBlock
  w.free freeErrno ringBlock

/-- `sampler_create` -/
def samplerCreate (intervalMs itemSize : ℕ) (captureFn : Bool) (r : Resources) (w : World) :
    Option (Option Built × World) :=
  if itemSize = 0 ∨ captureFn = false then some (none, { w with errno := .EINVAL })
  else
    match w.malloc r.malloc with
    | (none, w) => some (none, w)
    | (some block, w) => do
        let (ring, w) ← ringBufferAlloc freeErrno samplerCapacity itemSize r.ringMalloc r.ringCalloc w
        match ring with
        | none => do
            let error := w.errno
            let w ← w.free freeErrno block
            pure (none, { w with errno := error })
        | some (ringBuffer, ringBlock, bufferBlock) =>
            match r.mutexInit with
            | some error => do
                let w ← ringBufferFree freeErrno ringBlock bufferBlock w
                let w ← w.free freeErrno block
                pure (none, { w with errno := error })
            | none =>
                let (lock, w) := w.mutexInit
                pure (some ⟨⟨ringBuffer, intervalMs, false, none, false⟩, block, ringBlock,
                  bufferBlock, lock⟩, w)

/-- `sampler_stop`: the sampler and `errno` it leaves, where `join` is what `pthread_join` answers
if it is called. -/
def samplerStop (b : Built) (join : Option Errno) (w : World) : Built × World :=
  let (wasRunning, sampler) := b.sampler.stopSection
  let b := { b with sampler := sampler }
  if wasRunning then (b, { w with errno := join.getD w.errno }) else (b, w)

/-- `sampler_destroy` -/
def samplerDestroy (b : Built) (join : Option Errno) (w : World) : Option World := do
  let (b, w) := samplerStop b join w
  let w ← w.mutexDestroy b.lock
  let w ← ringBufferFree freeErrno b.ringBlock b.bufferBlock w
  w.free freeErrno b.block

/-- `sampler_create_with_subscription_and_start` -/
def samplerCreateWithSubscriptionAndStart (intervalMs itemSize : ℕ) (captureFn callback : Bool)
    (r : Resources) (create : PthreadCreate) (w : World) : Option (Option Built × World) :=
  if captureFn = false ∨ callback = false then some (none, { w with errno := .EINVAL })
  else do
    let (built, w) ← samplerCreate freeErrno intervalMs itemSize captureFn r w
    match built with
    | none => pure (none, w)
    | some b =>
        let ((subscribed, subscribeErrno), sampler) := subscribe (some b.sampler) callback
        let b := { b with sampler := sampler.getD b.sampler }
        if subscribed ≠ 0 then do
          let w ← samplerDestroy freeErrno b none { w with errno := subscribeErrno.getD w.errno }
          pure (none, w)
        else
          let ((started, startErrno), _, sampler) := b.sampler.startSection create
          let b := { b with sampler := sampler }
          if started ≠ 0 then do
            let w ← samplerDestroy freeErrno b none { w with errno := startErrno.getD w.errno }
            pure (none, w)
          else pure (some b, w)

end Functions

/-! ## The call that is refused -/

/-- Why there is no sampler. -/
inductive Failure
  /-- An argument is zero or NULL. -/
  | argument
  | malloc
  | ringMalloc
  | ringCalloc
  | mutexInit (code : Errno)
  | pthreadCreate (code : Errno)
deriving DecidableEq, Repr

/-- The call that is refused first. -/
def firstFailure (itemSize : ℕ) (captureFn callback : Bool) (r : Resources)
    (create : PthreadCreate) : Option Failure :=
  if captureFn = false ∨ callback = false ∨ itemSize = 0 then some .argument
  else if r.malloc = false then some .malloc
  else if r.ringMalloc = false then some .ringMalloc
  else if calloc r.ringCalloc samplerCapacity itemSize = none then some .ringCalloc
  else
    match r.mutexInit, create with
    | some code, _ => some (.mutexInit code)
    | none, .failed code _ => some (.pthreadCreate code)
    | none, .created _ => none

/-- The `errno` of the call that is refused. -/
def Failure.errno : Failure → Errno
  | .argument => .EINVAL
  | .malloc => .ENOMEM
  | .ringMalloc => .ENOMEM
  | .ringCalloc => .ENOMEM
  | .mutexInit code => code
  | .pthreadCreate code => code

/-- The blocks freed after it with `errno` neither saved nor set again. -/
def Failure.frees : Failure → ℕ
  | .ringCalloc => 1
  | .pthreadCreate _ => 3
  | _ => 0

/-- The blocks of a sampler. -/
def Built.blocks (b : Built) : Multiset ℕ := b.block ::ₘ b.ringBlock ::ₘ {b.bufferBlock}

/-! ## The rules of a world -/

section Rules
variable (freeErrno : ℕ → Errno → Errno) {w w' : World} {blocks locks : Multiset ℕ} {b : ℕ}

namespace World

@[simp] theorem malloc_refused : w.malloc false = (none, { w with errno := .ENOMEM }) := rfl

theorem calloc_refused {ok : Bool} {nmemb size : ℕ} (h : Ctm.calloc ok nmemb size = none) :
    w.calloc ok nmemb size = (none, { w with errno := .ENOMEM }) := by
  rw [calloc, h]

theorem Owns.malloc (H : w.Owns blocks locks) :
    ∃ b w', w.malloc true = (some b, w') ∧ w'.Owns (b ::ₘ blocks) locks ∧ w'.errno = w.errno := by
  obtain ⟨b, memory, hmalloc, hO⟩ := H.memory.malloc
  refine ⟨b, ⟨memory, w.locks, w.errno⟩, ?_, ⟨hO, H.locks⟩, rfl⟩
  rw [World.malloc, hmalloc]

theorem Owns.calloc (H : w.Owns blocks locks) {ok : Bool} {nmemb size : ℕ} {bytes : List UInt8}
    (h : Ctm.calloc ok nmemb size = some bytes) :
    ∃ b w', w.calloc ok nmemb size = (some (b, bytes), w') ∧ w'.Owns (b ::ₘ blocks) locks ∧
      w'.errno = w.errno := by
  obtain ⟨b, memory, hmalloc, hO⟩ := H.memory.malloc
  refine ⟨b, ⟨memory, w.locks, w.errno⟩, ?_, ⟨hO, H.locks⟩, rfl⟩
  simp only [World.calloc, h, hmalloc]

theorem Owns.free (H : w.Owns (b ::ₘ blocks) locks) :
    ∃ w', w.free freeErrno b = some w' ∧ w'.Owns blocks locks ∧
      w'.errno = freeErrno b w.errno := by
  obtain ⟨memory, hfree, hO⟩ := H.memory.free
  refine ⟨⟨memory, w.locks, freeErrno b w.errno⟩, ?_, ⟨hO, H.locks⟩, rfl⟩
  rw [World.free, hfree]
  rfl

theorem Owns.mutexInit (H : w.Owns blocks locks) :
    w.mutexInit.2.Owns blocks (w.mutexInit.1 ::ₘ locks) := by
  obtain ⟨lock, L, hmalloc, hO⟩ := H.locks.malloc
  obtain ⟨hlock, hL⟩ := Prod.mk.inj (hmalloc : (some w.locks.next, _) = (some lock, L))
  obtain rfl := Option.some.inj hlock
  refine ⟨H.memory, ?_⟩
  change (w.locks.malloc true).2.Owns _
  rw [hmalloc]
  exact hO

theorem Owns.mutexDestroy (H : w.Owns blocks (b ::ₘ locks)) :
    ∃ w', w.mutexDestroy b = some w' ∧ w'.Owns blocks locks ∧ w'.errno = w.errno := by
  obtain ⟨L, hfree, hO⟩ := H.locks.free
  refine ⟨{ w with locks := L }, ?_, ⟨H.memory, hO⟩, rfl⟩
  rw [World.mutexDestroy, hfree]
  rfl

/-- `errno` owns nothing. -/
theorem Owns.setErrno (H : w.Owns blocks locks) (code : Errno) :
    { w with errno := code : World }.Owns blocks locks := ⟨H.memory, H.locks⟩

end World

theorem ringBufferFree_owns {ringBlock bufferBlock : ℕ}
    (H : w.Owns (bufferBlock ::ₘ ringBlock ::ₘ blocks) locks) :
    ∃ w', ringBufferFree freeErrno ringBlock bufferBlock w = some w' ∧ w'.Owns blocks locks ∧
      w'.errno = freeErrno ringBlock (freeErrno bufferBlock w.errno) := by
  obtain ⟨w₁, h₁, H₁, he₁⟩ := H.free freeErrno
  obtain ⟨w₂, h₂, H₂, he₂⟩ := H₁.free freeErrno
  refine ⟨w₂, ?_, H₂, by rw [he₂, he₁]⟩
  rw [ringBufferFree, h₁]
  exact h₂

/-- A ring buffer is two blocks. -/
theorem ringBufferAlloc_owns (H : w.Owns blocks locks) {capacity itemSize : ℕ} {callocOk : Bool}
    {bytes : List UInt8} (h : calloc callocOk capacity itemSize = some bytes) :
    ∃ ringBlock bufferBlock w', ringBufferAlloc freeErrno capacity itemSize true callocOk w =
        some (some (⟨capacity, 0, bytes, itemSize, 0⟩, ringBlock, bufferBlock), w') ∧
      w'.Owns (bufferBlock ::ₘ ringBlock ::ₘ blocks) locks := by
  obtain ⟨ringBlock, w₁, h₁, H₁, -⟩ := H.malloc
  obtain ⟨bufferBlock, w₂, h₂, H₂, -⟩ := H₁.calloc h
  refine ⟨ringBlock, bufferBlock, w₂, ?_, H₂⟩
  simp only [ringBufferAlloc, h₁, h₂]

/-- Without memory for the bytes `ring_buffer_alloc` frees the other block, and leaves the
`errno` of that. -/
theorem ringBufferAlloc_refused (H : w.Owns blocks locks) {capacity itemSize : ℕ} {callocOk : Bool}
    (h : calloc callocOk capacity itemSize = none) :
    ∃ ringBlock w', ringBufferAlloc freeErrno capacity itemSize true callocOk w = some (none, w') ∧
      w'.Owns blocks locks ∧ w'.errno = freeErrno ringBlock .ENOMEM := by
  obtain ⟨ringBlock, w₁, h₁, H₁, -⟩ := H.malloc
  obtain ⟨w₂, h₂, H₂, he₂⟩ := (H₁.setErrno .ENOMEM).free freeErrno
  refine ⟨ringBlock, w₂, ?_, H₂, he₂⟩
  simp only [ringBufferAlloc, h₁, World.calloc_refused h, h₂, Option.bind_eq_bind, Option.bind_some]
  rfl

theorem Built.blocks_add (b : Built) :
    b.blocks + blocks = b.bufferBlock ::ₘ b.ringBlock ::ₘ b.block ::ₘ blocks := by
  simp only [Built.blocks, ← Multiset.singleton_add]
  abel

/-- A stop changes only the flag, and `errno` where its join fails. -/
theorem samplerStop_eq (b : Built) (join : Option Errno) (w : World) :
    samplerStop b join w = ({ b with sampler := b.sampler.stopSection.2 },
      { w with errno := if b.sampler.isRunning then join.getD w.errno else w.errno }) := by
  cases hrun : b.sampler.isRunning <;> simp [samplerStop, stopSection, hrun]

/-- `sampler_destroy` gives back the three blocks and the mutex. -/
theorem samplerDestroy_owns {b : Built} (join : Option Errno)
    (H : w.Owns (b.blocks + blocks) (b.lock ::ₘ locks)) :
    ∃ w', samplerDestroy freeErrno b join w = some w' ∧ w'.Owns blocks locks ∧
      (b.sampler.isRunning = false → w'.errno =
        freeErrno b.block (freeErrno b.ringBlock (freeErrno b.bufferBlock w.errno))) := by
  rw [b.blocks_add] at H
  obtain ⟨w₁, h₁, H₁, he₁⟩ := (H.setErrno
    (if b.sampler.isRunning then join.getD w.errno else w.errno)).mutexDestroy
  obtain ⟨w₂, h₂, H₂, he₂⟩ := ringBufferFree_owns freeErrno H₁
  obtain ⟨w₃, h₃, H₃, he₃⟩ := H₂.free freeErrno
  refine ⟨w₃, ?_, H₃, ?_⟩
  · simp only [samplerDestroy, samplerStop_eq, Option.bind_eq_bind, h₁, Option.bind_some, h₂, h₃]
  · intro hrun
    rw [he₃, he₂, he₁, hrun]
    rfl

/-- What a constructor leaves: the blocks and the mutex of the sampler it answers, and if it
answers NULL the `errno` of the call that was refused, with what the frees after it made of it. -/
structure Leaves (freeErrno : ℕ → Errno → Errno) (blocks locks : Multiset ℕ)
    (failure : Option Failure) (result : Option Built) (w : World) : Prop where
  owns : w.Owns ((result.map Built.blocks).getD 0 + blocks)
    ((result.map fun b => {b.lock}).getD 0 + locks)
  isNone : result = none ↔ failure ≠ none
  errno : ∀ f, failure = some f → ∃ freed : List ℕ, freed.length = f.frees ∧
    w.errno = freed.foldl (fun code b => freeErrno b code) f.errno

variable {freeErrno} in
/-- A constructor that answers NULL owns nothing. -/
theorem Leaves.refused {f : Failure} (H : w.Owns blocks locks) (freed : List ℕ)
    (hfrees : freed.length = f.frees)
    (herrno : w.errno = freed.foldl (fun code b => freeErrno b code) f.errno) :
    Leaves freeErrno blocks locks (some f) none w := by
  refine ⟨?_, by simp, ?_⟩
  · simpa using H
  · intro f' hf
    obtain rfl := Option.some.inj hf
    exact ⟨freed, hfrees, herrno⟩

/-- What `sampler_create` leaves, without a subscriber or a thread. -/
theorem samplerCreate_spec (intervalMs itemSize : ℕ) (captureFn : Bool) (r : Resources)
    (t : ThreadId) (H : w.Owns blocks locks) :
    ∃ result w', samplerCreate freeErrno intervalMs itemSize captureFn r w = some (result, w') ∧
      Leaves freeErrno blocks locks (firstFailure itemSize captureFn true r (.created t)) result w' ∧
      result.map Built.sampler = (create intervalMs itemSize captureFn r).1 := by
  obtain ⟨malloc, ringMalloc, ringCalloc, mutexInit⟩ := r
  by_cases hargs : itemSize = 0 ∨ captureFn = false
  · refine ⟨none, { w with errno := .EINVAL }, if_pos hargs, ?_, ?_⟩
    · have hfailure : firstFailure itemSize captureFn true ⟨malloc, ringMalloc, ringCalloc, mutexInit⟩
          (.created t) = some .argument := if_pos (by tauto)
      rw [hfailure]
      exact .refused (H.setErrno _) [] rfl rfl
    · rw [create, if_pos hargs]
      rfl
  obtain ⟨hsize, hcapture⟩ := not_or.mp hargs
  cases malloc with
  | false =>
      refine ⟨none, { w with errno := .ENOMEM }, ?_, ?_, ?_⟩
      · rw [samplerCreate, if_neg hargs]
        rfl
      · simp only [firstFailure, hsize, hcapture]
        exact .refused (H.setErrno _) [] rfl rfl
      · simp [create, hsize, hcapture]
  | true =>
      obtain ⟨block, w₁, h₁, H₁, -⟩ := H.malloc
      cases ringMalloc with
      | false =>
          obtain ⟨w₂, h₂, H₂, -⟩ := (H₁.setErrno .ENOMEM).free freeErrno
          refine ⟨none, { w₂ with errno := .ENOMEM }, ?_, ?_, ?_⟩
          · rw [samplerCreate, if_neg hargs]
            simp only [h₁, ringBufferAlloc, World.malloc_refused, Option.bind_eq_bind,
              Option.bind_some, h₂]
            rfl
          · simp only [firstFailure, hsize, hcapture]
            exact .refused (H₂.setErrno _) [] rfl rfl
          · simp [create, hsize, hcapture, RingBuffer.alloc]
      | true =>
          cases hcalloc : calloc ringCalloc samplerCapacity itemSize with
          | none =>
              obtain ⟨ringBlock, w₂, h₂, H₂, he₂⟩ :=
                ringBufferAlloc_refused freeErrno H₁ hcalloc
              obtain ⟨w₃, h₃, H₃, -⟩ := H₂.free freeErrno
              refine ⟨none, { w₃ with errno := w₂.errno }, ?_, ?_, ?_⟩
              · rw [samplerCreate, if_neg hargs]
                simp only [h₁, h₂, Option.bind_eq_bind, Option.bind_some, h₃]
                rfl
              · simp only [firstFailure, hsize, hcapture, hcalloc]
                exact .refused (H₃.setErrno _) [ringBlock] rfl he₂
              · simp [create, hsize, hcapture, RingBuffer.alloc, hcalloc]
          | some bytes =>
              obtain ⟨ringBlock, bufferBlock, w₂, h₂, H₂⟩ :=
                ringBufferAlloc_owns freeErrno H₁ hcalloc
              cases mutexInit with
              | some code =>
                  obtain ⟨w₃, h₃, H₃, -⟩ := ringBufferFree_owns freeErrno H₂
                  obtain ⟨w₄, h₄, H₄, -⟩ := H₃.free freeErrno
                  refine ⟨none, { w₄ with errno := code }, ?_, ?_, ?_⟩
                  · rw [samplerCreate, if_neg hargs]
                    simp only [h₁, h₂, Option.bind_eq_bind, Option.bind_some, h₃, h₄]
                    rfl
                  · simp only [firstFailure, hsize, hcapture, hcalloc]
                    exact .refused (H₄.setErrno _) [] rfl rfl
                  · simp [create, hsize, hcapture, RingBuffer.alloc, hcalloc]
              | none =>
                  refine ⟨some ⟨⟨⟨samplerCapacity, 0, bytes, itemSize, 0⟩, intervalMs, false, none,
                    false⟩, block, ringBlock, bufferBlock, w₂.mutexInit.1⟩, w₂.mutexInit.2, ?_, ?_, ?_⟩
                  · rw [samplerCreate, if_neg hargs]
                    simp only [h₁, h₂, Option.bind_eq_bind, Option.bind_some]
                    rfl
                  · simp only [firstFailure, hsize, hcapture, hcalloc]
                    refine ⟨?_, by simp, by simp⟩
                    have H₃ := H₂.mutexInit
                    rw [Option.map_some, Option.getD_some, Built.blocks_add]
                    exact H₃
                  · simp [create, hsize, hcapture, RingBuffer.alloc, hcalloc]

/-- A sampler leaves `errno` alone. -/
theorem create_of_fst {intervalMs itemSize : ℕ} {captureFn : Bool} {r : Resources} {s : Sampler}
    (h : (create intervalMs itemSize captureFn r).1 = some s) :
    create intervalMs itemSize captureFn r = (some s, none) := by
  rw [create] at h ⊢
  split at h
  · cases h
  · split at h
    · cases h
    · split at h
      · cases h
      · split at h
        · cases h
        · rename_i hargs hmalloc _ ringBuffer hring _ hmutex
          obtain rfl := Option.some.inj h
          simp [hargs, hmalloc]

/-- A thread that is not created is refused last. -/
theorem firstFailure_eq (itemSize : ℕ) (captureFn : Bool) (r : Resources) (create : PthreadCreate)
    (t : ThreadId) : firstFailure itemSize captureFn true r create =
      (firstFailure itemSize captureFn true r (.created t)).or
        (match create with
          | .created _ => none
          | .failed code _ => some (.pthreadCreate code)) := by
  unfold firstFailure
  split
  · rfl
  · split
    · rfl
    · split
      · rfl
      · split
        · rfl
        · cases r.mutexInit <;> cases create <;> rfl

/-- A created sampler that is then started is that of a run of its threads. -/
theorem exists_reachable {intervalMs itemSize : ℕ} {captureFn : Bool} {r : Resources} {s : Sampler}
    (h : create intervalMs itemSize captureFn r = (some s, none)) (t : ThreadId) :
    ∃ system, Transition.Reachable System.Initial System.Step system ∧
      system.sampler = { s with isRunning := true, thread := some t, onCaptured := true } := by
  have hcapture : captureFn = true := by
    by_contra hne
    rw [create, if_pos (.inr (by simpa using hne))] at h
    cases h
  rw [hcapture] at h
  have hinit : System.Initial ⟨{ s with onCaptured := true }, fun _ => none, fun _ => none, none,
      false⟩ := ⟨intervalMs, itemSize, r, s, true, h, rfl⟩
  have hrun : s.isRunning = false := create_isRunning h
  have hstep : System.Step ⟨{ s with onCaptured := true }, fun _ => none, fun _ => none, none, false⟩
      (.start (.other 0) (.created t))
      (System.setThread ⟨{ s with isRunning := true, thread := some t, onCaptured := true },
        fun _ => none, fun _ => none, none, false⟩ t (some .top)) := by
    simp [System.Step, System.next, System.canCall, startSection, hrun]
  exact ⟨_, (Transition.Reachable.init hinit).step hstep, rfl⟩

/-- **A sampler is all there or not at all.**  Whichever of the calls in
`sampler_create_with_subscription_and_start` is refused, no block and no mutex is left behind and
none is given back twice; `errno` is the code of that call, passed through the one `free` after a
refused `calloc` and through the three after a refused `pthread_create`.  A sampler that is
answered runs with the thread created, as in a run of its threads, and `sampler_destroy` gives
back all it owns. -/
theorem samplerCreateWithSubscriptionAndStart_spec (intervalMs itemSize : ℕ)
    (captureFn callback : Bool) (r : Resources) (pthreadCreate : PthreadCreate)
    (H : w.Owns blocks locks) :
    ∃ result w', samplerCreateWithSubscriptionAndStart freeErrno intervalMs itemSize captureFn
        callback r pthreadCreate w = some (result, w') ∧
      Leaves freeErrno blocks locks (firstFailure itemSize captureFn callback r pthreadCreate)
        result w' ∧
      ∀ b, result = some b →
        (∃ t, pthreadCreate = .created t ∧ b.sampler.isRunning = true ∧ b.sampler.thread = some t) ∧
        (∃ system, Transition.Reachable System.Initial System.Step system ∧
          system.sampler = b.sampler) ∧
        ∀ join, ∃ w'', samplerDestroy freeErrno b join w' = some w'' ∧ w''.Owns blocks locks := by
  by_cases hargs : captureFn = false ∨ callback = false
  · refine ⟨none, { w with errno := .EINVAL }, if_pos hargs, ?_, by simp⟩
    have hfailure : firstFailure itemSize captureFn callback r pthreadCreate = some .argument :=
      if_pos (by tauto)
    rw [hfailure]
    exact .refused (H.setErrno _) [] rfl rfl
  obtain rfl : callback = true := by simpa using (not_or.mp hargs).2
  obtain ⟨result, w₁, h₁, L₁, hview⟩ :=
    samplerCreate_spec freeErrno intervalMs itemSize captureFn r 0 H
  rw [firstFailure_eq _ _ _ _ 0]
  cases result with
  | none =>
      obtain ⟨f, hf⟩ := Option.ne_none_iff_exists'.mp (L₁.isNone.mp rfl)
      refine ⟨none, w₁, ?_, ?_, by simp⟩
      · rw [samplerCreateWithSubscriptionAndStart, if_neg hargs, h₁]
        rfl
      · rw [hf] at L₁ ⊢
        exact L₁
  | some b =>
      have hcreate := create_of_fst hview.symm
      have hrun : b.sampler.isRunning = false := create_isRunning hcreate
      have hfailure : firstFailure itemSize captureFn true r (.created 0) = none := by
        by_contra hne
        cases L₁.isNone.mpr hne
      have hO : w₁.Owns (b.blocks + blocks) (b.lock ::ₘ locks) := L₁.owns
      cases pthreadCreate with
      | created t =>
          refine ⟨some { b with sampler := { b.sampler with
            isRunning := true, thread := some t, onCaptured := true } }, w₁, ?_, ?_, ?_⟩
          · rw [samplerCreateWithSubscriptionAndStart, if_neg hargs, h₁]
            simp [subscribe, startSection, hrun]
          · rw [hfailure]
            exact ⟨L₁.owns, by simp, by simp⟩
          · intro b' hb'
            obtain rfl := Option.some.inj hb'
            refine ⟨⟨t, rfl, rfl, rfl⟩, exists_reachable hcreate t, ?_⟩
            intro join
            obtain ⟨w₂, h₂, H₂, -⟩ := samplerDestroy_owns freeErrno
              (b := { b with sampler := { b.sampler with
                isRunning := true, thread := some t, onCaptured := true } }) join hO
            exact ⟨w₂, h₂, H₂⟩
      | failed code junk =>
          obtain ⟨w₂, h₂, H₂, he₂⟩ := samplerDestroy_owns freeErrno
            (b := { b with sampler := { b.sampler with
              isRunning := false, thread := junk, onCaptured := true } }) none (hO.setErrno code)
          refine ⟨none, w₂, ?_, ?_, by simp⟩
          · rw [samplerCreateWithSubscriptionAndStart, if_neg hargs, h₁]
            simp [subscribe, startSection, hrun, h₂]
          · rw [hfailure]
            exact .refused H₂ [b.bufferBlock, b.ringBlock, b.block] rfl (he₂ rfl)

/-- Without memory for a thread nothing is left, and a `free` that clears `errno` hides why. -/
theorem samplerCreateWithSubscriptionAndStart_spec_thread :
    ∃ w, samplerCreateWithSubscriptionAndStart (fun _ _ => .clear) 500 8 true true
        ⟨true, true, true, none⟩ (.failed .EAGAIN none) ⟨.empty, .empty, .clear⟩ = some (none, w) ∧
      w.memory.live = ∅ ∧ w.locks.live = ∅ ∧ w.errno = .clear := by
  obtain ⟨result, w, h, L, -⟩ := samplerCreateWithSubscriptionAndStart_spec
    (fun _ _ => .clear) 500 8 true true ⟨true, true, true, none⟩ (.failed .EAGAIN none)
    (w := ⟨.empty, .empty, .clear⟩) ⟨Ledger.owns_empty, Ledger.owns_empty⟩
  have hfailure : firstFailure 8 true true ⟨true, true, true, none⟩ (.failed .EAGAIN none) =
      some (.pthreadCreate .EAGAIN) := by
    have hcalloc : calloc true samplerCapacity 8 =
        some (List.replicate (samplerCapacity * 8) 0) := if_pos ⟨rfl, by decide⟩
    simp only [firstFailure, hcalloc]
    rfl
  rw [hfailure] at L
  obtain rfl : result = none := L.isNone.mpr (Option.some_ne_none _)
  obtain ⟨freed, hlength, herrno⟩ := L.errno _ rfl
  obtain ⟨b₁, b₂, b₃, rfl⟩ := List.length_eq_three.mp hlength
  exact ⟨w, h, Finset.val_eq_zero.mp L.owns.memory, Finset.val_eq_zero.mp L.owns.locks, herrno⟩

end Rules

end Sampler
end Ctm
