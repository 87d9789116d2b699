import Ctm.Sound.Basic

/-!
# What a step of a playing stream can do

## Main definitions

* `Effect` — everything a step can do.
* `next_effect`, `Effect.step` — the steps are exactly these.
-/

namespace Ctm.Sound
namespace System
variable {s s' : System} {a : Action}

/-- Everything a step can do. -/
inductive Effect (s : System) : Action → System → Prop
  | dequeued (maxsize : UInt32) (h : s.playback = .idle) :
      Effect s (.playback (.dequeue maxsize)) { s with playback := .dequeued maxsize }
  | dequeueFailed (h : s.playback = .idle) : Effect s (.playback .dequeueFails) s
  | found (requiredBytes : UInt32) (h : s.playback = .dequeued requiredBytes)
      (hn : 0 < bytesToCopy (s.source.ring.writeindex - s.source.ring.readindex) requiredBytes) :
      Effect s (.playback .getReadIndex) { s with
        playback := .found s.source.ring.readindex
          (bytesToCopy (s.source.ring.writeindex - s.source.ring.readindex) requiredBytes) }
  | foundNone (requiredBytes : UInt32) (h : s.playback = .dequeued requiredBytes)
      (hn : bytesToCopy (s.source.ring.writeindex - s.source.ring.readindex) requiredBytes = 0) :
      Effect s (.playback .getReadIndex) { s with playback := .filled 0 [] }
  | copied (index n : UInt32) (h : s.playback = .found index n) :
      Effect s (.playback .readData) { s with
        playback := .copied index n
          (Spsc.read s.source.buffer bufferSize (index.toNat % bufferSize) n.toNat) }
  | consumed (index n : UInt32) (payload : List UInt8) (h : s.playback = .copied index n payload) :
      Effect s (.playback .readUpdate) { s with
        source := { s.source with ring := { s.source.ring with readindex := index + n } }
        playback := .consumed n payload }
  | signalled (n : UInt32) (payload : List UInt8) (h : s.playback = .consumed n payload)
      (hmax : s.eventfd + 1 ≤ eventfdMax) :
      Effect s (.playback .eventfdWrite) { s with
        eventfd := s.eventfd + 1
        playback := .filled n payload }
  | queued (n : UInt32) (payload : List UInt8) (h : s.playback = .filled n payload) :
      Effect s (.playback .queueBuffer) { s with
        chunks := s.chunks ++ [⟨0, s.source.stride, n, payload⟩]
        playback := .idle }
  | woken (hpos : 0 < s.eventfd) (h : s.handling = false) :
      Effect s (.signal .eventfdRead) { s with eventfd := 0, signalled := true }
  | locked (h : s.refill = none) (hs : s.signalled = true) :
      Effect s (.signal .lock) { s with
        signalled := false
        refill := some (.onEventfdSignal, .entered) }
  | asked (c : Caller) (h : s.refill = some (c, .entered))
      (hn : 0 < framesToRead s.source.stride s.source.ring.getWriteIndex.1) :
      Effect s (.refill .getWriteIndex) { s with
        refill := some (c, .reading s.source.ring.writeindex
          (framesToRead s.source.stride s.source.ring.getWriteIndex.1)) }
  | full (c : Caller) (h : s.refill = some (c, .entered))
      (hn : framesToRead s.source.stride s.source.ring.getWriteIndex.1 = 0) :
      Effect s (.refill .getWriteIndex) { s with refill := some (c, .loading) }
  | read (c : Caller) (writeIndex : UInt32) (n framesRead : ℕ)
      (h : s.refill = some (c, .reading writeIndex n)) (hle : framesRead ≤ n)
      (hlen : framesRead * s.source.stride ≤ s.source.inputSndFile.length)
      (hpos : 0 < framesRead) :
      Effect s (.refill (.readf framesRead)) { s with
        source := { s.source with
          inputSndFile := s.source.inputSndFile.drop (framesRead * s.source.stride) }
        frames := s.frames ++ [s.source.inputSndFile.take (framesRead * s.source.stride)]
        refill := some (c, .copying writeIndex
          (s.source.inputSndFile.take (framesRead * s.source.stride))
          (UInt32.ofNat (framesRead * s.source.stride))) }
  | ended (c : Caller) (writeIndex : UInt32) (n : ℕ)
      (h : s.refill = some (c, .reading writeIndex n)) :
      Effect s (.refill (.readf 0)) { s with
        source := { s.source with fileEof := true }
        frames := s.frames ++ [[]]
        refill := some (c, .loading) }
  | wrote (c : Caller) (writeIndex : UInt32) (localBuffer : List UInt8) (n : UInt32)
      (h : s.refill = some (c, .copying writeIndex localBuffer n)) :
      Effect s (.refill .writeData) { s with
        source := { s.source with
          buffer := Spsc.write s.source.buffer bufferSize (writeIndex.toNat % bufferSize)
            (localBuffer.take n.toNat) }
        refill := some (c, .copied writeIndex n) }
  | produced (c : Caller) (writeIndex n : UInt32) (h : s.refill = some (c, .copied writeIndex n)) :
      Effect s (.refill .writeUpdate) { s with
        source := { s.source with ring := { s.source.ring with writeindex := writeIndex + n } }
        refill := some (c, .loading) }
  | loaded (c : Caller) (h : s.refill = some (c, .loading)) :
      Effect s (.refill .loadIndices) { s with
        refill := some (c, .testing s.source.ring.readindex s.source.ring.writeindex) }
  | finished (c : Caller) (readIndex writeIndex : UInt32)
      (h : s.refill = some (c, .testing readIndex writeIndex)) (heof : s.source.fileEof = true)
      (hle : writeIndex ≤ readIndex) :
      Effect s (.refill .test) { s with
        source := { s.source with running := false }
        finishes := s.finishes ++ [s.source.ring.unread]
        refill := none }
  | passed (c : Caller) (readIndex writeIndex : UInt32)
      (h : s.refill = some (c, .testing readIndex writeIndex))
      (hnot : ¬ (s.source.fileEof = true ∧ writeIndex ≤ readIndex)) :
      Effect s (.refill .test) { s with refill := none }

theorem onPlaybackProcess_effect {a : PlaybackAction} (h : s.onPlaybackProcess a = some s') :
    Effect s (.playback a) s' := by
  cases a with
  | dequeue maxsize =>
      cases hp : s.playback <;> simp only [onPlaybackProcess, hp, reduceCtorEq] at h
      obtain rfl := Option.some.inj h
      exact .dequeued maxsize hp
  | dequeueFails =>
      cases hp : s.playback <;> simp only [onPlaybackProcess, hp, reduceCtorEq] at h
      obtain rfl := Option.some.inj h
      exact .dequeueFailed hp
  | getReadIndex =>
      cases hp : s.playback <;>
        simp only [onPlaybackProcess, hp, SpaRingbuffer.getReadIndex, UInt32.toUInt32_toInt32,
          reduceCtorEq] at h
      rename_i requiredBytes
      split at h
      · rename_i hn
        obtain rfl := Option.some.inj h
        exact .found requiredBytes hp hn
      · rename_i hn
        have hzero := UInt32.le_zero_iff.mp (UInt32.not_lt.mp hn)
        rw [hzero] at h
        obtain rfl := Option.some.inj h
        exact .foundNone requiredBytes hp hzero
  | readData =>
      cases hp : s.playback <;> simp only [onPlaybackProcess, hp, reduceCtorEq] at h
      obtain rfl := Option.some.inj h
      exact .copied _ _ hp
  | readUpdate =>
      cases hp : s.playback <;> simp only [onPlaybackProcess, hp, reduceCtorEq] at h
      obtain rfl := Option.some.inj h
      exact .consumed _ _ _ hp
  | eventfdWrite =>
      cases hp : s.playback <;> simp only [onPlaybackProcess, hp, reduceCtorEq] at h
      split at h
      · rename_i hmax
        obtain rfl := Option.some.inj h
        exact .signalled _ _ hp hmax
      · cases h
  | queueBuffer =>
      cases hp : s.playback <;> simp only [onPlaybackProcess, hp, reduceCtorEq] at h
      obtain rfl := Option.some.inj h
      exact .queued _ _ hp

theorem onEventfdSignal_effect {a : SignalAction} (h : s.onEventfdSignal a = some s') :
    Effect s (.signal a) s' := by
  cases a with
  | eventfdRead =>
      rw [onEventfdSignal] at h
      split at h
      · rename_i hready
        obtain rfl := Option.some.inj h
        exact .woken hready.1 hready.2
      · cases h
  | lock =>
      cases hr : s.refill with
      | some r => simp only [onEventfdSignal, hr, reduceCtorEq] at h
      | none =>
          simp only [onEventfdSignal, hr] at h
          split at h
          · rename_i hs
            obtain rfl := Option.some.inj h
            exact .locked hr hs
          · cases h

theorem refillRingbuffer_effect {a : RefillAction} (h : s.refillRingbuffer a = some s') :
    Effect s (.refill a) s' := by
  cases hr : s.refill with
  | none => cases a <;> simp only [refillRingbuffer, hr, reduceCtorEq] at h
  | some r =>
      obtain ⟨c, pc⟩ := r
      cases a with
      | getWriteIndex =>
          cases pc <;> simp only [refillRingbuffer, hr, reduceCtorEq] at h
          split at h
          · rename_i hn
            obtain rfl := Option.some.inj h
            exact .asked c hr hn
          · rename_i hn
            obtain rfl := Option.some.inj h
            exact .full c hr (Nat.eq_zero_of_not_pos hn)
      | readf framesRead =>
          cases pc <;> simp only [refillRingbuffer, hr, reduceCtorEq] at h
          split at h
          · rename_i hle
            split at h
            · rename_i hpos
              obtain rfl := Option.some.inj h
              exact .read c _ _ framesRead hr hle.1 hle.2 hpos
            · rename_i hpos
              obtain rfl : framesRead = 0 := Nat.eq_zero_of_not_pos hpos
              rw [Nat.zero_mul, List.take_zero, List.drop_zero] at h
              obtain rfl := Option.some.inj h
              exact .ended c _ _ hr
          · cases h
      | writeData =>
          cases pc <;> simp only [refillRingbuffer, hr, reduceCtorEq] at h
          obtain rfl := Option.some.inj h
          exact .wrote c _ _ _ hr
      | writeUpdate =>
          cases pc <;> simp only [refillRingbuffer, hr, reduceCtorEq] at h
          obtain rfl := Option.some.inj h
          exact .produced c _ _ hr
      | loadIndices =>
          cases pc <;> simp only [refillRingbuffer, hr, reduceCtorEq] at h
          obtain rfl := Option.some.inj h
          exact .loaded c hr
      | test =>
          cases pc <;> simp only [refillRingbuffer, hr, reduceCtorEq] at h
          split at h
          · rename_i hfin
            obtain rfl := Option.some.inj h
            exact .finished c _ _ hr hfin.1 hfin.2
          · rename_i hnot
            obtain rfl := Option.some.inj h
            exact .passed c _ _ hr hnot

/-- Every step is one of the effects. -/
theorem next_effect (h : Step s a s') : Effect s a s' := by
  cases a with
  | playback a => exact onPlaybackProcess_effect h
  | signal a => exact onEventfdSignal_effect h
  | refill a => exact refillRingbuffer_effect h

/-- Every effect is that of a step. -/
theorem Effect.step (h : Effect s a s') : Step s a s' := by
  cases h with
  | dequeued maxsize h => simp [Step, next, onPlaybackProcess, h]
  | dequeueFailed h => simp [Step, next, onPlaybackProcess, h]
  | found requiredBytes h hn =>
      simp [Step, next, onPlaybackProcess, h, SpaRingbuffer.getReadIndex, hn]
  | foundNone requiredBytes h hn =>
      simp [Step, next, onPlaybackProcess, h, SpaRingbuffer.getReadIndex, hn]
  | copied index n h => simp [Step, next, onPlaybackProcess, h]
  | consumed index n payload h => simp [Step, next, onPlaybackProcess, h]
  | signalled n payload h hmax => simp [Step, next, onPlaybackProcess, h, hmax]
  | queued n payload h => simp [Step, next, onPlaybackProcess, h]
  | woken hpos h => simp [Step, next, onEventfdSignal, hpos, h]
  | locked h hs => simp [Step, next, onEventfdSignal, h, hs]
  | asked c h hn =>
      simp only [Step, next, refillRingbuffer, h]
      rw [if_pos hn]
      rfl
  | full c h hn =>
      simp only [Step, next, refillRingbuffer, h]
      rw [if_neg (by rw [hn]; exact Nat.lt_irrefl 0)]
  | read c writeIndex n framesRead h hle hlen hpos =>
      simp [Step, next, refillRingbuffer, h, hle, hlen, hpos]
  | ended c writeIndex n h => simp [Step, next, refillRingbuffer, h]
  | wrote c writeIndex localBuffer n h => simp [Step, next, refillRingbuffer, h]
  | produced c writeIndex n h => simp [Step, next, refillRingbuffer, h]
  | loaded c h =>
      simp [Step, next, refillRingbuffer, h, SpaRingbuffer.getReadIndex,
        SpaRingbuffer.getWriteIndex]
  | finished c readIndex writeIndex h heof hle =>
      simp [Step, next, refillRingbuffer, h, heof, hle]
  | passed c readIndex writeIndex h hnot =>
      simp only [Step, next, refillRingbuffer, h]
      rw [if_neg hnot]

end System
end Ctm.Sound
