import Ctm.Lib.Spsc
import Ctm.Lib.Transition

/-!
# The sound player of `sound.c`

A stream plays a sound file through a ring of `BUFFER_SIZE` bytes.  PipeWire's playback
thread runs `on_playback_process`: it takes bytes out of the ring and adds one to an
eventfd counter.  The loop thread runs `on_eventfd_signal`: it resets the counter and,
under the thread loop's lock, runs `refill_ringbuffer`.  The first refill is the one
`ctm_sound_play_async` runs under the lock before it returns.

Each access to the ring, the file, the counter or the lock is one step, and the steps of
the two threads interleave in any order.

## Main definitions

* `AudioStreamSource` — the `CtmAudioStreamSource`.
* `framesToRead`, `bytesToCopy` — the space arithmetic of the two sides.
* `Playback`, `Refill` — where `on_playback_process` and `refill_ringbuffer` are.
* `System`, `next`, `Step` — the states and the steps.
* `ctmSoundPlayAsync`, `Playing` — the state a stream starts in, and those it reaches.
-/

namespace Ctm.Sound

/-- `BUFFER_SIZE` -/
def bufferSize : ℕ := 128 * 1024

/-- `sizeof(local_buffer)`, of 4096 samples. -/
def localBufferSize : ℕ := 2 * 4096

/-- The largest count an eventfd holds; a write that would pass it blocks. -/
def eventfdMax : ℕ := 2 ^ 64 - 2

/-- The `struct spa_ringbuffer`. -/
structure SpaRingbuffer where
  readindex : UInt32
  writeindex : UInt32
deriving DecidableEq, Repr

/-- `spa_ringbuffer_get_read_index`: the bytes in the ring, and the read index. -/
def SpaRingbuffer.getReadIndex (rbuf : SpaRingbuffer) : Int32 × UInt32 :=
  ((rbuf.writeindex - rbuf.readindex).toInt32, rbuf.readindex)

/-- `spa_ringbuffer_get_write_index`: the bytes in the ring, and the write index. -/
def SpaRingbuffer.getWriteIndex (rbuf : SpaRingbuffer) : Int32 × UInt32 :=
  ((rbuf.writeindex - rbuf.readindex).toInt32, rbuf.writeindex)

/-- The number of bytes written and not yet read. -/
def SpaRingbuffer.unread (rbuf : SpaRingbuffer) : ℕ := (rbuf.writeindex - rbuf.readindex).toNat

/-- The `CtmAudioStreamSource`, without its PipeWire handles. -/
structure AudioStreamSource where
  /-- `input_snd_file_info.channels` -/
  channels : ℕ
  /-- The bytes of the frames that `input_snd_file_handle` has not returned yet. -/
  inputSndFile : List UInt8
  running : Bool
  /-- Whether `on_finished` is set. -/
  onFinished : Bool
  fileEof : Bool
  ring : SpaRingbuffer
  buffer : ℕ → UInt8

/-- The bytes of one frame of 16-bit samples. -/
def AudioStreamSource.stride (s : AudioStreamSource) : ℕ := 2 * s.channels

/-- The frames `refill_ringbuffer` asks for, from the bytes in the ring. -/
def framesToRead (stride : ℕ) (usedSpace : Int32) : ℕ :=
  let availableSpace := (Int32.ofNat bufferSize - usedSpace).toUInt32
  let framesToRead := localBufferSize / stride
  if availableSpace.toNat / stride < framesToRead then availableSpace.toNat / stride
  else framesToRead

/-- The bytes `on_playback_process` takes out of the ring. -/
def bytesToCopy (readableBytes requiredBytes : UInt32) : UInt32 :=
  if readableBytes < requiredBytes then readableBytes else requiredBytes

/-- A buffer handed back to the stream: its chunk, and the bytes of its payload. -/
structure Chunk where
  offset : ℕ
  stride : ℕ
  size : UInt32
  payload : List UInt8

/-- The bytes the stream plays from a buffer. -/
def Chunk.bytes (c : Chunk) : List UInt8 := (c.payload.drop c.offset).take c.size.toNat

/-- Where `on_playback_process` is. -/
inductive Playback
  /-- Not called. -/
  | idle
  /-- Past `pw_stream_dequeue_buffer`. -/
  | dequeued (requiredBytes : UInt32)
  /-- About to call `spa_ringbuffer_read_data`. -/
  | found (index bytesToCopy : UInt32)
  /-- About to call `spa_ringbuffer_read_update`. -/
  | copied (index bytesToCopy : UInt32) (payload : List UInt8)
  /-- About to call `spa_system_eventfd_write`. -/
  | consumed (bytesToCopy : UInt32) (payload : List UInt8)
  /-- About to call `pw_stream_queue_buffer`. -/
  | filled (bytesToCopy : UInt32) (payload : List UInt8)

/-- Where `refill_ringbuffer` is. -/
inductive Refill
  /-- At its first line. -/
  | entered
  /-- About to call `sf_readf_short`. -/
  | reading (writeIndex : UInt32) (framesToRead : ℕ)
  /-- About to call `spa_ringbuffer_write_data`. -/
  | copying (writeIndex : UInt32) (localBuffer : List UInt8) (bytesToWrite : UInt32)
  /-- About to call `spa_ringbuffer_write_update`. -/
  | copied (writeIndex bytesToWrite : UInt32)
  /-- About to load both indices again. -/
  | loading
  /-- About to test whether the sound has finished. -/
  | testing (readIndex writeIndex : UInt32)

/-- Who runs `refill_ringbuffer`, holding the thread loop's lock. -/
inductive Caller
  | ctmSoundPlayAsync
  | onEventfdSignal
deriving DecidableEq, Repr

/-- A stream with its two threads. -/
structure System where
  source : AudioStreamSource
  /-- The count of the eventfd. -/
  eventfd : ℕ
  playback : Playback
  /-- The refill in progress; the lock is free when there is none. -/
  refill : Option (Caller × Refill)
  /-- `on_eventfd_signal` has reset the counter and waits for the lock. -/
  signalled : Bool
  /-- What the calls of `sf_readf_short` returned. -/
  frames : List (List UInt8)
  /-- The buffers handed back to the stream. -/
  chunks : List Chunk
  /-- The bytes in the ring each time `running` was cleared. -/
  finishes : List ℕ

/-- The steps of `on_playback_process`. -/
inductive PlaybackAction
  /-- A buffer of `maxsize` bytes is dequeued. -/
  | dequeue (maxsize : UInt32)
  /-- There is no buffer, or it has no payload. -/
  | dequeueFails
  | getReadIndex
  | readData
  | readUpdate
  | eventfdWrite
  | queueBuffer

/-- The steps of `on_eventfd_signal` before its refill. -/
inductive SignalAction
  | eventfdRead
  | lock

/-- The steps of `refill_ringbuffer`. -/
inductive RefillAction
  | getWriteIndex
  /-- `sf_readf_short` returns this number of frames. -/
  | readf (framesRead : ℕ)
  | writeData
  | writeUpdate
  | loadIndices
  /-- The last test, the callback, and the unlock after the return. -/
  | test

/-- The steps. -/
inductive Action
  | playback (a : PlaybackAction)
  | signal (a : SignalAction)
  | refill (a : RefillAction)

namespace System

/-- The thread of `on_eventfd_signal` is in the handler. -/
def handling (s : System) : Bool :=
  s.signalled || match s.refill with
    | some (.onEventfdSignal, _) => true
    | _ => false

/-- `on_playback_process`, one step. -/
def onPlaybackProcess (s : System) : PlaybackAction → Option System
  | .dequeue maxsize =>
      match s.playback with
      | .idle => some { s with playback := .dequeued maxsize }
      | _ => none
  | .dequeueFails =>
      match s.playback with
      | .idle => some s
      | _ => none
  | .getReadIndex =>
      match s.playback with
      | .dequeued requiredBytes =>
          let (readableBytes, index) := s.source.ring.getReadIndex
          let n := bytesToCopy readableBytes.toUInt32 requiredBytes
          if 0 < n then some { s with playback := .found index n }
          else some { s with playback := .filled n [] }
      | _ => none
  | .readData =>
      match s.playback with
      | .found index n =>
          let payload := Spsc.read s.source.buffer bufferSize (index.toNat % bufferSize) n.toNat
          some { s with playback := .copied index n payload }
      | _ => none
  | .readUpdate =>
      match s.playback with
      | .copied index n payload =>
          some { s with
            source := { s.source with ring := { s.source.ring with readindex := index + n } }
            playback := .consumed n payload }
      | _ => none
  | .eventfdWrite =>
      match s.playback with
      | .consumed n payload =>
          if s.eventfd + 1 ≤ eventfdMax then
            some { s with eventfd := s.eventfd + 1, playback := .filled n payload }
          else none
      | _ => none
  | .queueBuffer =>
      match s.playback with
      | .filled n payload =>
          some { s with
            chunks := s.chunks ++ [⟨0, s.source.stride, n, payload⟩]
            playback := .idle }
      | _ => none

/-- `on_eventfd_signal` up to its refill, one step. -/
def onEventfdSignal (s : System) : SignalAction → Option System
  | .eventfdRead =>
      if 0 < s.eventfd ∧ s.handling = false then some { s with eventfd := 0, signalled := true }
      else none
  | .lock =>
      match s.refill with
      | none =>
          if s.signalled then
            some { s with signalled := false, refill := some (.onEventfdSignal, .entered) }
          else none
      | some _ => none

/-- `refill_ringbuffer`, one step. -/
def refillRingbuffer (s : System) : RefillAction → Option System
  | .getWriteIndex =>
      match s.refill with
      | some (c, .entered) =>
          let (usedSpace, writeIndex) := s.source.ring.getWriteIndex
          let n := framesToRead s.source.stride usedSpace
          if 0 < n then some { s with refill := some (c, .reading writeIndex n) }
          else some { s with refill := some (c, .loading) }
      | _ => none
  | .readf framesRead =>
      match s.refill with
      | some (c, .reading writeIndex n) =>
          -- At most the frames asked for, and at most those left.
          if framesRead ≤ n ∧ framesRead * s.source.stride ≤ s.source.inputSndFile.length then
            let data := s.source.inputSndFile.take (framesRead * s.source.stride)
            let source := { s.source with
              inputSndFile := s.source.inputSndFile.drop (framesRead * s.source.stride) }
            if 0 < framesRead then
              some { s with
                source := source
                frames := s.frames ++ [data]
                refill := some (c, .copying writeIndex data
                  (UInt32.ofNat (framesRead * s.source.stride))) }
            else
              some { s with
                source := { source with fileEof := true }
                frames := s.frames ++ [data]
                refill := some (c, .loading) }
          else none
      | _ => none
  | .writeData =>
      match s.refill with
      | some (c, .copying writeIndex localBuffer n) =>
          let buffer := Spsc.write s.source.buffer bufferSize (writeIndex.toNat % bufferSize)
            (localBuffer.take n.toNat)
          some { s with
            source := { s.source with buffer := buffer }
            refill := some (c, .copied writeIndex n) }
      | _ => none
  | .writeUpdate =>
      match s.refill with
      | some (c, .copied writeIndex n) =>
          some { s with
            source := { s.source with ring := { s.source.ring with writeindex := writeIndex + n } }
            refill := some (c, .loading) }
      | _ => none
  | .loadIndices =>
      match s.refill with
      | some (c, .loading) =>
          some { s with
            refill := some (c, .testing s.source.ring.getReadIndex.2 s.source.ring.getWriteIndex.2) }
      | _ => none
  | .test =>
      match s.refill with
      | some (_, .testing readIndex writeIndex) =>
          if s.source.fileEof ∧ writeIndex ≤ readIndex then
            some { s with
              source := { s.source with running := false }
              finishes := s.finishes ++ [s.source.ring.unread]
              refill := none }
          else some { s with refill := none }
      | _ => none

/-- One step, where it is possible. -/
def next (s : System) : Action → Option System
  | .playback a => s.onPlaybackProcess a
  | .signal a => s.onEventfdSignal a
  | .refill a => s.refillRingbuffer a

/-- A step of the system. -/
def Step (s : System) (a : Action) (s' : System) : Prop := s.next a = some s'

/-- The number of calls of `on_finished`. -/
def calls (s : System) : ℕ := if s.source.onFinished then s.finishes.length else 0

/-- The concatenation of the frames read from the file. -/
def bytesRead (s : System) : List UInt8 := s.frames.flatten

/-- The concatenation of the chunks handed to the stream. -/
def bytesPlayed (s : System) : List UInt8 := s.chunks.flatMap Chunk.bytes

end System

/-- `ctm_sound_play_async` up to its refill, with the result of `malloc` and of `sf_open`: the
number of channels and the frames of the file. -/
def ctmSoundPlayAsync (malloc : Bool) (sfOpen : Option (ℕ × List UInt8)) (onFinished : Bool) :
    Option System :=
  if malloc = false then none
  else
    match sfOpen with
    | none => none
    | some (channels, file) =>
        some
          { source := ⟨channels, file, true, onFinished, false, ⟨0, 0⟩, fun _ => 0⟩
            eventfd := 0
            playback := .idle
            refill := some (.ctmSoundPlayAsync, .entered)
            signalled := false
            frames := []
            chunks := []
            finishes := [] }

/-- A stream of this file has been started. -/
def Started (channels : ℕ) (file : List UInt8) (onFinished : Bool) (s : System) : Prop :=
  ctmSoundPlayAsync true (some (channels, file)) onFinished = some s

/-- The states a stream of this file reaches. -/
def Playing (channels : ℕ) (file : List UInt8) (onFinished : Bool) : System → Prop :=
  Transition.Reachable (Started channels file onFinished) System.Step

/-- A list of steps from the start leads to a state the stream reaches. -/
theorem Playing.of_run {channels : ℕ} {file : List UInt8} {onFinished : Bool} {s : System}
    {as : List Action}
    (h : (ctmSoundPlayAsync true (some (channels, file)) onFinished).bind
      (fun s => as.foldlM System.next s) = some s) : Playing channels file onFinished s := by
  obtain ⟨s₀, hstart, hrun⟩ := Option.bind_eq_some_iff.mp h
  have h₀ : Playing channels file onFinished s₀ := .init hstart
  exact Transition.Reachable.foldlM (fun _ _ _ hnext => hnext) h₀ hrun

end Ctm.Sound
