import Ctm.Sound.Queue

/-!
# Whole frames

`refill_ringbuffer` counts in frames: what it puts in the ring is a multiple of the stride.
`on_playback_process` counts in bytes: it takes what is in the ring, or the buffer's
`maxsize` if that is less, and reports the size beside the stride.  So the ring holds whole
frames as long as no smaller `maxsize` cuts one.

## Main definitions

* `Playback.size`, `Refill.size` — the bytes each side is about to hand on.
* `Framed` — everything counted in bytes is a multiple of the stride.
* `System.WholeFrames`, `plays_whole_frames` — the buffers for which a stream stays framed.
-/

namespace Ctm.Sound

/-- The bytes `on_playback_process` is taking, or reports. -/
def Playback.size : Playback → UInt32
  | .idle => 0
  | .dequeued _ => 0
  | .found _ n => n
  | .copied _ n _ => n
  | .consumed n _ => n
  | .filled n _ => n

/-- The bytes `refill_ringbuffer` is putting in the ring. -/
def Refill.size : Refill → UInt32
  | .copying _ _ n => n
  | .copied _ n => n
  | _ => 0

/-- Everything counted in bytes is a multiple of the stride. -/
structure Framed (s : System) : Prop where
  unread : s.source.stride ∣ s.source.ring.unread
  playback : s.source.stride ∣ s.playback.size.toNat
  refill : ∀ c pc, s.refill = some (c, pc) → s.source.stride ∣ pc.size.toNat
  chunks : ∀ c ∈ s.chunks, c.stride = s.source.stride ∧ c.stride ∣ c.size.toNat

namespace System

/-- When the ring is looked at, the buffer has room for all of it or for whole frames. -/
def WholeFrames (s : System) : Action → Prop
  | .playback .getReadIndex => ∀ requiredBytes, s.playback = .dequeued requiredBytes →
      s.source.ring.unread ≤ requiredBytes.toNat ∨ s.source.stride ∣ requiredBytes.toNat
  | _ => True

end System

/-- Of whole frames, whole frames are taken exactly when no frame is cut. -/
theorem dvd_min_iff {stride readable required : ℕ} (h : stride ∣ readable) :
    stride ∣ min readable required ↔ readable ≤ required ∨ stride ∣ required := by
  rcases Nat.le_total readable required with hle | hle
  · rw [Nat.min_eq_left hle]
    exact ⟨fun _ => .inl hle, fun _ => h⟩
  · rw [Nat.min_eq_right hle]
    constructor
    · exact .inr
    · rintro (hge | hdvd)
      · rw [Nat.le_antisymm hle hge]
        exact h
      · exact hdvd

namespace Framed
variable {s s' : System} {a : Action} {r w : ℕ}

/-- A stream starts with an empty ring. -/
theorem init {channels : ℕ} {file : List UInt8} {onFinished : Bool}
    (h : Started channels file onFinished s) : Framed s := by
  have hempty : s.source.ring.unread = 0 := (Queue.init h).toNat_unread
  obtain rfl := Option.some.inj h
  refine ⟨by rw [hempty]; exact Nat.dvd_zero _, Nat.dvd_zero _, ?_, nofun⟩
  intro c pc hr
  obtain ⟨-, rfl⟩ := Prod.mk.inj (Option.some.inj hr)
  exact Nat.dvd_zero _

/-- The playback is at a place with whole frames. -/
theorem dvd_size (F : Framed s) {playback : Playback} (h : s.playback = playback) :
    s.source.stride ∣ playback.size.toNat := by
  rw [← h]
  exact F.playback

/-- A buffer gets whole frames exactly when it cuts none. -/
theorem dvd_bytesToCopy_iff (F : Framed s) (requiredBytes : UInt32) :
    s.source.stride ∣ (bytesToCopy (s.source.ring.writeindex - s.source.ring.readindex)
      requiredBytes).toNat ↔
      s.source.ring.unread ≤ requiredBytes.toNat ∨ s.source.stride ∣ requiredBytes.toNat := by
  rw [toNat_bytesToCopy]
  exact dvd_min_iff F.unread

/-- The bytes of the frames read from the file fit a 32-bit count. -/
theorem dvd_read (H : Queue s r w) {c : Caller} {writeIndex : UInt32} {asked k : ℕ}
    (h : s.refill = some (c, .reading writeIndex asked)) (hk : k ≤ asked) :
    s.source.stride ∣ (UInt32.ofNat (k * s.source.stride)).toNat := by
  have hrefill := H.refill
  rw [h] at hrefill
  have hroom := hrefill.2.2
  have hle := H.le
  have hlt := bufferSize_lt
  have hfits := H.fits
  have hmul : k * s.source.stride ≤ asked * s.source.stride := Nat.mul_le_mul_right _ hk
  rw [UInt32.toNat_ofNat', Nat.mod_eq_of_lt (by omega)]
  exact Nat.dvd_mul_left _ _

/-- Whole frames are taken out of the ring. -/
theorem consumed (F : Framed s) (H : Queue s r w) {index n : UInt32} {payload : List UInt8}
    (h : s.playback = .copied index n payload) :
    s.source.stride ∣
      ({ s.source.ring with readindex := index + n } : SpaRingbuffer).unread := by
  have hplayed : s.source.stride ∣ n.toNat := F.dvd_size h
  have hunread := F.unread
  rw [H.toNat_unread] at hunread
  have hafter := (H.consumed h).toNat_unread
  have hsub : w - (r + n.toNat) = w - r - n.toNat := by omega
  rw [hsub] at hafter
  exact hafter ▸ Nat.dvd_sub hunread hplayed

/-- Whole frames are put in the ring. -/
theorem produced (F : Framed s) (H : Queue s r w) {c : Caller} {writeIndex n : UInt32}
    (h : s.refill = some (c, .copied writeIndex n)) :
    s.source.stride ∣
      ({ s.source.ring with writeindex := writeIndex + n } : SpaRingbuffer).unread := by
  have hput := F.refill c _ h
  have hunread := F.unread
  rw [H.toNat_unread] at hunread
  have hafter := (H.produced h).toNat_unread
  have hle := H.le
  have hsub : w + n.toNat - r = w - r + n.toNat := by omega
  rw [hsub] at hafter
  exact hafter ▸ Nat.dvd_add hunread hput

/-- A step that cuts no frame keeps whole frames. -/
theorem step (F : Framed s) (H : Queue s r w) (hok : s.WholeFrames a)
    (h : System.Step s a s') : Framed s' := by
  have hzero : s.source.stride ∣ (0 : UInt32).toNat := Nat.dvd_zero _
  have hone : ∀ {c : Caller} {pc : Refill}, s.source.stride ∣ pc.size.toNat →
      ∀ c' pc', some (c, pc) = some (c', pc') → s.source.stride ∣ pc'.size.toNat := by
    intro c pc hdvd c' pc' heq
    obtain ⟨-, rfl⟩ := Prod.mk.inj (Option.some.inj heq)
    exact hdvd
  cases System.next_effect h with
  | dequeued maxsize hp => exact { F with playback := hzero }
  | dequeueFailed hp => exact F
  | found required hp hn =>
      exact { F with playback := (F.dvd_bytesToCopy_iff required).mpr (hok required hp) }
  | foundNone required hp hn => exact { F with playback := hzero }
  | copied index n hp =>
      have hplayed : s.source.stride ∣ n.toNat := F.dvd_size hp
      exact { F with playback := hplayed }
  | consumed index n payload hp =>
      have hplayed : s.source.stride ∣ n.toNat := F.dvd_size hp
      exact { F with unread := F.consumed H hp, playback := hplayed }
  | signalled n payload hp hmax =>
      have hplayed : s.source.stride ∣ n.toNat := F.dvd_size hp
      exact { F with playback := hplayed }
  | queued n payload hp =>
      have hplayed : s.source.stride ∣ n.toNat := F.dvd_size hp
      refine { F with playback := hzero, chunks := ?_ }
      intro c hc
      rcases List.mem_append.mp hc with hold | hnew
      · exact F.chunks c hold
      · obtain rfl := List.mem_singleton.mp hnew
        exact ⟨rfl, hplayed⟩
  | woken hpos hh => exact { F with }
  | locked hr hs => exact { F with refill := hone hzero }
  | asked c hr hn => exact { F with refill := hone hzero }
  | full c hr hn => exact { F with refill := hone hzero }
  | read c writeIndex asked framesRead hr hle hlen hpos =>
      exact { F with refill := hone (dvd_read H hr hle) }
  | ended c writeIndex asked hr => exact { F with refill := hone hzero }
  | wrote c writeIndex localBuffer n hr =>
      have hput : s.source.stride ∣ n.toNat := F.refill c _ hr
      exact { F with refill := hone hput }
  | produced c writeIndex n hr =>
      exact { F with unread := F.produced H hr, refill := hone hzero }
  | loaded c hr => exact { F with refill := hone hzero }
  | finished c readIndex writeIndex hr heof hle => exact { F with refill := nofun }
  | passed c readIndex writeIndex hr hnot => exact { F with refill := nofun }

end Framed

/-! ## Whole runs -/

section Run
variable {channels : ℕ} {file : List UInt8} {onFinished : Bool} {s : System}

/-- The stride is that of the file. -/
theorem Playing.stride_eq (h : Playing channels file onFinished s) :
    s.source.stride = 2 * channels := by
  refine h.invariant (fun s => s.source.stride = 2 * channels) ?_ ?_
  · intro s hs
    obtain rfl := Option.some.inj hs
    rfl
  · intro s a s' H hstep
    cases System.next_effect hstep with
    | _ => exact H

/-- **Whole frames are handed out** in the runs in which no buffer cuts a frame, and a
buffer looked at in such a run gets whole frames exactly when it meets that condition. -/
theorem plays_whole_frames
    (h : Transition.Reachable (Started channels file onFinished)
      (Transition.Guarded System.WholeFrames System.Step) s) :
    (∀ c ∈ s.chunks, c.stride = 2 * channels ∧ 2 * channels ∣ c.size.toNat) ∧
    2 * channels ∣ s.source.ring.unread ∧
    ∀ requiredBytes s', s.playback = .dequeued requiredBytes →
      System.Step s (.playback .getReadIndex) s' →
        (2 * channels ∣ s'.playback.size.toNat ↔ s.WholeFrames (.playback .getReadIndex)) := by
  have hstride := Playing.stride_eq h.of_guarded
  have F : Framed s := by
    clear hstride
    induction h with
    | init hs => exact .init hs
    | step h hstep ih =>
        obtain ⟨r, w, H⟩ := Playing.queue h.of_guarded
        exact ih.step H hstep.1 hstep.2
  rw [← hstride]
  refine ⟨?_, F.unread, ?_⟩
  · intro c hc
    obtain ⟨hc, hdvd⟩ := F.chunks c hc
    exact ⟨hc, hc ▸ hdvd⟩
  · intro requiredBytes s' hp hstep
    have hok : s.WholeFrames (.playback .getReadIndex) ↔
        s.source.ring.unread ≤ requiredBytes.toNat ∨ s.source.stride ∣ requiredBytes.toNat := by
      rw [System.WholeFrames, hp]
      constructor
      · intro hall
        exact hall requiredBytes rfl
      · intro hone n hn
        obtain rfl := Playback.dequeued.inj hn
        exact hone
    rw [hok, ← F.dvd_bytesToCopy_iff]
    cases System.next_effect hstep with
    | found required hp' hn =>
        obtain rfl := Playback.dequeued.inj (hp.symm.trans hp')
        rfl
    | foundNone required hp' hn =>
        obtain rfl := Playback.dequeued.inj (hp.symm.trans hp')
        rw [hn]
        rfl

/-- One of the two frames of a file of three channels is played from a buffer of its size. -/
theorem plays_whole_frames_run : ∃ s,
    Transition.Reachable (Started 3 (List.replicate 12 1) true)
      (Transition.Guarded System.WholeFrames System.Step) s ∧
    s.chunks.map Chunk.size = [6] ∧ s.source.ring.unread = 6 ∧
    ∀ c ∈ s.chunks, c.stride = 2 * 3 ∧ 2 * 3 ∣ c.size.toNat := by
  have h : Transition.Reachable (Started 3 (List.replicate 12 1) true)
      (Transition.Guarded System.WholeFrames System.Step) _ := .init rfl
  have h₁ := h.step ⟨by trivial, (System.Effect.asked _ rfl (by decide)).step⟩
  have h₂ := h₁.step ⟨by trivial,
    (System.Effect.read _ _ _ 2 rfl (by decide) (by decide) (by decide)).step⟩
  have h₃ := h₂.step ⟨by trivial, (System.Effect.wrote _ _ _ _ rfl).step⟩
  have h₄ := h₃.step ⟨by trivial, (System.Effect.produced _ _ _ rfl).step⟩
  have h₅ := h₄.step ⟨by trivial, (System.Effect.dequeued 6 rfl).step⟩
  have h₆ := h₅.step (e := .playback .getReadIndex) ⟨by
    intro requiredBytes hp
    obtain rfl := Playback.dequeued.inj hp
    exact .inr (Nat.dvd_refl 6), (System.Effect.found _ rfl (by decide)).step⟩
  have h₇ := h₆.step ⟨by trivial, (System.Effect.copied _ _ rfl).step⟩
  have h₈ := h₇.step ⟨by trivial, (System.Effect.consumed _ _ _ rfl).step⟩
  have h₉ := h₈.step ⟨by trivial, (System.Effect.signalled _ _ rfl (by decide)).step⟩
  have h₁₀ := h₉.step ⟨by trivial, (System.Effect.queued _ _ rfl).step⟩
  exact ⟨_, h₁₀, by decide, by decide, (plays_whole_frames h₁₀).1⟩

/-- A buffer of eight bytes cuts the second frame of six: the size reported is no multiple
of the stride, and four bytes stay in the ring. -/
theorem cuts_frame : ¬ ∀ channels file onFinished s, 1 ≤ channels ∧ channels ≤ 1024 →
    Playing channels file onFinished s →
      (∀ c ∈ s.chunks, c.stride ∣ c.size.toNat) ∧ 2 * channels ∣ s.source.ring.unread := by
  intro hall
  let actions : List Action :=
    [.refill .getWriteIndex, .refill (.readf 2), .refill .writeData, .refill .writeUpdate,
      .playback (.dequeue 8), .playback .getReadIndex, .playback .readData, .playback .readUpdate,
      .playback .eventfdWrite, .playback .queueBuffer]
  have hcut : ((ctmSoundPlayAsync true (some (3, List.replicate 12 1)) true).bind
      fun s => actions.foldlM System.next s).map
        (fun s => (s.chunks.map fun c => (c.stride, c.size.toNat), s.source.ring.unread)) =
          some ([(6, 8)], 4) := by decide
  obtain ⟨s, hrun, hcut⟩ := Option.map_eq_some_iff.mp hcut
  obtain ⟨-, hunread⟩ := hall 3 (List.replicate 12 1) true s (by decide) (.of_run hrun)
  obtain ⟨-, hfour⟩ := Prod.mk.inj hcut
  rw [hfour] at hunread
  exact absurd hunread (by decide)

end Run

end Ctm.Sound
