import Ctm.Sound.Progress

/-!
# When a stream finishes

A refill that has seen the end of the file clears `running` and calls `on_finished` when
the read index it loads is not below the write index.  This should happen once, with an
empty ring.

Two things go wrong.  The indices are compared as numbers, so bytes that lie across a
multiple of `2 ^ 32` pass for an empty ring.  And nothing tests `running`: a signal still
under way at the finish starts another refill, which finishes the stream again.

## Main definitions

* `Finishes` — the last test of the refill in progress clears `running`.
* `NoStraddle`, `never_early` — when the ring is empty at a finish.
* `FinishesQuietly`, `calls_le_one` — when there is one finish.
-/

namespace Ctm.Sound

variable {r w : ℕ}

namespace System
variable {s s' : System} {a : Action}

/-- The last test of the refill in progress clears `running`. -/
def Finishes (s : System) : Prop :=
  ∃ c readIndex writeIndex, s.refill = some (c, .testing readIndex writeIndex) ∧
    s.source.fileEof = true ∧ writeIndex ≤ readIndex

/-- When the file has ended, the bytes between the indices the refill has loaded do not lie
across a multiple of `2 ^ 32`, or they have been played since. -/
def NoStraddle (s : System) : Prop :=
  ∀ c readIndex writeIndex, s.refill = some (c, .testing readIndex writeIndex) →
    s.source.fileEof = true →
      (writeIndex - readIndex).toNat ≤ writeIndex.toNat ∨ s.source.ring.unread = 0

/-- The last test of a refill is made without a straddle. -/
def TestsUnwrapped (s : System) : Action → Prop
  | .refill .test => s.NoStraddle
  | _ => True

/-- A finish that is notified comes with an empty ring and no signal under way. -/
def FinishesQuietly (s : System) : Action → Prop
  | .refill .test => s.source.onFinished = true → s.Finishes →
      s.source.ring.unread = 0 ∧ ¬ s.Signalling
  | _ => True

end System

/-! ## The ring at a finish -/

section Early
variable {channels : ℕ} {file : List UInt8} {onFinished : Bool} {init : System → Prop}
  {s s' : System} {a : Action}

/-- The test of the loaded indices. -/
theorem Queue.writeIndex_le_iff (H : Queue s r w) {c : Caller} {readIndex writeIndex : UInt32}
    (h : s.refill = some (c, .testing readIndex writeIndex)) :
    ∃ r' ≤ r, writeIndex ≤ readIndex ↔
      r' = w ∨ writeIndex.toNat < (writeIndex - readIndex).toNat := by
  have hrefill := H.refill
  rw [h] at hrefill
  obtain ⟨-, rfl, r', hle, hfits, rfl⟩ := hrefill
  have hlt := bufferSize_lt
  have hr := H.le
  refine ⟨r', hle, ?_⟩
  rw [Spsc.toNat_sub (by omega) (by omega)]
  exact Spsc.le_iff (by omega) (by omega)

/-- A finish finds the ring empty exactly when there is no straddle. -/
theorem Queue.finishes_iff (H : Queue s r w) :
    (s.Finishes → s.source.ring.unread = 0) ↔ s.NoStraddle := by
  constructor
  · intro h c readIndex writeIndex hr heof
    obtain ⟨r', hle, hiff⟩ := H.writeIndex_le_iff hr
    by_cases hstraddle : writeIndex.toNat < (writeIndex - readIndex).toNat
    · exact .inr (h ⟨c, readIndex, writeIndex, hr, heof, hiff.mpr (.inr hstraddle)⟩)
    · exact .inl (Nat.le_of_not_lt hstraddle)
  · rintro h ⟨c, readIndex, writeIndex, hr, heof, hle⟩
    obtain ⟨r', hr', hiff⟩ := H.writeIndex_le_iff hr
    rcases h c readIndex writeIndex hr heof with hstraddle | hempty
    · have hrw := (hiff.mp hle).resolve_right (Nat.not_lt.mpr hstraddle)
      rw [H.toNat_unread]
      omega
    · exact hempty

/-- **The finish is never early** in the runs whose last tests are made without a straddle,
and a test meets that condition exactly when it does not finish the stream early. -/
theorem never_early :
    (∀ s, Playing channels file onFinished s →
      ((s.Finishes → s.source.ring.unread = 0) ↔ s.NoStraddle)) ∧
    ∀ s, Transition.Reachable (Started channels file onFinished)
      (Transition.Guarded System.TestsUnwrapped System.Step) s → ∀ n ∈ s.finishes, n = 0 := by
  constructor
  · intro s h
    obtain ⟨r, w, H⟩ := h.queue
    exact H.finishes_iff
  · intro s h
    induction h with
    | init hs =>
        obtain rfl := Option.some.inj hs
        intro n hn
        cases hn
    | step h hstep ih =>
        obtain ⟨r, w, H⟩ := Playing.queue h.of_guarded
        obtain ⟨hok, hstep⟩ := hstep
        cases System.next_effect hstep with
        | finished c readIndex writeIndex hr heof hle =>
            intro n hn
            rcases List.mem_append.mp hn with hold | hnew
            · exact ih n hold
            · rw [List.mem_singleton.mp hnew]
              exact H.finishes_iff.mpr hok ⟨c, readIndex, writeIndex, hr, heof, hle⟩
        | _ => exact ih

/-! ### Runs of whole calls -/

/-- The relation has every step of a stream but for the tests behind the end of the file. -/
def Follows (step : System → Action → System → Prop) : Prop :=
  ∀ s a s', System.Step s a s' → (a = .refill .test → s.source.fileEof = false) → step s a s'

theorem follows_step : Follows System.Step := fun _ _ _ h _ => h

theorem follows_guarded {ok : System → Action → Prop}
    (hok : ∀ s a, (a = .refill .test → s.source.fileEof = false) → ok s a) :
    Follows (Transition.Guarded ok System.Step) := fun s a _ h htest => ⟨hok s a htest, h⟩

/-- The steps of the handlers outside of a refill. -/
theorem Follows.handlers {step : System → Action → System → Prop} (F : Follows step)
    {s s' : System} {a : Action} (ha : ∀ b, a ≠ .refill b) (h : System.Step s a s') :
    step s a s' := F s a s' h fun heq => absurd heq (ha _)

section Calls
variable {step : System → Action → System → Prop} (F : Follows step)
include F

/-- A call of `on_playback_process` that takes the `n` bytes of its buffer out of the ring. -/
theorem System.play (h : Transition.Reachable init step s) (hp : s.playback = .idle)
    {n : UInt32} (hpos : 0 < n) (hn : n ≤ s.source.ring.writeindex - s.source.ring.readindex)
    (hfd : s.eventfd = 0) :
    ∃ payload, Transition.Reachable init step { s with
      source := { s.source with
        ring := { s.source.ring with readindex := s.source.ring.readindex + n } }
      eventfd := 1
      playback := .idle
      chunks := s.chunks ++ [⟨0, s.source.stride, n, payload⟩] } := by
  have hcopy : bytesToCopy (s.source.ring.writeindex - s.source.ring.readindex) n = n := by
    rw [bytesToCopy, if_neg (UInt32.not_lt.mpr hn)]
  have hplayback : ∀ (a : PlaybackAction) b, Action.playback a ≠ .refill b := by simp
  have h₁ := h.step (F.handlers (hplayback _) (System.Effect.dequeued n hp).step)
  have h₂ := h₁.step (F.handlers (hplayback _)
    (System.Effect.found n rfl (by rw [hcopy]; exact hpos)).step)
  have h₃ := h₂.step (F.handlers (hplayback _) (System.Effect.copied _ _ rfl).step)
  have h₄ := h₃.step (F.handlers (hplayback _) (System.Effect.consumed _ _ _ rfl).step)
  have h₅ := h₄.step (F.handlers (hplayback _)
    (System.Effect.signalled _ _ rfl (by rw [hfd]; decide)).step)
  have h₆ := h₅.step (F.handlers (hplayback _) (System.Effect.queued _ _ rfl).step)
  rw [hcopy, hfd] at h₆
  exact ⟨_, h₆⟩

/-- `on_eventfd_signal` comes to its refill. -/
theorem System.signal (h : Transition.Reachable init step s) (hr : s.refill = none)
    (hs : s.signalled = false) (hfd : 0 < s.eventfd) :
    Transition.Reachable init step { s with
      eventfd := 0
      signalled := false
      refill := some (.onEventfdSignal, .entered) } := by
  have hhandling : s.handling = false := by simp [System.handling, hs, hr]
  have hsignal : ∀ (a : SignalAction) b, Action.signal a ≠ .refill b := by simp
  have h₁ := h.step (F.handlers (hsignal _) (System.Effect.woken hfd hhandling).step)
  exact h₁.step (F.handlers (hsignal _) (System.Effect.locked (by exact hr) rfl).step)

/-- A refill that reads `k` frames and puts them in the ring. -/
theorem System.fill (h : Transition.Reachable init step s) {c : Caller}
    (hr : s.refill = some (c, .entered)) (heof : s.source.fileEof = false) {stride k : ℕ}
    {used : UInt32} (hstride : s.source.stride = stride)
    (hused : s.source.ring.writeindex - s.source.ring.readindex = used) (hpos : 0 < k)
    (hk : k ≤ framesToRead stride used.toInt32)
    (hlen : k * stride ≤ s.source.inputSndFile.length) :
    ∃ buffer frames, Transition.Reachable init step { s with
      source := { s.source with
        inputSndFile := s.source.inputSndFile.drop (k * stride)
        ring := { s.source.ring with
          writeindex := s.source.ring.writeindex + UInt32.ofNat (k * stride) }
        buffer := buffer }
      frames := frames
      refill := none } := by
  subst hstride hused
  have h₁ := h.step (F _ _ _ (System.Effect.asked c hr (Nat.lt_of_lt_of_le hpos hk)).step nofun)
  have h₂ := h₁.step (F _ _ _
    (System.Effect.read c _ _ k rfl (by exact hk) (by exact hlen) hpos).step nofun)
  have h₃ := h₂.step (F _ _ _ (System.Effect.wrote c _ _ _ rfl).step nofun)
  have h₄ := h₃.step (F _ _ _ (System.Effect.produced c _ _ rfl).step nofun)
  have h₅ := h₄.step (F _ _ _ (System.Effect.loaded c rfl).step nofun)
  have h₆ := h₅.step (F _ _ _
    (System.Effect.passed c _ _ rfl (by simp [heof])).step fun _ => heof)
  exact ⟨_, _, h₆⟩

/-- A refill that finds the end of the file comes to its last test. -/
theorem System.reachEnd (h : Transition.Reachable init step s) {c : Caller}
    (hr : s.refill = some (c, .entered)) {stride : ℕ} {used : UInt32}
    (hstride : s.source.stride = stride)
    (hused : s.source.ring.writeindex - s.source.ring.readindex = used)
    (hpos : 0 < framesToRead stride used.toInt32) :
    Transition.Reachable init step { s with
      source := { s.source with fileEof := true }
      frames := s.frames ++ [[]]
      refill := some (c, .testing s.source.ring.readindex s.source.ring.writeindex) } := by
  subst hstride hused
  have h₁ := h.step (F _ _ _ (System.Effect.asked c hr hpos).step nofun)
  have h₂ := h₁.step (F _ _ _ (System.Effect.ended c _ _ rfl).step nofun)
  exact h₂.step (F _ _ _ (System.Effect.loaded c rfl).step nofun)

end Calls

/-! ### A file played in buffers of one size -/

/-- A mono stream between two calls, with `f` frames in the ring after `k` buffers of as
many, and `n` times as many to come. -/
structure Steady (f : ℕ) (s : System) (k n : ℕ) : Prop where
  channels : s.source.channels = 1
  left : s.source.inputSndFile.length = 2 * f * n
  onFinished : s.source.onFinished = true
  fileEof : s.source.fileEof = false
  readindex : s.source.ring.readindex = UInt32.ofNat (2 * f * k)
  writeindex : s.source.ring.writeindex = UInt32.ofNat (2 * f * (k + 1))
  eventfd : s.eventfd = 0
  playback : s.playback = .idle
  refill : s.refill = none
  signalled : s.signalled = false
  chunks : s.chunks.map Chunk.size = List.replicate k (UInt32.ofNat (2 * f))
  finishes : s.finishes = []

/-- The last test of a handler's refill that has found the end of the file, with an empty ring
and no signal under way. -/
structure LastTest (s : System) (sizes : List UInt32) : Prop where
  testing : ∃ index, s.refill = some (.onEventfdSignal, .testing index index)
  onFinished : s.source.onFinished = true
  fileEof : s.source.fileEof = true
  unread : s.source.ring.unread = 0
  signalling : ¬ s.Signalling
  chunks : s.chunks.map Chunk.size = sizes
  finishes : s.finishes = []

namespace Steady
variable {f k n : ℕ}

theorem readable (H : Steady f s k n) :
    s.source.ring.writeindex - s.source.ring.readindex = UInt32.ofNat (2 * f) := by
  rw [H.readindex, H.writeindex, Nat.mul_succ, UInt32.ofNat_add, UInt32.add_comm]
  exact UInt32.add_sub_cancel _ _

/-- The bytes of a buffer taken out of the ring leave nothing. -/
theorem emptied (H : Steady f s k n) :
    s.source.ring.writeindex - (s.source.ring.readindex + UInt32.ofNat (2 * f)) = 0 := by
  rw [← H.readable, UInt32.add_comm, UInt32.sub_add_cancel]
  exact UInt32.sub_self _

theorem stride_eq (H : Steady f s k n) : 2 * s.source.channels = 2 := by rw [H.channels]

variable {step : System → Action → System → Prop} (F : Follows step) (hf : 0 < f ∧ f ≤ 4096)
include F hf

/-- The first refill takes `f` frames. -/
theorem start (hfile : file.length = 2 * f * (n + 1)) :
    ∃ s, Transition.Reachable (Started 1 file true) step s ∧ Steady f s 0 n := by
  have h : Transition.Reachable (Started 1 file true) step _ := .init rfl
  have hstride : 2 * 1 = 2 := rfl
  have hempty : (0 : UInt32) - 0 = 0 := rfl
  have hlen : f * 2 ≤ file.length := by
    rw [hfile, Nat.mul_comm f]
    exact Nat.le_mul_of_pos_right _ (Nat.succ_pos n)
  obtain ⟨buffer, frames, h⟩ := System.fill F h rfl rfl hstride hempty hf.1 hf.2 hlen
  refine ⟨_, h, rfl, ?_, rfl, rfl, rfl, ?_, rfl, rfl, rfl, rfl, rfl, rfl⟩
  · show (file.drop (f * 2)).length = 2 * f * n
    rw [List.length_drop, hfile, Nat.mul_succ (2 * f)]
    omega
  · show 0 + UInt32.ofNat (f * 2) = UInt32.ofNat (2 * f * (0 + 1))
    rw [UInt32.zero_add, Nat.zero_add, Nat.mul_one, Nat.mul_comm]

/-- A buffer of `f` frames is played, and the handler comes to its refill. -/
theorem playAll (h : Transition.Reachable init step s) (H : Steady f s k n) :
    ∃ payload, Transition.Reachable init step { s with
      source := { s.source with
        ring := { s.source.ring with
          readindex := s.source.ring.readindex + UInt32.ofNat (2 * f) } }
      eventfd := 0
      playback := .idle
      signalled := false
      chunks := s.chunks ++ [⟨0, s.source.stride, UInt32.ofNat (2 * f), payload⟩]
      refill := some (.onEventfdSignal, .entered) } := by
  have hpos : 0 < UInt32.ofNat (2 * f) := by
    rw [UInt32.lt_iff_toNat_lt, UInt32.toNat_ofNat', Nat.mod_eq_of_lt (by omega)]
    exact Nat.mul_pos Nat.two_pos hf.1
  obtain ⟨payload, h⟩ := System.play F h H.playback hpos (UInt32.le_of_eq H.readable.symm)
    H.eventfd
  exact ⟨payload, System.signal F h H.refill H.signalled Nat.zero_lt_one⟩

/-- A buffer of `f` frames is played, and the refill takes as many. -/
theorem cycle (h : Transition.Reachable init step s) (H : Steady f s k (n + 1)) :
    ∃ s', Transition.Reachable init step s' ∧ Steady f s' (k + 1) n := by
  obtain ⟨payload, h⟩ := playAll F hf h H
  have hleft := H.left
  have hlen : f * 2 ≤ s.source.inputSndFile.length := by
    rw [hleft, Nat.mul_comm f]
    exact Nat.le_mul_of_pos_right _ (Nat.succ_pos n)
  obtain ⟨buffer, frames, h⟩ := System.fill F h rfl H.fileEof H.stride_eq H.emptied hf.1 hf.2 hlen
  refine ⟨_, h, H.channels, ?_, H.onFinished, H.fileEof, ?_, ?_, rfl, rfl, rfl, rfl, ?_, H.finishes⟩
  · show (s.source.inputSndFile.drop (f * 2)).length = _
    rw [List.length_drop, hleft, Nat.mul_succ (2 * f)]
    omega
  · show s.source.ring.readindex + _ = _
    rw [H.readindex, Nat.mul_succ, UInt32.ofNat_add]
  · show s.source.ring.writeindex + UInt32.ofNat (f * 2) = _
    rw [H.writeindex, Nat.mul_succ (2 * f) (k + 1), UInt32.ofNat_add, Nat.mul_comm f]
  · rw [List.map_append, H.chunks, List.replicate_succ']
    rfl

/-- The whole file is read, with its last `f` frames in the ring. -/
theorem all (h : Transition.Reachable init step s) (H : Steady f s k n) :
    ∃ s', Transition.Reachable init step s' ∧ Steady f s' (k + n) 0 := by
  induction n generalizing s k with
  | zero => exact ⟨s, h, H⟩
  | succ n ih =>
      obtain ⟨s₁, h₁, H₁⟩ := H.cycle F hf h
      have hsum : k + (n + 1) = k + 1 + n := by omega
      rw [hsum]
      exact ih h₁ H₁

/-- The last frames are played, and the handler's refill comes to its last test. -/
theorem lastTest (h : Transition.Reachable init step s) (H : Steady f s k n) :
    ∃ s', Transition.Reachable init step s' ∧
      LastTest s' (List.replicate (k + 1) (UInt32.ofNat (2 * f))) := by
  obtain ⟨payload, h⟩ := playAll F hf h H
  have h := System.reachEnd F h rfl H.stride_eq H.emptied (by decide)
  have hindex : s.source.ring.readindex + UInt32.ofNat (2 * f) = s.source.ring.writeindex := by
    rw [H.readindex, H.writeindex, Nat.mul_succ, UInt32.ofNat_add]
  refine ⟨_, h, ⟨_, by rw [hindex]⟩, H.onFinished, rfl, congrArg UInt32.toNat H.emptied, ?_, ?_,
    H.finishes⟩
  · rintro (hpos | ⟨n, payload, hp⟩ | hs)
    · exact Nat.lt_irrefl 0 hpos
    · cases hp
    · cases hs
  · rw [List.map_append, H.chunks, List.replicate_succ']
    rfl

end Steady

/-- Two frames are read and played one after the other, each in a refill and a buffer of its
own, and the handler comes to the last test of the third refill. -/
theorem Follows.playTwo {step : System → Action → System → Prop} (F : Follows step) :
    ∃ s, Transition.Reachable (Started 1 [1, 2, 3, 4] true) step s ∧ LastTest s [2, 2] := by
  have hf : 0 < 1 ∧ 1 ≤ 4096 := by decide
  have hlength : ([1, 2, 3, 4] : List UInt8).length = 2 * 1 * (1 + 1) := rfl
  obtain ⟨s, h, H⟩ := Steady.start F hf hlength
  obtain ⟨s, h, H⟩ := H.cycle F hf h
  exact H.lastTest F hf h

/-- Two frames are played before the stream finishes, with an empty ring. -/
theorem never_early_run : ∃ s,
    Transition.Reachable (Started 1 [1, 2, 3, 4] true)
      (Transition.Guarded System.TestsUnwrapped System.Step) s ∧
        s.chunks.map Chunk.size = [2, 2] ∧ s.finishes = [0] ∧ ∀ n ∈ s.finishes, n = 0 := by
  have F : Follows (Transition.Guarded System.TestsUnwrapped System.Step) := by
    refine follows_guarded ?_
    intro s a htest
    unfold System.TestsUnwrapped
    split
    · intro _ _ _ _ heof
      exact absurd ((htest rfl).symm.trans heof) Bool.false_ne_true
    · trivial
  obtain ⟨s, h, T⟩ := F.playTwo
  obtain ⟨index, htesting⟩ := T.testing
  have h' := h.step (e := .refill .test) ⟨by exact fun _ _ _ _ _ => .inr T.unread,
    (System.Effect.finished _ _ _ htesting T.fileEof (UInt32.le_refl _)).step⟩
  refine ⟨_, h', T.chunks, ?_, never_early.2 _ h'⟩
  show s.finishes ++ [s.source.ring.unread] = [0]
  rw [T.finishes, T.unread]
  rfl

/-! ### A file of `2 ^ 32` bytes -/

/-- A mono file of `2 ^ 32` bytes, whose last 8192 bytes go to two buffers of 4096: the
stream finishes after the first, with the other 4096 bytes in the ring. -/
theorem early_finish : ¬ ∀ channels file onFinished s, 1 ≤ channels ∧ channels ≤ 1024 →
    Playing channels file onFinished s → ∀ n ∈ s.finishes, n = 0 := by
  intro hall
  have hf : 0 < 4096 ∧ 4096 ≤ 4096 := by decide
  obtain ⟨file, hfile⟩ : ∃ file : List UInt8, file.length = 2 * 4096 * (524287 + 1) :=
    ⟨List.replicate _ 0, List.length_replicate⟩
  obtain ⟨s, h, H⟩ := Steady.start follows_step hf hfile
  obtain ⟨s, h, H⟩ := H.all follows_step hf h
  have hplay : (4096 : UInt32) ≤ s.source.ring.writeindex - s.source.ring.readindex := by
    rw [H.readable]
    decide
  obtain ⟨payload, h⟩ := System.play follows_step h H.playback (by decide) hplay H.eventfd
  have h := System.signal follows_step h H.refill H.signalled Nat.zero_lt_one
  have hwrite : s.source.ring.writeindex = 0 := by
    rw [H.writeindex]
    decide
  have hread : s.source.ring.readindex + 4096 = 4294963200 := by
    rw [H.readindex]
    decide
  have hunread : s.source.ring.writeindex - (s.source.ring.readindex + 4096) = 4096 := by
    rw [hwrite, hread]
    decide
  have hle : s.source.ring.writeindex ≤ s.source.ring.readindex + 4096 := by
    rw [hwrite, hread]
    decide
  have h := System.reachEnd follows_step h rfl H.stride_eq hunread (by decide)
  have h := h.step (System.Effect.finished _ _ _ rfl rfl hle).step
  have hfour := hall 1 file true _ (by decide) h _ (List.mem_append_right _ List.mem_cons_self)
  have hunread : (s.source.ring.writeindex - (s.source.ring.readindex + 4096)).toNat = 0 := hfour
  rw [hwrite, hread] at hunread
  exact absurd hunread (by decide)

end Early

/-! ## One finish -/

section Once
variable {channels : ℕ} {file : List UInt8} {onFinished : Bool} {s s' : System} {a : Action}

/-- The playback is at a place where it owes the ring nothing. -/
def Passive : Playback → Prop
  | .idle => True
  | .dequeued _ => True
  | .filled _ _ => True
  | _ => False

/-- Nothing will refill the ring, and there is nothing in it to play. -/
structure Silent (s : System) : Prop where
  refill : s.refill = none
  unread : s.source.ring.unread = 0
  signalling : ¬ s.Signalling
  passive : Passive s.playback

/-- With an empty ring and no signal under way, the playback has nothing in hand. -/
theorem Queue.passive (H : Queue s r w) (hunread : s.source.ring.unread = 0)
    (hsignal : ¬ s.Signalling) : Passive s.playback := by
  have hplayed := H.playback
  rw [H.toNat_unread] at hunread
  cases hp : s.playback with
  | idle => trivial
  | dequeued required => trivial
  | found index n =>
      rw [hp] at hplayed
      have := hplayed.2.1
      have := hplayed.2.2.1
      omega
  | copied index n payload =>
      rw [hp] at hplayed
      have := hplayed.2.1
      have := hplayed.2.2.1
      omega
  | consumed n payload => exact absurd (.inr (.inl ⟨n, payload, hp⟩)) hsignal
  | filled n payload => trivial

/-- A silent stream stays silent, and does not finish again. -/
theorem Silent.step (H : Silent s) (h : System.Step s a s') :
    Silent s' ∧ s'.finishes = s.finishes := by
  have hpassive := H.passive
  have hnoRefill : ∀ {c pc}, s.refill = some (c, pc) → False := by
    intro c pc hr
    rw [H.refill] at hr
    cases hr
  have hquiet : ∀ playback chunks, (∀ n payload, playback ≠ .consumed n payload) →
      ¬ System.Signalling { s with playback := playback, chunks := chunks } := by
    rintro playback chunks hne (hpos | ⟨n, payload, hp⟩ | hs)
    · exact H.signalling (.inl hpos)
    · exact hne n payload hp
    · exact H.signalling (.inr (.inr hs))
  cases System.next_effect h with
  | dequeued maxsize hp =>
      refine ⟨{ H with signalling := hquiet _ _ ?_, passive := trivial }, rfl⟩
      intro n payload h
      cases h
  | dequeueFailed hp => exact ⟨H, rfl⟩
  | found required hp hn =>
      have hle := bytesToCopy_le (s.source.ring.writeindex - s.source.ring.readindex) required
      have hzero := H.unread
      rw [SpaRingbuffer.unread] at hzero
      rw [UInt32.lt_iff_toNat_lt, show (0 : UInt32).toNat = 0 from rfl] at hn
      omega
  | foundNone required hp hn =>
      refine ⟨{ H with signalling := hquiet _ _ ?_, passive := trivial }, rfl⟩
      intro n payload h
      cases h
  | copied index n hp =>
      rw [hp] at hpassive
      exact hpassive.elim
  | consumed index n payload hp =>
      rw [hp] at hpassive
      exact hpassive.elim
  | signalled n payload hp hmax =>
      rw [hp] at hpassive
      exact hpassive.elim
  | queued n payload hp =>
      refine ⟨{ H with signalling := hquiet _ _ ?_, passive := trivial }, rfl⟩
      intro n payload h
      cases h
  | woken hpos hh => exact absurd (.inl hpos) H.signalling
  | locked hr hs => exact absurd (.inr (.inr hs)) H.signalling
  | asked c hr hn => exact (hnoRefill hr).elim
  | full c hr hn => exact (hnoRefill hr).elim
  | read c writeIndex asked framesRead hr hle hlen hpos => exact (hnoRefill hr).elim
  | ended c writeIndex asked hr => exact (hnoRefill hr).elim
  | wrote c writeIndex localBuffer n hr => exact (hnoRefill hr).elim
  | produced c writeIndex n hr => exact (hnoRefill hr).elim
  | loaded c hr => exact (hnoRefill hr).elim
  | finished c readIndex writeIndex hr heof hle => exact (hnoRefill hr).elim
  | passed c readIndex writeIndex hr hnot => exact (hnoRefill hr).elim

/-- Whether a callback is set does not change. -/
theorem Playing.onFinished_eq (h : Playing channels file onFinished s) :
    s.source.onFinished = onFinished := by
  refine h.invariant (fun s => s.source.onFinished = onFinished) ?_ ?_
  · intro s hs
    obtain rfl := Option.some.inj hs
    rfl
  · intro s a s' H hstep
    cases System.next_effect hstep with
    | _ => exact H

/-- **`on_finished` is called once** at most in the runs whose finishes come with an empty
ring and no signal under way. -/
theorem calls_le_one
    (h : Transition.Reachable (Started channels file onFinished)
      (Transition.Guarded System.FinishesQuietly System.Step) s) : s.calls ≤ 1 := by
  have hcallback := Playing.onFinished_eq h.of_guarded
  cases onFinished with
  | false => simp [System.calls, hcallback]
  | true =>
      have hdone : s.finishes = [] ∨ (Silent s ∧ s.finishes.length = 1) := by
        clear hcallback
        induction h with
        | init hs =>
            obtain rfl := Option.some.inj hs
            exact .inl rfl
        | step h hstep ih =>
            have hcallback := Playing.onFinished_eq h.of_guarded
            obtain ⟨r, w, H⟩ := Playing.queue h.of_guarded
            obtain ⟨hok, hstep⟩ := hstep
            rcases ih with hnone | ⟨hsilent, hone⟩
            · cases System.next_effect hstep with
              | finished c readIndex writeIndex hr heof hle =>
                  obtain ⟨hunread, hsignal⟩ :=
                    hok hcallback ⟨c, readIndex, writeIndex, hr, heof, hle⟩
                  refine .inr ⟨⟨rfl, hunread, hsignal, H.passive hunread hsignal⟩, ?_⟩
                  show List.length (_ ++ [_]) = 1
                  rw [hnone]
                  rfl
              | _ => exact .inl hnone
            · obtain ⟨hsilent', heq⟩ := hsilent.step hstep
              exact .inr ⟨hsilent', by rw [heq]; exact hone⟩
      rw [System.calls, hcallback, if_pos rfl]
      rcases hdone with hnone | ⟨-, hone⟩
      · rw [hnone]
        exact Nat.zero_le 1
      · exact Nat.le_of_eq hone

/-- Two frames are played, each followed by a wake-up of the handler, whose second refill
finishes the stream with no signal under way. -/
theorem calls_le_one_run : ∃ s,
    Transition.Reachable (Started 1 [1, 2, 3, 4] true)
      (Transition.Guarded System.FinishesQuietly System.Step) s ∧
        s.chunks.map Chunk.size = [2, 2] ∧ s.calls = 1 ∧ s.calls ≤ 1 := by
  have F : Follows (Transition.Guarded System.FinishesQuietly System.Step) := by
    refine follows_guarded ?_
    intro s a htest
    unfold System.FinishesQuietly
    split
    · rintro - ⟨_, _, _, _, heof, _⟩
      exact absurd ((htest rfl).symm.trans heof) Bool.false_ne_true
    · trivial
  obtain ⟨s, h, T⟩ := F.playTwo
  obtain ⟨index, htesting⟩ := T.testing
  have h' := h.step (e := .refill .test) ⟨by exact fun _ _ => ⟨T.unread, T.signalling⟩,
    (System.Effect.finished _ _ _ htesting T.fileEof (UInt32.le_refl _)).step⟩
  refine ⟨_, h', T.chunks, ?_, calls_le_one h'⟩
  show (if s.source.onFinished then (s.finishes ++ [s.source.ring.unread]).length else 0) = 1
  rw [T.onFinished, T.finishes]
  rfl

/-- The playback takes the last two bytes of a file of four after the handler has reset the
counter, and signals after the handler's refill has finished the stream: the next refill
finishes it again. -/
theorem two_calls : ¬ ∀ channels file onFinished s, 1 ≤ channels ∧ channels ≤ 1024 →
    Playing channels file onFinished s → s.calls ≤ 1 := by
  intro hall
  let consume : List Action :=
    [.playback (.dequeue 2), .playback .getReadIndex, .playback .readData, .playback .readUpdate]
  let signal : List Action := [.playback .eventfdWrite, .playback .queueBuffer]
  let refill : List Action :=
    [.refill .getWriteIndex, .refill (.readf 2), .refill .writeData, .refill .writeUpdate,
      .refill .loadIndices, .refill .test]
  let finish : List Action :=
    [.refill .getWriteIndex, .refill (.readf 0), .refill .loadIndices, .refill .test]
  let wake : List Action := [.signal .eventfdRead, .signal .lock]
  have hcalls : ((ctmSoundPlayAsync true (some (1, [1, 2, 3, 4])) true).bind
      fun s => (refill ++ consume ++ signal ++ wake ++ consume ++ finish ++ signal ++ wake ++
        finish).foldlM System.next s).map System.calls = some 2 := by decide
  obtain ⟨s, hrun, hcalls⟩ := Option.map_eq_some_iff.mp hcalls
  have hle := hall 1 [1, 2, 3, 4] true s (by decide) (.of_run hrun)
  rw [hcalls] at hle
  exact absurd hle (by decide)

end Once

end Ctm.Sound
