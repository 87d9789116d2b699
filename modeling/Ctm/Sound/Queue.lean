import Ctm.Sound.Steps

/-!
# The ring of a playing stream is a queue

Let `w` count the bytes `refill_ringbuffer` has put in the ring, and `r` those
`on_playback_process` has taken out.  The 32-bit indices are these counts reduced modulo
`2 ^ 32`, and at most `BUFFER_SIZE` bytes lie between them.  The ring holds the bytes
`r, .., w - 1` of what was read from the file, and the chunks handed to the stream are
its first `r` bytes, but for those still on their way.

## Main definitions

* `RefillOk`, `PlaybackOk` — what each side knows at each of its places.
* `Queue s r w` — the invariant.
* `plays_file` — the bytes played are the bytes of the file.
-/

namespace Ctm.Sound

variable {r w n stride : ℕ}

theorem bufferSize_dvd : bufferSize ∣ 2 ^ 32 := ⟨2 ^ 15, rfl⟩

theorem bufferSize_lt : bufferSize < 2 ^ 32 := by decide

/-- The frames asked for fit in the free part of the ring. -/
theorem framesToRead_mul_le (stride : ℕ) (used : UInt32) :
    framesToRead stride used.toInt32 * stride ≤ (UInt32.ofNat bufferSize - used).toNat := by
  have hspace : (Int32.ofNat bufferSize - used.toInt32).toUInt32 = UInt32.ofNat bufferSize - used :=
    rfl
  have hle : framesToRead stride used.toInt32 ≤ (UInt32.ofNat bufferSize - used).toNat / stride := by
    rw [framesToRead, hspace]
    split
    · exact Nat.le_refl _
    · omega
  exact Nat.le_trans (Nat.mul_le_mul_right stride hle) (Nat.div_mul_le_self _ _)

/-- The free part of a ring of `w - r` bytes. -/
theorem toNat_free (hle : r ≤ w) (hfits : w ≤ r + bufferSize) :
    (UInt32.ofNat bufferSize - (UInt32.ofNat w - UInt32.ofNat r)).toNat = r + bufferSize - w := by
  have hlt := bufferSize_lt
  have hused : UInt32.ofNat w - UInt32.ofNat r = UInt32.ofNat (w - r) := by
    rw [← UInt32.toNat_inj, Spsc.toNat_sub hle (by omega), UInt32.toNat_ofNat',
      Nat.mod_eq_of_lt (by omega)]
  rw [hused, Spsc.toNat_sub (by omega) (by omega)]
  omega

/-- The bytes taken are those in the ring, or the buffer's if they are fewer. -/
theorem toNat_bytesToCopy (readable required : UInt32) :
    (bytesToCopy readable required).toNat = min readable.toNat required.toNat := by
  rw [bytesToCopy]
  split
  · rename_i hlt
    exact (Nat.min_eq_left (Nat.le_of_lt (UInt32.lt_iff_toNat_lt.mp hlt))).symm
  · rename_i hlt
    exact (Nat.min_eq_right (UInt32.le_iff_toNat_le.mp (UInt32.not_lt.mp hlt))).symm

/-- The copied bytes were readable. -/
theorem bytesToCopy_le (readable required : UInt32) :
    (bytesToCopy readable required).toNat ≤ readable.toNat := by
  rw [toNat_bytesToCopy]
  exact Nat.min_le_left _ _

/-- What `refill_ringbuffer` knows at each place, when `read` are the bytes read from the
file. -/
def RefillOk (stride : ℕ) (buffer : ℕ → UInt8) (read : List UInt8) (r w : ℕ) :
    Option (Caller × Refill) → Prop
  | some (_, .reading writeIndex n) =>
      writeIndex = UInt32.ofNat w ∧ read.length = w ∧ w + n * stride ≤ r + bufferSize
  | some (_, .copying writeIndex localBuffer n) =>
      writeIndex = UInt32.ofNat w ∧ n = UInt32.ofNat localBuffer.length ∧
        read = read.take w ++ localBuffer ∧ read.length = w + localBuffer.length ∧
          w + localBuffer.length ≤ r + bufferSize
  | some (_, .copied writeIndex n) =>
      writeIndex = UInt32.ofNat w ∧ read.length = w + n.toNat ∧ w + n.toNat ≤ r + bufferSize ∧
        Spsc.Holds bufferSize buffer r read
  | some (_, .testing readIndex writeIndex) =>
      read.length = w ∧ writeIndex = UInt32.ofNat w ∧
        ∃ r' ≤ r, w ≤ r' + bufferSize ∧ readIndex = UInt32.ofNat r'
  | _ => read.length = w

/-- What `on_playback_process` knows at each place, when `played` are the bytes played. -/
def PlaybackOk (read played : List UInt8) (r w : ℕ) : Playback → Prop
  | .idle => played = read.take r
  | .dequeued _ => played = read.take r
  | .found index n =>
      index = UInt32.ofNat r ∧ 0 < n.toNat ∧ r + n.toNat ≤ w ∧ played = read.take r
  | .copied index n payload =>
      index = UInt32.ofNat r ∧ 0 < n.toNat ∧ r + n.toNat ≤ w ∧ played = read.take r ∧
        payload = (read.drop r).take n.toNat
  | .consumed n payload => payload.length = n.toNat ∧ played ++ payload = read.take r
  | .filled n payload => payload.length = n.toNat ∧ played ++ payload = read.take r

/-- The ring of `s` is a queue, with `w` bytes put in and `r` taken out. -/
structure Queue (s : System) (r w : ℕ) : Prop where
  readindex : s.source.ring.readindex = UInt32.ofNat r
  writeindex : s.source.ring.writeindex = UInt32.ofNat w
  le : r ≤ w
  fits : w ≤ r + bufferSize
  holds : Spsc.Holds bufferSize s.source.buffer r (s.bytesRead.take w)
  refill : RefillOk s.source.stride s.source.buffer s.bytesRead r w s.refill
  playback : PlaybackOk s.bytesRead s.bytesPlayed r w s.playback

/-! ## What each side keeps when the other steps -/

/-- Every byte in the ring was read from the file. -/
theorem RefillOk.le_length {buffer : ℕ → UInt8} {read : List UInt8}
    {refill : Option (Caller × Refill)} (h : RefillOk stride buffer read r w refill) :
    w ≤ read.length := by
  cases refill with
  | none => exact Nat.le_of_eq (Eq.symm h)
  | some p =>
      obtain ⟨c, pc⟩ := p
      cases pc with
      | entered => exact Nat.le_of_eq (Eq.symm h)
      | reading writeIndex n => exact Nat.le_of_eq h.2.1.symm
      | copying writeIndex localBuffer n =>
          have := h.2.2.2.1
          omega
      | copied writeIndex n =>
          have := h.2.1
          omega
      | loading => exact Nat.le_of_eq (Eq.symm h)
      | testing readIndex writeIndex => exact Nat.le_of_eq h.1.symm

/-- The refill is not disturbed when bytes are taken out. -/
theorem RefillOk.take {buffer : ℕ → UInt8} {read : List UInt8} {refill : Option (Caller × Refill)}
    (h : RefillOk stride buffer read r w refill) (n : ℕ) :
    RefillOk stride buffer read (r + n) w refill := by
  cases refill with
  | none => exact h
  | some p =>
      obtain ⟨c, pc⟩ := p
      cases pc with
      | entered => exact h
      | reading writeIndex k => exact ⟨h.1, h.2.1, by have := h.2.2; omega⟩
      | copying writeIndex localBuffer k =>
          exact ⟨h.1, h.2.1, h.2.2.1, h.2.2.2.1, by have := h.2.2.2.2; omega⟩
      | copied writeIndex k =>
          exact ⟨h.1, h.2.1, by have := h.2.2.1; omega, h.2.2.2.mono (by omega)⟩
      | loading => exact h
      | testing readIndex writeIndex =>
          obtain ⟨hread, hwrite, r', hle, hfits, hindex⟩ := h
          exact ⟨hread, hwrite, r', by omega, hfits, hindex⟩

/-- The playback is not disturbed when bytes are put in. -/
theorem PlaybackOk.put {read played : List UInt8} {playback : Playback}
    (h : PlaybackOk read played r w playback) (n : ℕ) :
    PlaybackOk read played r (w + n) playback := by
  cases playback with
  | idle => exact h
  | dequeued required => exact h
  | found index k => exact ⟨h.1, h.2.1, by have := h.2.2.1; omega, h.2.2.2⟩
  | copied index k payload => exact ⟨h.1, h.2.1, by have := h.2.2.1; omega, h.2.2.2⟩
  | consumed k payload => exact h
  | filled k payload => exact h

/-- The playback is not disturbed when more of the file is read. -/
theorem PlaybackOk.append {read played data : List UInt8} {playback : Playback}
    (h : PlaybackOk read played r w playback) (hle : r ≤ w) (hw : w ≤ read.length) :
    PlaybackOk (read ++ data) played r w playback := by
  have htake : (read ++ data).take r = read.take r := List.take_append_of_le_length (by omega)
  cases playback with
  | idle => exact h.trans htake.symm
  | dequeued required => exact Eq.trans h htake.symm
  | found index k => exact ⟨h.1, h.2.1, h.2.2.1, h.2.2.2.trans htake.symm⟩
  | copied index k payload =>
      refine ⟨h.1, h.2.1, h.2.2.1, h.2.2.2.1.trans htake.symm, ?_⟩
      have hk := h.2.2.1
      rw [h.2.2.2.2, List.drop_append_of_le_length (by omega),
        List.take_append_of_le_length (by rw [List.length_drop]; omega)]
  | consumed k payload => exact ⟨h.1, h.2.trans htake.symm⟩
  | filled k payload => exact ⟨h.1, h.2.trans htake.symm⟩

namespace Queue
variable {s s' : System} {a : Action}

/-- The bytes in the ring. -/
theorem toNat_unread (H : Queue s r w) : s.source.ring.unread = w - r := by
  have := H.fits
  have := bufferSize_lt
  rw [SpaRingbuffer.unread, H.readindex, H.writeindex, Spsc.toNat_sub H.le (by omega)]

/-- The free bytes of the ring. -/
theorem toNat_free (H : Queue s r w) :
    (UInt32.ofNat bufferSize - (s.source.ring.writeindex - s.source.ring.readindex)).toNat =
      r + bufferSize - w := by
  rw [H.readindex, H.writeindex, Sound.toNat_free H.le H.fits]

/-- A stream starts with an empty ring. -/
theorem init {channels : ℕ} {file : List UInt8} {onFinished : Bool}
    (h : Started channels file onFinished s) : Queue s 0 0 := by
  obtain rfl := Option.some.inj h
  exact ⟨rfl, rfl, Nat.le_refl 0, Nat.zero_le _, Spsc.Holds.nil, rfl, rfl⟩

/-- Reading frames of the file leaves the bytes in the ring alone. -/
theorem read (H : Queue s r w) {c : Caller} {writeIndex : UInt32} {asked k : ℕ}
    (h : s.refill = some (c, .reading writeIndex asked)) (hk : k ≤ asked)
    (hlen : k * s.source.stride ≤ s.source.inputSndFile.length) :
    Queue { s with
      source := { s.source with
        inputSndFile := s.source.inputSndFile.drop (k * s.source.stride) }
      frames := s.frames ++ [s.source.inputSndFile.take (k * s.source.stride)]
      refill := some (c, .copying writeIndex (s.source.inputSndFile.take (k * s.source.stride))
        (UInt32.ofNat (k * s.source.stride))) } r w := by
  have hrefill := H.refill
  rw [h] at hrefill
  obtain ⟨hindex, hread, hroom⟩ := hrefill
  have hdata : (s.source.inputSndFile.take (k * s.source.stride)).length = k * s.source.stride :=
    List.length_take_of_le hlen
  have hle : k * s.source.stride ≤ asked * s.source.stride := Nat.mul_le_mul_right _ hk
  have hbytes : (s.frames ++ [s.source.inputSndFile.take (k * s.source.stride)]).flatten =
      s.bytesRead ++ s.source.inputSndFile.take (k * s.source.stride) := by
    rw [List.flatten_append, List.flatten_singleton]
    rfl
  refine ⟨H.readindex, H.writeindex, H.le, H.fits, ?_, ?_, ?_⟩
  · rw [System.bytesRead, hbytes, List.take_append_of_le_length (Nat.le_of_eq hread.symm)]
    exact H.holds
  · refine ⟨hindex, by rw [hdata], ?_, ?_, by omega⟩
    · rw [System.bytesRead, hbytes, List.take_append_of_le_length (Nat.le_of_eq hread.symm),
        List.take_of_length_le (Nat.le_of_eq hread)]
    · rw [System.bytesRead, hbytes, List.length_append, hread]
  · rw [System.bytesRead, hbytes]
    exact H.playback.append H.le (Nat.le_of_eq hread.symm)

/-- The playback copies the next bytes of the ring. -/
theorem copied (H : Queue s r w) {index n : UInt32} (h : s.playback = .found index n) :
    Queue { s with
      playback := .copied index n
        (Spsc.read s.source.buffer bufferSize (index.toNat % bufferSize) n.toNat) } r w := by
  have hplayed := H.playback
  rw [h] at hplayed
  obtain ⟨hindex, hpos, hle, heq⟩ := hplayed
  have hlength := H.refill.le_length
  have hfits := H.fits
  refine { H with playback := ⟨hindex, hpos, hle, heq, ?_⟩ }
  rw [hindex, Spsc.toNat_mod bufferSize_dvd,
    H.holds.read (by rw [List.length_take]; omega) (by omega), List.drop_take, List.take_take,
    Nat.min_eq_left (by omega)]
  rfl

/-- A read at the end of the file adds no bytes. -/
theorem ended (H : Queue s r w) {c : Caller} {writeIndex : UInt32} {asked : ℕ}
    (h : s.refill = some (c, .reading writeIndex asked)) :
    Queue { s with
      source := { s.source with fileEof := true }
      frames := s.frames ++ [[]]
      refill := some (c, .loading) } r w := by
  have hrefill := H.refill
  rw [h] at hrefill
  have hbytes : (s.frames ++ [[]]).flatten = s.bytesRead := by
    rw [List.flatten_append, List.flatten_singleton, List.append_nil]
    rfl
  refine ⟨H.readindex, H.writeindex, H.le, H.fits, ?_, ?_, ?_⟩
  · rw [System.bytesRead, hbytes]
    exact H.holds
  · show (s.frames ++ [[]]).flatten.length = w
    rw [hbytes]
    exact hrefill.2.1
  · rw [System.bytesRead, hbytes]
    exact H.playback

/-- The playback takes the bytes it copied out of the ring. -/
theorem consumed (H : Queue s r w) {index n : UInt32} {payload : List UInt8}
    (h : s.playback = .copied index n payload) :
    Queue { s with
      source := { s.source with ring := { s.source.ring with readindex := index + n } }
      playback := .consumed n payload } (r + n.toNat) w := by
  have hplayed := H.playback
  rw [h] at hplayed
  obtain ⟨hindex, hpos, hle, heq, hpayload⟩ := hplayed
  have hlength := H.refill.le_length
  refine ⟨?_, H.writeindex, hle, by have := H.fits; omega, H.holds.mono (by omega),
    H.refill.take n.toNat, ?_, ?_⟩
  · show index + n = _
    rw [hindex, UInt32.ofNat_add, UInt32.ofNat_toNat]
  · rw [hpayload, List.length_take, List.length_drop]
    omega
  · show s.bytesPlayed ++ payload = s.bytesRead.take (r + n.toNat)
    rw [heq, hpayload, List.take_add]

/-- The refill copies what it read behind the bytes in the ring. -/
theorem wrote (H : Queue s r w) {c : Caller} {writeIndex n : UInt32} {localBuffer : List UInt8}
    (h : s.refill = some (c, .copying writeIndex localBuffer n)) :
    Queue { s with
      source := { s.source with
        buffer := Spsc.write s.source.buffer bufferSize (writeIndex.toNat % bufferSize)
          (localBuffer.take n.toNat) }
      refill := some (c, .copied writeIndex n) } r w := by
  have hrefill := H.refill
  rw [h] at hrefill
  obtain ⟨hindex, hn, hread, hlen, hroom⟩ := hrefill
  have hlt := bufferSize_lt
  have hle := H.le
  have hsize : n.toNat = localBuffer.length := by
    rw [hn, UInt32.toNat_ofNat', Nat.mod_eq_of_lt (by omega)]
  have hcopy : localBuffer.take n.toNat = localBuffer :=
    List.take_of_length_le (Nat.le_of_eq hsize.symm)
  have htaken : (s.bytesRead.take w).length = w := List.length_take_of_le (by omega)
  have hwritten : Spsc.Holds bufferSize (Spsc.write s.source.buffer bufferSize
      ((s.bytesRead.take w).length % bufferSize) localBuffer) r
      (s.bytesRead.take w ++ localBuffer) := H.holds.write (by omega) (by omega)
  rw [htaken, ← hread] at hwritten
  have hbuffer : Spsc.write s.source.buffer bufferSize (writeIndex.toNat % bufferSize)
      (localBuffer.take n.toNat) = Spsc.write s.source.buffer bufferSize (w % bufferSize)
        localBuffer := by
    rw [hindex, Spsc.toNat_mod bufferSize_dvd, hcopy]
  refine ⟨H.readindex, H.writeindex, H.le, H.fits, ?_, ?_, H.playback⟩
  · show Spsc.Holds _ (Spsc.write _ _ _ _) _ _
    rw [hbuffer]
    exact hwritten.take w
  · refine ⟨hindex, by rw [hsize]; exact hlen, by rw [hsize]; exact hroom, ?_⟩
    show Spsc.Holds _ (Spsc.write _ _ _ _) _ _
    rw [hbuffer]
    exact hwritten

/-- The refill puts the bytes it copied in the ring. -/
theorem produced (H : Queue s r w) {c : Caller} {writeIndex n : UInt32}
    (h : s.refill = some (c, .copied writeIndex n)) :
    Queue { s with
      source := { s.source with ring := { s.source.ring with writeindex := writeIndex + n } }
      refill := some (c, .loading) } r (w + n.toNat) := by
  have hrefill := H.refill
  rw [h] at hrefill
  obtain ⟨hindex, hlen, hroom, hholds⟩ := hrefill
  refine ⟨H.readindex, ?_, by have := H.le; omega, hroom, ?_, hlen, H.playback.put n.toNat⟩
  · show writeIndex + n = _
    rw [hindex, UInt32.ofNat_add, UInt32.ofNat_toNat]
  · show Spsc.Holds _ _ r (s.bytesRead.take (w + n.toNat))
    rw [List.take_of_length_le (Nat.le_of_eq hlen)]
    exact hholds

/-- Each step keeps the queue, for the counts after it. -/
theorem step (H : Queue s r w) (h : System.Step s a s') : ∃ r' w', Queue s' r' w' := by
  have hunread := H.toNat_unread
  cases System.next_effect h with
  | dequeued maxsize hp =>
      refine ⟨r, w, { H with playback := ?_ }⟩
      have hplayed := H.playback
      rw [hp] at hplayed
      exact hplayed
  | dequeueFailed hp => exact ⟨r, w, H⟩
  | found required hp hn =>
      refine ⟨r, w, { H with playback := ?_ }⟩
      have hplayed := H.playback
      rw [hp] at hplayed
      have hle := bytesToCopy_le (s.source.ring.writeindex - s.source.ring.readindex) required
      have hread := H.le
      rw [SpaRingbuffer.unread] at hunread
      exact ⟨H.readindex, UInt32.lt_iff_toNat_lt.mp hn, by omega, hplayed⟩
  | foundNone required hp hn =>
      refine ⟨r, w, { H with playback := ?_ }⟩
      have hplayed := H.playback
      rw [hp] at hplayed
      exact ⟨rfl, (List.append_nil _).trans hplayed⟩
  | copied index n hp => exact ⟨r, w, H.copied hp⟩
  | consumed index n payload hp => exact ⟨r + n.toNat, w, H.consumed hp⟩
  | signalled n payload hp hmax =>
      refine ⟨r, w, { H with playback := ?_ }⟩
      have hplayed := H.playback
      rw [hp] at hplayed
      exact hplayed
  | queued n payload hp =>
      refine ⟨r, w, { H with playback := ?_ }⟩
      have hplayed := H.playback
      rw [hp] at hplayed
      show List.flatMap Chunk.bytes (s.chunks ++ [⟨0, s.source.stride, n, payload⟩]) = _
      have hchunk : Chunk.bytes ⟨0, s.source.stride, n, payload⟩ = payload :=
        List.take_of_length_le (Nat.le_of_eq hplayed.1)
      rw [List.flatMap_append, List.flatMap_singleton, hchunk]
      exact hplayed.2
  | woken hpos hh => exact ⟨r, w, { H with }⟩
  | locked hr hs =>
      refine ⟨r, w, { H with refill := ?_ }⟩
      have hrefill := H.refill
      rw [hr] at hrefill
      exact hrefill
  | asked c hr hn =>
      refine ⟨r, w, { H with refill := ?_ }⟩
      have hrefill := H.refill
      rw [hr] at hrefill
      refine ⟨H.writeindex, hrefill, ?_⟩
      have hle := framesToRead_mul_le s.source.stride
        (s.source.ring.writeindex - s.source.ring.readindex)
      rw [H.toNat_free] at hle
      have := H.fits
      show w + framesToRead s.source.stride
        (s.source.ring.writeindex - s.source.ring.readindex).toInt32 * s.source.stride ≤ _
      omega
  | full c hr hn =>
      refine ⟨r, w, { H with refill := ?_ }⟩
      have hrefill := H.refill
      rw [hr] at hrefill
      exact hrefill
  | read c writeIndex asked framesRead hr hle hlen hpos =>
      exact ⟨r, w, H.read hr hle hlen⟩
  | ended c writeIndex asked hr => exact ⟨r, w, H.ended hr⟩
  | wrote c writeIndex localBuffer n hr => exact ⟨r, w, H.wrote hr⟩
  | produced c writeIndex n hr => exact ⟨r, w + n.toNat, H.produced hr⟩
  | loaded c hr =>
      refine ⟨r, w, { H with refill := ?_ }⟩
      have hrefill := H.refill
      rw [hr] at hrefill
      exact ⟨hrefill, H.writeindex, r, Nat.le_refl r, H.fits, H.readindex⟩
  | finished c readIndex writeIndex hr heof hle =>
      have hrefill := H.refill
      rw [hr] at hrefill
      exact ⟨r, w, H.readindex, H.writeindex, H.le, H.fits, H.holds, hrefill.1, H.playback⟩
  | passed c readIndex writeIndex hr hnot =>
      have hrefill := H.refill
      rw [hr] at hrefill
      exact ⟨r, w, H.readindex, H.writeindex, H.le, H.fits, H.holds, hrefill.1, H.playback⟩

end Queue

/-! ## Whole runs -/

section Run
variable {channels : ℕ} {file : List UInt8} {onFinished : Bool} {s s' : System} {a : Action}

/-- Every state a stream reaches is a queue. -/
theorem Playing.queue (h : Playing channels file onFinished s) : ∃ r w, Queue s r w := by
  refine h.invariant (fun s => ∃ r w, Queue s r w) ?_ ?_
  · intro s hs
    exact ⟨0, 0, Queue.init hs⟩
  · rintro s a s' ⟨r, w, H⟩ hstep
    exact H.step hstep

/-- The file is what was read and what is left. -/
theorem Playing.file_eq (h : Playing channels file onFinished s) :
    s.bytesRead ++ s.source.inputSndFile = file := by
  refine h.invariant (fun s => s.bytesRead ++ s.source.inputSndFile = file) ?_ ?_
  · intro s hs
    obtain rfl := Option.some.inj hs
    rfl
  · intro s a s' H hstep
    cases System.next_effect hstep with
    | read c writeIndex n framesRead hr hle hlen hpos =>
        show List.flatten (s.frames ++ [s.source.inputSndFile.take _]) ++ _ = file
        rw [List.flatten_append, List.flatten_singleton, List.append_assoc,
          List.take_append_drop]
        exact H
    | ended c writeIndex n hr =>
        show List.flatten (s.frames ++ [[]]) ++ _ = file
        rw [List.flatten_append, List.flatten_singleton, List.append_nil]
        exact H
    | _ => exact H

/-- The chunks handed over are the bytes taken out of the ring, but for those on their
way. -/
theorem PlaybackOk.isPrefix {read played : List UInt8} {playback : Playback}
    (h : PlaybackOk read played r w playback) : played <+: read := by
  have htake : read.take r <+: read := List.take_prefix r read
  cases playback with
  | idle => exact Eq.mpr (congrArg (· <+: read) h) htake
  | dequeued required => exact Eq.mpr (congrArg (· <+: read) h) htake
  | found index k => exact Eq.mpr (congrArg (· <+: read) h.2.2.2) htake
  | copied index k payload => exact Eq.mpr (congrArg (· <+: read) h.2.2.2.1) htake
  | consumed k payload => exact (List.prefix_append played payload).trans (h.2 ▸ htake)
  | filled k payload => exact (List.prefix_append played payload).trans (h.2 ▸ htake)

/-- A byte in the ring and a byte about to be put there are in different cells. -/
theorem Queue.cell_ne {c : Caller} {writeIndex : UInt32} {localBuffer : List UInt8} {n : UInt32}
    (H : Queue s r w) (h : s.refill = some (c, .copying writeIndex localBuffer n)) {i k : ℕ}
    (hi : i < s.source.ring.unread) (hk : k < n.toNat) :
    (s.source.ring.readindex.toNat + i) % bufferSize ≠ (writeIndex.toNat + k) % bufferSize := by
  have hrefill := H.refill
  rw [h] at hrefill
  obtain ⟨hindex, hn, -, -, hroom⟩ := hrefill
  have hlt := bufferSize_lt
  have hle := H.le
  rw [H.toNat_unread] at hi
  rw [hn, UInt32.toNat_ofNat', Nat.mod_eq_of_lt (by omega)] at hk
  rw [← Nat.mod_add_mod, ← Nat.mod_add_mod writeIndex.toNat, H.readindex, hindex,
    Spsc.toNat_mod bufferSize_dvd, Spsc.toNat_mod bufferSize_dvd, Nat.mod_add_mod, Nat.mod_add_mod]
  exact Circular.mod_ne (by omega) (by omega)

/-- No step changes a byte in the ring. -/
theorem Queue.buffer_eq (H : Queue s r w) (h : System.Step s a s') {i : ℕ}
    (hi : i < s.source.ring.unread) :
    s'.source.buffer ((s.source.ring.readindex.toNat + i) % bufferSize) =
      s.source.buffer ((s.source.ring.readindex.toNat + i) % bufferSize) := by
  cases System.next_effect h with
  | wrote c writeIndex localBuffer n hr =>
      have hrefill := H.refill
      rw [hr] at hrefill
      have hlt := bufferSize_lt
      have hroom := hrefill.2.2.2.2
      have hle := H.le
      have hpos : 0 < bufferSize := by decide
      have hlen : (localBuffer.take n.toNat).length ≤ n.toNat := List.length_take_le _ _
      have hsize : (localBuffer.take n.toNat).length ≤ bufferSize := by
        rw [List.length_take]
        omega
      refine Spsc.write_of_ne hsize (Nat.mod_lt _ hpos) ?_
      intro k hk
      exact H.cell_ne hr hi (by omega)
  | _ => rfl

/-- **Playback delivers the file.**  In every state a stream reaches, the chunks handed to
the stream are a prefix of the frames read from the file, which are a prefix of the file;
the ring holds at most `BUFFER_SIZE` bytes; and what is about to be put in the ring, and
every step, leave the bytes in the ring alone. -/
theorem plays_file (h : Playing channels file onFinished s) :
    s.bytesPlayed <+: s.bytesRead ∧ s.bytesRead <+: file ∧
      (s.source.ring.writeindex - s.source.ring.readindex).toNat ≤ bufferSize ∧
      (∀ c writeIndex localBuffer n, s.refill = some (c, .copying writeIndex localBuffer n) →
        ∀ i < s.source.ring.unread, ∀ k < n.toNat,
          (s.source.ring.readindex.toNat + i) % bufferSize ≠
            (writeIndex.toNat + k) % bufferSize) ∧
      ∀ a s', System.Step s a s' → ∀ i < s.source.ring.unread,
        s'.source.buffer ((s.source.ring.readindex.toNat + i) % bufferSize) =
          s.source.buffer ((s.source.ring.readindex.toNat + i) % bufferSize) := by
  obtain ⟨r, w, H⟩ := h.queue
  refine ⟨H.playback.isPrefix, ⟨_, h.file_eq⟩, ?_, ?_, ?_⟩
  · have hunread := H.toNat_unread
    have hfits := H.fits
    rw [SpaRingbuffer.unread] at hunread
    omega
  · intro c writeIndex localBuffer n hr i hi k hk
    exact H.cell_ne hr hi hk
  · intro a s' hstep i hi
    exact H.buffer_eq hstep hi

/-- Two bytes of a file of two frames have been played. -/
theorem plays_file_run : ∃ s, Playing 1 [1, 2, 3, 4] true s ∧ s.bytesPlayed = [1, 2] ∧
    s.bytesPlayed <+: s.bytesRead := by
  let actions : List Action :=
    [.refill .getWriteIndex, .refill (.readf 2), .refill .writeData, .refill .writeUpdate,
      .refill .loadIndices, .refill .test, .playback (.dequeue 2), .playback .getReadIndex,
      .playback .readData, .playback .readUpdate, .playback .eventfdWrite, .playback .queueBuffer]
  have hplayed : ((ctmSoundPlayAsync true (some (1, [1, 2, 3, 4])) true).bind
      fun s => actions.foldlM System.next s).map System.bytesPlayed = some [1, 2] := by decide
  obtain ⟨s, hrun, hplayed⟩ := Option.map_eq_some_iff.mp hplayed
  exact ⟨s, .of_run hrun, hplayed, (plays_file (.of_run hrun)).1⟩

end Run

end Ctm.Sound
