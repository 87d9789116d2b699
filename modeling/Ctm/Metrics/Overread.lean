import Ctm.Metrics.Cpu

/-!
# What the readers read beyond the file

Neither reader ends its buffer with a NUL.  `strtok_r` and `strtoul` go on into what the
buffer held before the call, and behind a full buffer into the memory after it, unless a
byte of the file stops them.

## Main definitions

* `beyond`, `Independent` — the memory behind the bytes read, and a reader it does not matter to.
* `ConversionsEnd` — the numbers end within a string.
* `independent_iff` — when the readers depend on the bytes read only.
-/

namespace Ctm

/-- The memory behind the bytes that `fread` stored: the rest of the buffer, and what comes after
it. -/
def beyond (bytes buffer after : List UInt8) : List UInt8 :=
  buffer.drop (bytes.take sizeofBuffer).length ++ after

/-- Any two runs that differ in what the buffer and the memory after it held return the same. -/
def Independent {α : Type} (bytes : List UInt8) (reader : List UInt8 → Option α) : Prop :=
  ∀ buffer buffer' after after', buffer.length = sizeofBuffer → buffer'.length = sizeofBuffer →
    after.length = after'.length →
    ∃ r, reader (beyond bytes buffer after) = some r ∧ reader (beyond bytes buffer' after') = some r

/-- A byte of the string ends each of `n` conversions.  Where there are no digits the others stay
at the same place. -/
def ConversionsEnd : ℕ → List UInt8 → Prop
  | 0, _ => True
  | n + 1, s =>
      (number (s.dropWhile isspace)).2.2 ≠ [] ∧
        ((number (s.dropWhile isspace)).2.1 = [] ∨
          ConversionsEnd n (number (s.dropWhile isspace)).2.2)

theorem strtouls_isSome_iff (n : ℕ) (s : List UInt8) :
    (strtouls n s).isSome ↔ ConversionsEnd n s := by
  induction n generalizing s with
  | zero => exact ⟨fun _ => trivial, fun _ => rfl⟩
  | succ n ih =>
      rw [ConversionsEnd]
      by_cases hrest : (number (s.dropWhile isspace)).2.2 = []
      · have hnone : strtoul s = none := by simp only [strtoul, if_pos hrest]
        simp [strtouls, hnone, hrest]
      · by_cases hdigits : (number (s.dropWhile isspace)).2.1 = []
        · have hstay : strtoul s = some (0, s) := by
            simp only [strtoul, if_neg hrest, if_pos hdigits]
          simp [strtouls_stay hstay, hrest, hdigits]
        · have hnext : strtoul s = some (ulongOf (number (s.dropWhile isspace)).1
              (number (s.dropWhile isspace)).2.1, (number (s.dropWhile isspace)).2.2) := by
            simp only [strtoul, if_neg hrest, if_neg hdigits]
          simp [strtouls_succ hnext, ih, hrest, hdigits]

/-- A difference to `cpu`, or the end of the ten conversions behind it, is among the bytes. -/
def CpuStops (read : List UInt8) : Prop :=
  (cpuWord <+: read ∧ ConversionsEnd 10 (read.drop 5)) ∨ (¬ cpuWord <+: read ∧ ¬ read <+: cpuWord)

variable {bytes read : List UInt8}

/-- `cpu_read` on bytes that stop it. -/
theorem cpuScan_append (h : CpuStops read) (out : Cpu) :
    ∃ r, ∀ beyond, cpuScan (read ++ beyond) out = some r := by
  rcases h with ⟨hword, hend⟩ | hword
  · obtain ⟨⟨xs, rest⟩, hxs⟩ := Option.isSome_iff_exists.mp ((strtouls_isSome_iff _ _).mpr hend)
    refine ⟨(.success, some (.ofNumbers xs)), fun beyond => ?_⟩
    have hlen : 5 ≤ read.length := by
      by_contra hlen
      rw [List.drop_eq_nil_of_le (by omega)] at hend
      exact hend.1 rfl
    rw [cpuScan, strncmp_append (strncmp_eq_true.mpr hword), List.drop_append_of_le_length hlen,
      strtouls_append hxs]
    rfl
  · refine ⟨(.errParse, some out), fun beyond => ?_⟩
    rw [cpuScan, strncmp_append (strncmp_eq_false.mpr hword)]
    rfl

/-- Something is read from a file that is not empty. -/
theorem take_ne_nil (h : bytes ≠ []) : bytes.take sizeofBuffer ≠ [] := by
  simp [sizeofBuffer, h]

/-- What makes `cpu_read` go past any buffer: the word, and digits to the end. -/
def cpuJunk : List UInt8 := cpuWord ++ List.replicate 1021 48

theorem length_cpuJunk : cpuJunk.length = sizeofBuffer := by
  rw [cpuJunk, List.length_append, List.length_replicate]
  rfl

/-- Where no byte stops `cpu_read`, it goes on through the digits of the buffer. -/
theorem cpuScan_stuck (hlen : read.length ≤ sizeofBuffer) (h : ¬ CpuStops read) (out : Cpu) :
    cpuScan (read ++ cpuJunk.drop read.length) out = none := by
  rw [CpuStops, not_or, not_and, not_and, not_not] at h
  have hstuck : ∀ s n, ¬ ConversionsEnd 10 s → strtouls 10 (s ++ List.replicate n 48) = none := by
    intro s n hs
    rw [← strtouls_isSome_iff, Bool.not_eq_true, Option.isSome_eq_false_iff,
      Option.isNone_iff_eq_none] at hs
    exact strtouls_stuck hs n
  by_cases hword : cpuWord <+: read
  · obtain ⟨t, rfl⟩ := hword
    have hjunk : cpuJunk.drop (cpuWord ++ t).length = List.replicate (1021 - t.length) 48 := by
      rw [List.length_append, cpuJunk, ← List.drop_drop, List.drop_left, List.drop_replicate]
    rw [cpuScan, strncmp_append (strncmp_eq_true.mpr (List.prefix_append _ t)), hjunk,
      List.drop_append, List.drop_replicate, Option.bind_some, if_pos rfl,
      hstuck _ _ (h.1 (List.prefix_append _ t))]
    rfl
  · obtain ⟨t, ht⟩ := h.2 hword
    have hjunk : read ++ cpuJunk.drop read.length = cpuJunk := by
      rw [cpuJunk, ← ht, List.append_assoc, List.drop_left]
    have hdigits : (cpuWord ++ List.replicate 1021 48).drop 5 = [] ++ List.replicate 1019 48 := by
      rw [List.nil_append, List.drop_append, List.drop_replicate]
      rfl
    rw [hjunk, cpuScan, cpuJunk, strncmp_append (strncmp_eq_true.mpr (List.prefix_refl _)),
      Option.bind_some, if_pos rfl, hdigits, hstuck [] 1019 fun hend => hend.1 rfl]
    rfl

/-- `mem_read` on bytes with a NUL. -/
theorem memRead_nul (h : 0 ∈ bytes.take sizeofBuffer) (out : Mem) :
    ∃ r, ∀ beyond, memRead (.content bytes) beyond (some out) = some r := by
  obtain ⟨before, rest, hread, hnul⟩ := List.eq_append_cons_of_mem h
  obtain ⟨lines, last, hbefore, hlines⟩ := exists_tokens 10 before
  have hstop : ∀ line ∈ lines ++ [last], 10 ∉ line ∧ 0 ∉ line :=
    fun line hline => (hlines line hline).imp_right fun hsub hmem => hnul (hsub 0 hmem)
  have htext : ∀ beyond, bytes.take sizeofBuffer ++ beyond =
      lines.flatMap (· ++ [10]) ++ (last ++ 0 :: (rest ++ beyond)) := by
    intro beyond
    rw [hread, hbefore]
    simp
  exact ⟨_, fun beyond => memRead_lines (List.ne_nil_of_mem h) hstop (htext beyond)⟩

/-- Without a NUL it goes on through the newlines of the buffer. -/
theorem memRead_stuck (hne : bytes ≠ []) (h : 0 ∉ bytes.take sizeofBuffer) (out : Mem) :
    memRead (.content bytes) (beyond bytes (List.replicate sizeofBuffer 10) []) (some out) =
      none := by
  have hlen : (bytes.take sizeofBuffer).length ≠ 0 :=
    fun h => take_ne_nil hne (List.length_eq_zero_iff.mp h)
  have hnul : 0 ∉ bytes.take sizeofBuffer ++ beyond bytes (List.replicate sizeofBuffer 10) [] := by
    rw [beyond, List.append_nil, List.drop_replicate, List.mem_append, not_or]
    exact ⟨h, fun hmem => absurd (List.eq_of_mem_replicate hmem) (by decide)⟩
  simp only [memRead, if_neg hlen, strtokLoop_stuck hnul, Option.bind_eq_bind, Option.bind_none]

/-- A reader that stops within the bytes exactly when `P`, and otherwise goes past the end of one
memory, is independent exactly when `P`. -/
theorem independent_iff_stops {α : Type} {reader : List UInt8 → Option α} {P : Prop}
    {buffer : List UInt8} (hlen : buffer.length = sizeofBuffer)
    (hstops : P → ∃ r, ∀ beyond, reader beyond = some r)
    (hstuck : ¬ P → reader (beyond bytes buffer []) = none) : Independent bytes reader ↔ P := by
  constructor
  · intro hall
    by_contra hP
    obtain ⟨r, hr, -⟩ := hall buffer buffer [] [] hlen hlen rfl
    rw [hstuck hP] at hr
    cases hr
  · intro hP
    obtain ⟨r, hr⟩ := hstops hP
    exact fun buffer buffer' after after' _ _ _ => ⟨r, hr _, hr _⟩

/-- A reader with two runs that return different results. -/
theorem not_independent_of_ne {α : Type} {reader : List UInt8 → Option α}
    {buffer buffer' : List UInt8} {r r' : α} (hlen : buffer.length = sizeofBuffer)
    (hlen' : buffer'.length = sizeofBuffer) (h : reader (beyond bytes buffer []) = some r)
    (h' : reader (beyond bytes buffer' []) = some r') (hne : r ≠ r') : ¬ Independent bytes reader := by
  intro hall
  obtain ⟨x, hx, hx'⟩ := hall buffer buffer' [] [] hlen hlen' rfl
  exact hne (Option.some.inj ((h.symm.trans hx).trans (h'.symm.trans hx').symm))

/-- **When the readers depend on the bytes read only**: `mem_read` when there is a NUL among
them, and `cpu_read` when they stop its comparison or all of its conversions. -/
theorem independent_iff (bytes : List UInt8) (outMem : Option Mem) (outCpu : Option Cpu) :
    (Independent bytes (fun beyond => memRead (.content bytes) beyond outMem) ↔
      outMem = none ∨ bytes = [] ∨ 0 ∈ bytes.take 1024) ∧
    (Independent bytes (fun beyond => cpuRead (.content bytes) beyond outCpu) ↔
      outCpu = none ∨ bytes = [] ∨ CpuStops (bytes.take 1024)) := by
  constructor
  · refine independent_iff_stops (List.length_replicate (a := 10)) (fun hstops => ?_)
      fun hstuck => ?_
    · cases outMem with
      | none => exact ⟨_, fun _ => rfl⟩
      | some out =>
          rcases hstops with hout | rfl | hnul
          · cases hout
          · exact ⟨_, fun _ => rfl⟩
          · exact memRead_nul hnul out
    · obtain ⟨hout, hne, hnul⟩ : outMem ≠ none ∧ bytes ≠ [] ∧ 0 ∉ bytes.take 1024 := by
        simpa only [not_or] using hstuck
      obtain ⟨out, rfl⟩ := Option.ne_none_iff_exists'.mp hout
      exact memRead_stuck hne hnul out
  · refine independent_iff_stops length_cpuJunk (fun hstops => ?_) fun hstuck => ?_
    · cases outCpu with
      | none => exact ⟨_, fun _ => rfl⟩
      | some out =>
          by_cases hne : bytes = []
          · subst hne
            exact ⟨_, fun _ => rfl⟩
          · have hstop : CpuStops (bytes.take sizeofBuffer) :=
              (hstops.resolve_left (by simp)).resolve_left hne
            obtain ⟨r, hr⟩ := cpuScan_append hstop out
            exact ⟨r, fun beyond => (cpuRead_eq (take_ne_nil hne) beyond out).trans (hr beyond)⟩
    · obtain ⟨hout, hne, hstop⟩ : outCpu ≠ none ∧ bytes ≠ [] ∧ ¬ CpuStops (bytes.take 1024) := by
        simpa only [not_or] using hstuck
      obtain ⟨out, rfl⟩ := Option.ne_none_iff_exists'.mp hout
      rw [cpuRead_eq (take_ne_nil hne), beyond, List.append_nil]
      exact cpuScan_stuck (List.length_take_le _ _) hstop out

/-- A buffer of some bytes and zeros. -/
def zeroed (start : List UInt8) : List UInt8 :=
  start ++ List.replicate (sizeofBuffer - start.length) 0

theorem length_zeroed {start : List UInt8} (h : start.length ≤ sizeofBuffer) :
    (zeroed start).length = sizeofBuffer := by
  rw [zeroed, List.length_append, List.length_replicate]
  omega

/-- Two runs that return differ on `MemFree: 5` and on `cpu  5`, with a NUL or with the digit 5
and a NUL in the buffer behind the file. -/
theorem overread_differs :
    (¬ ∀ bytes out, Independent bytes fun beyond => memRead (.content bytes) beyond out) ∧
    ¬ ∀ bytes out, Independent bytes fun beyond => cpuRead (.content bytes) beyond out := by
  constructor
  · intro hall
    let bytes : List UInt8 := MemLabel.free.word ++ [32, 53]
    have hfive : memRead (.content bytes) (beyond bytes (zeroed []) []) (some ⟨0, 0, 0⟩) =
        some (.errParse, some ⟨0, 0, 5⟩) := by decide +kernel
    have hmore : memRead (.content bytes) (beyond bytes (zeroed (bytes ++ [53])) [])
        (some ⟨0, 0, 0⟩) = some (.errParse, some ⟨0, 0, 55⟩) := by decide +kernel
    have hdiffers : ¬ Independent bytes fun beyond =>
        memRead (.content bytes) beyond (some ⟨0, 0, 0⟩) :=
      not_independent_of_ne (length_zeroed (by decide)) (length_zeroed (by decide)) hfive hmore
        (by decide)
    exact hdiffers (hall bytes (some ⟨0, 0, 0⟩))
  · intro hall
    let bytes : List UInt8 := cpuWord ++ [32, 32, 53]
    have hfive : cpuRead (.content bytes) (beyond bytes (zeroed []) []) (some (.ofNumbers [])) =
        some (.success, some (.ofNumbers [5])) := by decide +kernel
    have hmore : cpuRead (.content bytes) (beyond bytes (zeroed (bytes ++ [53])) [])
        (some (.ofNumbers [])) = some (.success, some (.ofNumbers [55])) := by decide +kernel
    have hdiffers : ¬ Independent bytes fun beyond =>
        cpuRead (.content bytes) beyond (some (.ofNumbers [])) :=
      not_independent_of_ne (length_zeroed (by decide)) (length_zeroed (by decide)) hfive hmore
        (by decide)
    exact hdiffers (hall bytes (some (.ofNumbers [])))

end Ctm
