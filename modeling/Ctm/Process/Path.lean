import Ctm.Printf
import Ctm.Process.Read

/-!
# The file of a process

`read_pid_file_path` of `metrics/process.c`.  The loop over `/proc` keeps only the number of
an entry, and `process_read` builds the path of its file from that number, so the two meet
again only when the number is printed as it was read.

## Main definitions

* `BufferWriterResult`, `readPidFilePath` — the function.
* `statPath` — the file below a directory of `/proc`.
* `entryName_eq_process` — the names the loop takes for processes.
* `readPidFilePath_entry` — which file is read for an entry.
-/

namespace Ctm

/-- The `buffer_writer_result_t`. -/
inductive BufferWriterResult
  | success
  | errInvalidArg
  | errWriteFailure
  | errBufferOverflow
  | errInternal
  deriving DecidableEq, Repr

/-- `/proc/<name>/stat` -/
def statPath (name : List UInt8) : List UInt8 :=
  [47, 112, 114, 111, 99, 47] ++ name ++ [47, 115, 116, 97, 116]

/-- `read_pid_file_path`: its result, and the string left in the buffer. -/
def readPidFilePath (pid : Pid) : BufferWriterResult × List UInt8 :=
  let (bytesWritten, out) := snprintf ioBufferSize (statPath (unsignedText pid.toNat))
  if ioBufferSize ≤ bytesWritten then (.errBufferOverflow, out) else (.success, out)

variable {name name' : List UInt8} {pid pid' : Pid}

theorem length_statPath (name : List UInt8) : (statPath name).length = name.length + 11 := by
  simp only [statPath, List.length_append, List.length_cons, List.length_nil]
  omega

theorem statPath_injective : Function.Injective statPath := by
  intro s t h
  rw [statPath, statPath] at h
  exact List.append_cancel_left (List.append_cancel_right h)

/-- The path of a number always fits. -/
theorem readPidFilePath_eq (pid : Pid) :
    readPidFilePath pid = (.success, statPath (unsignedText pid.toNat)) ∧
      (statPath (unsignedText pid.toNat)).length < 32 := by
  have hdigits : (unsignedText pid.toNat).length ≤ 10 := by
    rw [length_unsignedText_le (by omega)]
    have := pid.isLt
    omega
  have hlen : (statPath (unsignedText pid.toNat)).length < 32 := by
    rw [length_statPath]
    omega
  have hsize : ioBufferSize = 1024 := rfl
  have hfits : ¬ ioBufferSize ≤ (snprintf ioBufferSize (statPath (unsignedText pid.toNat))).1 := by
    simp only [snprintf]
    omega
  refine ⟨?_, hlen⟩
  simp only [readPidFilePath, if_neg hfits]
  rw [snprintf, List.take_of_length_le (by omega)]

namespace ProcessList

/-- The names that are taken for processes. -/
theorem entryName_eq_process : entryName name = .process pid ↔
    name ≠ [] ∧ name.all isdigit = true ∧ 0 < decimal name ∧ (decimal name : ℤ) < longMax ∧
      BitVec.ofNat 32 (decimal name) = pid := by
  cases name with
  | nil => simp [entryName]
  | cons c s =>
      cases hc : isdigit c with
      | false => simp [entryName, hc]
      | true =>
          cases hs : s.all isdigit with
          | false =>
              have hrest : (strtol (c :: s)).2.1 ≠ [] := by
                intro hnil
                rw [strtol_rest hc, List.dropWhile_eq_nil_iff, ← List.all_eq_true, hs] at hnil
                cases hnil
              simp [entryName, hc, hs, hrest]
          | true =>
              rcases Int.lt_or_le longMax (decimal (c :: s)) with hlong | hlong
              · -- A number that is no `long` ends the refresh.
                have htake : s.takeWhile isdigit = s :=
                  List.takeWhile_eq_self_iff.mpr (List.all_eq_true.mp hs)
                have hdrop : s.dropWhile isdigit = [] :=
                  List.dropWhile_eq_nil_iff.mpr (List.all_eq_true.mp hs)
                have hread : strtol (c :: s) = (longMax, [], some .ERANGE) := by
                  rw [strtol_of_digit hc, htake, hdrop, if_pos hlong]
                simp [entryName, hc, hs, hread]
                omega
              · have hmin : (decimal (c :: s) : ℤ) ≠ longMin := by
                  rw [longMin]
                  omega
                by_cases hmax : (decimal (c :: s) : ℤ) = longMax
                · simp [entryName, hc, hs, strtol_of_digits hc hs hlong, hmax]
                · have hlt : (decimal (c :: s) : ℤ) < longMax := by omega
                  by_cases hzero : decimal (c :: s) = 0
                  · simp [entryName, hc, hs, strtol_of_digits hc hs hlong, hzero, longMax, longMin]
                  · simp [entryName, hc, hs, strtol_of_digits hc hs hlong, hmax, hmin, hzero, hlt,
                      Nat.pos_of_ne_zero hzero]

/-- **Which file is read for an entry.**  The path always fits, in 32 bytes even.  It names
the entry's own file exactly when the name has no leading zero and is an `unsigned int`, and
two entries are read from one file exactly when their numbers agree as `unsigned int`s. -/
theorem readPidFilePath_entry (h : entryName name = .process pid)
    (h' : entryName name' = .process pid') :
    ∃ path path', readPidFilePath pid = (.success, path) ∧
      readPidFilePath pid' = (.success, path') ∧ path.length < 32 ∧
      (path = statPath name ↔ name.head? ≠ some 48 ∧ decimal name < 2 ^ 32) ∧
      (path = path' ↔ decimal name % 2 ^ 32 = decimal name' % 2 ^ 32) := by
  obtain ⟨hne, hdigits, hpos, -, rfl⟩ := entryName_eq_process.mp h
  obtain ⟨-, -, -, -, rfl⟩ := entryName_eq_process.mp h'
  obtain ⟨hpath, hlen⟩ := readPidFilePath_eq (BitVec.ofNat 32 (decimal name))
  obtain ⟨hpath', -⟩ := readPidFilePath_eq (BitVec.ofNat 32 (decimal name'))
  refine ⟨_, _, hpath, hpath', hlen, ?_, ?_⟩
  · rw [statPath_injective.eq_iff, BitVec.toNat_ofNat]
    constructor
    · intro heq
      have hnum : decimal name % 2 ^ 32 = decimal name := by
        rw [← decimal_unsignedText (decimal name % 2 ^ 32), heq]
      refine ⟨?_, by omega⟩
      rw [← heq]
      exact head?_unsignedText_ne (by omega)
    · rintro ⟨hhead, hlt⟩
      rw [Nat.mod_eq_of_lt hlt]
      exact unsignedText_decimal ⟨hne, List.all_eq_true.mp hdigits, fun heq => absurd heq hhead⟩
  · rw [statPath_injective.eq_iff, unsignedText_injective.eq_iff, BitVec.toNat_ofNat,
      BitVec.toNat_ofNat]

/-- The entries `12` and `012` are read from the same file, which is the first one's. -/
theorem readPidFilePath_entry_12 : ∃ path, readPidFilePath 12 = (.success, path) ∧
    path = statPath [49, 50] ∧ path ≠ statPath [48, 49, 50] := by
  have htwelve : entryName [49, 50] = .process 12 := by decide
  have hzero : entryName [48, 49, 50] = .process 12 := by decide
  obtain ⟨path, path', hpath, hpath', -, hown, hsame⟩ := readPidFilePath_entry htwelve hzero
  obtain ⟨path₂, -, hpath₂, -, -, hown₂, -⟩ := readPidFilePath_entry hzero hzero
  obtain rfl : path = path₂ := (Prod.mk.inj (hpath.symm.trans hpath₂)).2
  exact ⟨path, hpath, hown.mpr (by decide), fun heq => absurd (hown₂.mp heq).1 (by decide)⟩

end ProcessList
end Ctm
