import Ctm.Libc

/-!
# Processes

The `struct process` of `metrics/process.c`, and what a call of `process_read` does to a
record.

## Main definitions

* `ProcessResult` — the `process_result_t`.
* `Process` — the `struct process`, less its list node.
* `ReadOutcome` — how one call of `process_read` ends.
-/

namespace Ctm

/-- The `process_result_t`. -/
inductive ProcessResult
  | successRead
  | successNotFound
  | errInvalidArg
  | errReadPath
  | errReadFile
  | errReadUser
  | errReadName
  | errParseFile
  | errNotFound
  | errOpen
  | errRead
  | errInternal
deriving DecidableEq, Repr

/-- A file that cannot be read is a failure. -/
theorem ProcessResult.errReadFile_ne : ProcessResult.errReadFile ≠ .successRead := by decide

/-- A process id, an `unsigned int`. -/
abbrev Pid := BitVec 32

/-- The fields of `struct process` that `process_read` writes. -/
structure ProcessData where
  name : List UInt8
  state : UInt8
  utime : ℕ
  stime : ℕ
  startTime : ℕ
  rss : ℕ
  uid : ℕ
  user : List UInt8
deriving DecidableEq, Repr

/-- The `struct process`.  Its `node` is kept in the list's heap. -/
structure Process where
  pid : Pid
  data : ProcessData
  isActive : Bool
deriving DecidableEq, Repr

/-- The fields of a zeroed record. -/
def ProcessData.zero : ProcessData := ⟨[], 0, 0, 0, 0, 0, 0, []⟩

/-- A record from `calloc`. -/
def Process.zero : Process := ⟨0, .zero, false⟩

/-- How a call of `process_read` ends: it fills in the record, or it fails with a result, an
`errno` left behind, and a record that may be partly written. -/
inductive ReadOutcome
  | success (data : ProcessData)
  | failure (result : { r : ProcessResult // r ≠ .successRead }) (errno : Errno)
      (partly : ProcessData → ProcessData)

namespace ReadOutcome

/-- The result of `process_read`. -/
def result : ReadOutcome → ProcessResult
  | success _ => .successRead
  | failure result _ _ => result

/-- `process_read` succeeded. -/
def succeeded : ReadOutcome → Bool
  | success _ => true
  | failure _ _ _ => false

/-- The data the record holds afterwards. -/
def apply : ReadOutcome → ProcessData → ProcessData
  | success data, _ => data
  | failure _ _ partly, data => partly data

end ReadOutcome
end Ctm
