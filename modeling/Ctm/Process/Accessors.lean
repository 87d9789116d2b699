import Ctm.Process.Read

/-!
# The accessors of a process

The functions of `metrics/process.c` through which the user interface reads a record.  An
argument that is a pointer is `none` when it is NULL, and else what it points to; a string
buffer holds the string that can be read from it, written or not.

## Main definitions

* `Event.process` — the record a callback is given.
* `processPid`, `processName`, `processUser`, `processState` — the accessors.
* `stateName` — the words for the states.
* `processState_eq` — what `process_state` leaves in a buffer that is large enough.
-/

namespace Ctm

/-- The record a callback is called with. -/
def ProcessList.Event.process : ProcessList.Event → Process
  | .added p => p
  | .updated p => p
  | .removed p => p

/-- `process_pid`: its result, and the number at `out`. -/
def processPid (process : Option Process) (out : Option Pid) : ProcessResult × Option Pid :=
  match process, out with
  | some p, some _ => (.successRead, some p.pid)
  | _, _ => (.errInvalidArg, out)

/-- An accessor that prints a field of the record. -/
def processField (field : ProcessData → List UInt8) (process : Option Process)
    (out : Option (List UInt8)) (len : ℕ) : ProcessResult × Option (List UInt8) :=
  match process, out with
  | some p, some _ =>
      if len = 0 then (.errInvalidArg, out)
      else (.successRead, some (snprintfString len (some (field p.data))))
  | _, _ => (.errInvalidArg, out)

/-- `process_name` -/
def processName := processField ProcessData.name

/-- `process_user` -/
def processUser := processField ProcessData.user

/-- The words of `process_state`. -/
def stateName (state : UInt8) : Option (List UInt8) :=
  if state = 82 then -- R
    some [82, 117, 110, 110, 105, 110, 103] -- Running
  else if state = 83 then -- S
    some [83, 108, 101, 101, 112, 105, 110, 103] -- Sleeping
  else if state = 68 then -- D
    some [68, 105, 115, 107, 32, 83, 108, 101, 101, 112] -- Disk Sleep
  else if state = 90 then -- Z
    some [90, 111, 109, 98, 105, 101] -- Zombie
  else if state = 84 then -- T
    some [84, 114, 97, 99, 101, 100, 47, 83, 116, 111, 112, 112, 101, 100] -- Traced/Stopped
  else if state = 87 then -- W
    some [80, 97, 103, 105, 110, 103, 47, 87, 97, 107, 105, 110, 103] -- Paging/Waking
  else if state = 88 ∨ state = 120 then -- X, x
    some [68, 101, 97, 100] -- Dead
  else if state = 75 then -- K
    some [87, 97, 107, 101, 45, 107, 105, 108, 108] -- Wake-kill
  else if state = 80 then -- P
    some [80, 97, 114, 107, 101, 100] -- Parked
  else if state = 73 then -- I
    some [73, 100, 108, 101] -- Idle
  else none

/-- `process_state`: its result, and the string in the buffer, which a state without a word
leaves as it was. -/
def processState (process : Option Process) (out : Option (List UInt8)) (len : ℕ) :
    ProcessResult × Option (List UInt8) :=
  match process, out with
  | some p, some _ =>
      if len = 0 then (.errInvalidArg, out)
      else
        match stateName p.data.state with
        | some word => (.successRead, some (snprintfString len (some word)))
        | none => (.errInvalidArg, out)
  | _, _ => (.errInvalidArg, out)

/-- A word for a state is short and printable. -/
theorem of_mem_stateName {state : UInt8} {word : List UInt8} (h : word ∈ stateName state) :
    word.length < 15 ∧ ∀ c ∈ word, 32 ≤ c ∧ c ≤ 126 := by
  have hall : ∀ state, ∀ word ∈ (stateName state).toList,
      word.length < 15 ∧ ∀ c ∈ word, 32 ≤ c ∧ c ≤ 126 := by
    intro state
    unfold stateName
    split_ifs
    all_goals decide +kernel
  exact hall state word (Option.mem_toList.mpr h)

variable {p : Process} {out : List UInt8} {len : ℕ}

theorem processState_eq (hlen : 15 ≤ len) :
    (processState (some p) (some out) len).2 = some ((stateName p.data.state).getD out) := by
  simp only [processState]
  rw [if_neg (by omega)]
  cases hword : stateName p.data.state with
  | none => rfl
  | some word =>
      have hshort := (of_mem_stateName (Option.mem_def.mpr hword)).1
      simp only [Option.getD_some]
      rw [snprintfString, Option.getD_some, List.take_of_length_le (by omega)]

end Ctm
