import Ctm.Metrics.Mem

/-!
# Reading `/proc/stat`

`cpu_read` and `cpu_total_usage` of `metrics/cpu.c`.  `cpu_read` looks at the first line of
the file only: it passes over the word `cpu` and two more bytes, and takes ten numbers in
turn.  What the memory holds beyond the bytes that were read is an input.

## Main definitions

* `Cpu` — the `struct cpu`.
* `cpuRead`, `getTotalTime`, `cpuTotalUsage` — the functions of the source.
* `cpuScan`, `cpuRead_eq` — the call behind `fread`.
-/

namespace Ctm

/-- The `cpu_result_t`. -/
inductive CpuResult
  | success
  | errInvalidArg
  | errOpen
  | errRead
  | errParse
  | errInternal
  deriving DecidableEq, Repr

/-- The `struct cpu`. -/
structure Cpu where
  user : UInt64
  nice : UInt64
  system : UInt64
  idle : UInt64
  iowait : UInt64
  irq : UInt64
  softirq : UInt64
  steal : UInt64
  guest : UInt64
  guestNice : UInt64
  deriving DecidableEq, Repr

/-- `cpu` -/
def cpuWord : List UInt8 := [99, 112, 117]

/-- `cpu_read`, with what the memory holds `beyond` the bytes read: its result, and the record at
`out`, which may be NULL. -/
def cpuRead (file : FileAnswer) (beyond : List UInt8) (out : Option Cpu) :
    Option (CpuResult × Option Cpu) :=
  match out with
  | none => some (.errInvalidArg, none)
  | some out =>
      match file with
      | .refused => some (.errOpen, some out)
      | .unreadable => some (.errRead, some out)
      | .content bytes =>
          let read := bytes.take sizeofBuffer
          if read.length = 0 then some (.errRead, some out)
          else do
            let buffer := read ++ beyond
            if !(← strncmp buffer cpuWord) then some (.errParse, some out)
            else do
              -- `cpu` and the two spaces behind it
              let lineBuffer := buffer.drop 5
              let (user, lineBuffer) ← strtoul lineBuffer
              let (nice, lineBuffer) ← strtoul lineBuffer
              let (system, lineBuffer) ← strtoul lineBuffer
              let (idle, lineBuffer) ← strtoul lineBuffer
              let (iowait, lineBuffer) ← strtoul lineBuffer
              let (irq, lineBuffer) ← strtoul lineBuffer
              let (softirq, lineBuffer) ← strtoul lineBuffer
              let (steal, lineBuffer) ← strtoul lineBuffer
              let (guest, lineBuffer) ← strtoul lineBuffer
              let (guestNice, _) ← strtoul lineBuffer
              some (.success, some
                { user := .ofNat user, nice := .ofNat nice, system := .ofNat system,
                  idle := .ofNat idle, iowait := .ofNat iowait, irq := .ofNat irq,
                  softirq := .ofNat softirq, steal := .ofNat steal, guest := .ofNat guest,
                  guestNice := .ofNat guestNice })

/-- `get_total_time` -/
def getTotalTime (cpu : Cpu) : UInt64 :=
  cpu.user + cpu.nice + cpu.system + cpu.idle + cpu.iowait + cpu.irq + cpu.softirq

/-- `cpu_total_usage`: its result, and the number at `out`; each pointer may be NULL. -/
def cpuTotalUsage (curr prev : Option Cpu) (out : Option UInt64) : CpuResult × Option UInt64 :=
  match curr, prev, out with
  | some curr, some prev, some out =>
      let previousIdleTime := prev.idle
      let currentIdleTime := curr.idle
      let previousTotalTime := getTotalTime prev
      let currentTotalTime := getTotalTime curr
      if previousTotalTime = 0 ∧ currentTotalTime = 0 then (.errInternal, some out)
      else
        let idleDelta := currentIdleTime - previousIdleTime
        let totalDelta := currentTotalTime - previousTotalTime
        -- The result of this exit is `CPU_SUCCESS`.
        if totalDelta = 0 then (.success, some out)
        else
          let averageIdleTime := idleDelta * 100000 / totalDelta
          (.success, some (100000 - averageIdleTime))
  | _, _, out => (.errInvalidArg, out)

/-! ## The call behind `fread` -/

/-- The record of ten numbers. -/
def Cpu.ofNumbers (xs : List ℕ) : Cpu where
  user := .ofNat (xs.getD 0 0)
  nice := .ofNat (xs.getD 1 0)
  system := .ofNat (xs.getD 2 0)
  idle := .ofNat (xs.getD 3 0)
  iowait := .ofNat (xs.getD 4 0)
  irq := .ofNat (xs.getD 5 0)
  softirq := .ofNat (xs.getD 6 0)
  steal := .ofNat (xs.getD 7 0)
  guest := .ofNat (xs.getD 8 0)
  guestNice := .ofNat (xs.getD 9 0)

/-- The call of `cpu_read` on the memory from its buffer on. -/
def cpuScan (buffer : List UInt8) (out : Cpu) : Option (CpuResult × Option Cpu) :=
  (strncmp buffer cpuWord).bind fun equal =>
    if equal then (strtouls 10 (buffer.drop 5)).map fun r => (.success, some (.ofNumbers r.1))
    else some (.errParse, some out)

theorem cpuRead_eq {bytes : List UInt8} (hne : bytes.take sizeofBuffer ≠ []) (beyond : List UInt8)
    (out : Cpu) :
    cpuRead (.content bytes) beyond (some out) =
      cpuScan (bytes.take sizeofBuffer ++ beyond) out := by
  have hlen : (bytes.take sizeofBuffer).length ≠ 0 := fun h => hne (List.length_eq_zero_iff.mp h)
  simp only [cpuRead, if_neg hlen, cpuScan]
  refine congrArg (Option.bind _) (funext fun equal => ?_)
  cases equal with
  | false => rfl
  | true =>
      rw [if_pos rfl]
      simp only [map_strtouls_succ, map_strtouls_zero]
      rfl

end Ctm
