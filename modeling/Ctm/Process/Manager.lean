import Ctm.LinkList.Basic
import Ctm.Process.Basic

/-!
# The process list of `metrics/process_manager.c`

The list holds one record for each process.  A refresh marks all records inactive, reads
every process of `/proc`, and removes the records that are still inactive.  What the
system answers is an input: the directory listing, the outcome of each `process_read`,
and whether each `calloc` succeeds.  Loops over the list take a bound on their steps.

## Main definitions

* `Memory` — the nodes and records in memory.
* `Entry`, `Callbacks`, `Event` — the inputs of a refresh, and the calls it makes back.
* `markProcessesInactive`, `findProcessByPid`, `removeInactiveProcesses`,
  `processListRefresh` — the functions of the source.
-/

namespace Ctm
namespace ProcessList

/-- Membership of a pid in a list of pids is decided by comparing it. -/
scoped instance : LawfulBEq Pid := inferInstance

/-- The memory of the process list.  A `process_t` is named by the address of its node. -/
structure Memory where
  heap : Heap ℕ
  /-- The records; `none` where no record can be read. -/
  records : ℕ → Option Process
  /-- The addresses in use. -/
  used : List ℕ

namespace Memory

/-- A free address: `want`, unless it is in use. -/
def place (m : Memory) (want : ℕ) : ℕ :=
  if want ∈ m.used then m.used.foldr max 0 + 1 else want

/-- `calloc(1, sizeof(process_t))`: a zeroed record, at any free address the allocator may
want, or NULL. -/
def calloc (m : Memory) (ok : Bool) (want : ℕ) : Option (ℕ × Memory) :=
  if ok then
    let a := m.place want
    some (a, {
      heap := m.heap.setNode a ⟨none, none, none⟩
      records := Function.update m.records a (some .zero)
      used := a :: m.used })
  else none

/-- `free` of a record, which can then no longer be read. -/
def free (m : Memory) (a : ℕ) : Option Memory :=
  if a ∈ m.used then
    some {
      heap := { m.heap with nodes := Function.update m.heap.nodes a none }
      records := Function.update m.records a none
      used := m.used.erase a }
  else none

/-- An assignment to fields of the record at `a`. -/
def modify (m : Memory) (a : ℕ) (f : Process → Process) : Option Memory := do
  let p ← m.records a
  some { m with records := Function.update m.records a (some (f p)) }

end Memory

/-- An entry of the directory, and what the system answers while it is handled. -/
structure Entry where
  /-- `d_name` -/
  name : List UInt8
  /-- How `process_read` ends, if it is called. -/
  read : ReadOutcome
  /-- Whether `calloc` succeeds, if it is called. -/
  callocOk : Bool
  /-- Where `calloc` would place the record. -/
  want : ℕ

/-- Which callbacks are not NULL. -/
structure Callbacks where
  added : Bool
  updated : Bool
  removed : Bool

/-- A call of a callback, with the record its argument points to. -/
inductive Event
  | added (p : Process)
  | updated (p : Process)
  | removed (p : Process)
deriving DecidableEq, Repr

/-- The state of a refresh: the memory, and the callbacks called so far. -/
structure Refresh where
  memory : Memory
  log : List Event

namespace Refresh

/-- A call of a callback that may be NULL. -/
def notify (s : Refresh) (callback : Bool) (e : Event) : Refresh :=
  if callback then { s with log := s.log ++ [e] } else s

end Refresh

/-- What the name of an entry denotes. -/
inductive EntryName
  /-- No process: the loop goes on to the next entry. -/
  | skip
  /-- A number that is no `long`: the refresh fails. -/
  | outOfRange
  | process (pid : Pid)
deriving DecidableEq, Repr

/-- The name of an entry, as the loop reads it. -/
def entryName (name : List UInt8) : EntryName :=
  match name with
  | [] => .skip
  | c :: _ =>
      if !isdigit c then .skip
      else
        let (pid, endPtr, errno) := strtol name
        if endPtr ≠ [] ∨ endPtr = name then .skip
        else if errno = some .ERANGE ∨ pid = longMax ∨ pid = longMin then .outOfRange
        else if pid = 0 then .skip
        else .process (BitVec.ofInt 32 pid)

/-- The body of the loop of `mark_processes_inactive`. -/
def markBody (m : Memory) (curr : ℕ) : Option (Empty ⊕ Memory) := do
  let m ← m.modify curr fun p => { p with isActive := false }
  some (.inr m)

/-- `mark_processes_inactive` -/
def markProcessesInactive (m : Memory) (processNode : Option ℕ) (fuel : ℕ) :
    Option (ProcessResult × Memory) :=
  match processNode with
  | none => some (.errInvalidArg, m)
  | some head => do
      match ← Heap.listForeach Memory.heap head markBody fuel m with
      | .inr m => some (.successRead, m)

/-- The body of the loop of `remove_inactive_processes`. -/
def removeBody (onProcessRemoved : Bool) (s : Refresh) (curr : ℕ) : Option Refresh := do
  let process ← s.memory.records curr
  if !process.isActive then do
    let heap ← s.memory.heap.listDeleteNode curr
    let s : Refresh := { s with memory := { s.memory with heap := heap } }
    let s := s.notify onProcessRemoved (.removed process)
    let memory ← s.memory.free curr
    some { s with memory := memory }
  else some s

/-- `remove_inactive_processes` -/
def removeInactiveProcesses (s : Refresh) (processNode : Option ℕ) (onProcessRemoved : Bool)
    (fuel : ℕ) : Option (ProcessResult × Refresh) :=
  match processNode with
  | none => some (.errInvalidArg, s)
  | some head => do
      let s ← Heap.listForeachSafe (fun s : Refresh => s.memory.heap) head
        (removeBody onProcessRemoved) fuel s
      some (.successRead, s)

/-- The body of the loop of `find_process_by_pid`. -/
def findBody (pid : Pid) (m : Memory) (curr : ℕ) : Option (ℕ ⊕ Memory) := do
  let process ← m.records curr
  if process.pid = pid then some (.inl curr) else some (.inr m)

/-- `find_process_by_pid`: the result, and the process it finds. -/
def findProcessByPid (m : Memory) (processNode : ℕ) (pid : Pid) (fuel : ℕ) :
    Option (ProcessResult × Option ℕ) :=
  if pid = 0 then some (.errInvalidArg, none)
  else do
    match ← Heap.listForeach Memory.heap processNode (findBody pid) fuel m with
    | .inl process => some (.successRead, some process)
    | .inr _ => some (.errNotFound, none)

/-- The branch of the loop for a process of the list. -/
def updateProcess (callbacks : Callbacks) (s : Refresh) (existing : ℕ) (read : ReadOutcome) :
    Option Refresh := do
  let m ← s.memory.modify existing fun p => { p with data := read.apply p.data }
  let m ← m.modify existing fun p => { p with isActive := decide (read.result = .successRead) }
  if read.result = .successRead then do
    let process ← m.records existing
    some ({ s with memory := m }.notify callbacks.updated (.updated process))
  else do
    let m ← m.modify existing fun p => { p with isActive := false }
    some { s with memory := m }

/-- The branch of the loop for a process that is not in the list: the result to return at
once, if any, and the state. -/
def addProcess (list : ℕ) (callbacks : Callbacks) (s : Refresh) (upid : Pid) (e : Entry) :
    Option (Option ProcessResult × Refresh) :=
  match s.memory.calloc e.callocOk e.want with
  | none => some (some .errInternal, s)
  | some (new, m) => do
      let m ← m.modify new fun p => { p with data := e.read.apply p.data }
      match e.read with
      | .failure _ errno _ => do
          let m ← m.free new
          if errno = .ENOENT then some (none, { s with memory := m })
          else some (some .errInternal, { s with memory := m })
      | .success _ => do
          let m ← m.modify new fun p => { p with pid := upid, isActive := true }
          let heap ← m.heap.listAddNode list new
          let m : Memory := { m with heap := heap }
          let process ← m.records new
          some (none, { s with memory := m }.notify callbacks.added (.added process))

/-- An iteration of the loop over the directory. -/
def refreshEntry (list : ℕ) (callbacks : Callbacks) (fuel : ℕ) (s : Refresh) (e : Entry) :
    Option (Option ProcessResult × Refresh) :=
  match entryName e.name with
  | .skip => some (none, s)
  | .outOfRange => some (some .errInternal, s)
  | .process upid => do
      match ← findProcessByPid s.memory list upid fuel with
      | (.successRead, some existing) => do
          let s ← updateProcess callbacks s existing e.read
          some (none, s)
      | _ => addProcess list callbacks s upid e

/-- The loop over the directory, which a result ends at once. -/
def refreshEntries (list : ℕ) (callbacks : Callbacks) (fuel : ℕ) (s : Refresh) :
    List Entry → Option (Option ProcessResult × Refresh)
  | [] => some (none, s)
  | e :: entries => do
      match ← refreshEntry list callbacks fuel s e with
      | (some result, s) => some (some result, s)
      | (none, s) => refreshEntries list callbacks fuel s entries

/-- `process_list_refresh`: `dir` is the listing of `/proc`, or `none` when `opendir` fails. -/
def processListRefresh (m : Memory) (list : Option ℕ) (dir : Option (List Entry))
    (callbacks : Callbacks) (fuel : ℕ) : Option (ProcessResult × Refresh) :=
  match list, dir with
  | none, _ => some (.errInvalidArg, ⟨m, []⟩)
  | some _, none => some (.errOpen, ⟨m, []⟩)
  | some head, some entries => do
      let (_, m) ← markProcessesInactive m list fuel
      match ← refreshEntries head callbacks fuel ⟨m, []⟩ entries with
      | (some result, s) => some (result, s)
      | (none, s) => do
          let (_, s) ← removeInactiveProcesses s list callbacks.removed fuel
          some (.successRead, s)

end ProcessList
end Ctm
