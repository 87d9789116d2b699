import Ctm.Process.Read

/-!
# A refresh with the lookups of its reads

`process_list_refresh` once more, with all it allocates: next to the `calloc` of a process,
the buffer and the name of `ctm_getusername_by_uid` in each `process_read`.  The model of
`Process.Manager` is the case in which `malloc` refuses the buffers.

Which processes a refresh reads is settled by the directory and the pids in the list.

## Main definitions

* `Entry` — an entry of the directory, with the call of `process_read` it may lead to.
* `updateProcess`, `addProcess`, `refreshEntry`, `refreshEntries`, `processListRefresh` — the
  functions of the source.
* `processListRefresh_plain` — the case without lookups.
* `reads` — the calls of `process_read` a refresh makes.
-/

namespace Ctm
namespace ProcessList
namespace Lookups

/-- An entry of the directory, and what the system answers while it is handled. -/
structure Entry where
  /-- `d_name` -/
  name : List UInt8
  /-- How `process_read` goes, if it is called. -/
  read : ReadCall
  /-- Whether `calloc` succeeds, if it is called. -/
  callocOk : Bool
  /-- Where `calloc` would place the record. -/
  want : ℕ

/-- The branch of the loop for a process of the list. -/
def updateProcess (callbacks : Callbacks) (s : Refresh) (existing : ℕ) (read : ReadCall) :
    Option Refresh := do
  let m ← s.memory.read existing read
  let m ← m.modify existing fun p =>
    { p with isActive := decide (read.outcome.result = .successRead) }
  if read.outcome.result = .successRead then do
    let process ← m.records existing
    some ({ s with memory := m }.notify callbacks.updated (.updated process))
  else do
    let m ← m.modify existing fun p => { p with isActive := false }
    some { s with memory := m }

/-- The branch of the loop for a process that is not in the list: the result to return at
once, if any, and the state. -/
def addProcess (list : ℕ) (callbacks : Callbacks) (s : Refresh) (upid : Pid) (e : Entry) :
    Option (Option ProcessResult × Refresh) :=
  match s.memory.calloc e.callocOk e.want with
  | none => some (some .errInternal, s)
  | some (new, m) => do
      let m ← m.read new e.read
      match e.read.outcome with
      | .failure _ errno _ => do
          let m ← m.free new
          if errno = .ENOENT then some (none, { s with memory := m })
          else some (some .errInternal, { s with memory := m })
      | .success _ => do
          let m ← m.modify new fun p => { p with pid := upid, isActive := true }
          let heap ← m.heap.listAddNode list new
          let m : Memory := { m with heap := heap }
          let process ← m.records new
          some (none, { s with memory := m }.notify callbacks.added (.added process))

/-- An iteration of the loop over the directory. -/
def refreshEntry (list : ℕ) (callbacks : Callbacks) (fuel : ℕ) (s : Refresh) (e : Entry) :
    Option (Option ProcessResult × Refresh) :=
  match entryName e.name with
  | .skip => some (none, s)
  | .outOfRange => some (some .errInternal, s)
  | .process upid => do
      match ← findProcessByPid s.memory list upid fuel with
      | (.successRead, some existing) => do
          let s ← updateProcess callbacks s existing e.read
          some (none, s)
      | _ => addProcess list callbacks s upid e

/-- The loop over the directory, which a result ends at once. -/
def refreshEntries (list : ℕ) (callbacks : Callbacks) (fuel : ℕ) (s : Refresh) :
    List Entry → Option (Option ProcessResult × Refresh)
  | [] => some (none, s)
  | e :: entries => do
      match ← refreshEntry list callbacks fuel s e with
      | (some result, s) => some (some result, s)
      | (none, s) => refreshEntries list callbacks fuel s entries

/-- `process_list_refresh`: `dir` is the listing of `/proc`, or `none` when `opendir` fails. -/
def processListRefresh (m : Memory) (list : Option ℕ) (dir : Option (List Entry))
    (callbacks : Callbacks) (fuel : ℕ) : Option (ProcessResult × Refresh) :=
  match list, dir with
  | none, _ => some (.errInvalidArg, ⟨m, []⟩)
  | some _, none => some (.errOpen, ⟨m, []⟩)
  | some head, some entries => do
      let (_, m) ← markProcessesInactive m list fuel
      match ← refreshEntries head callbacks fuel ⟨m, []⟩ entries with
      | (some result, s) => some (result, s)
      | (none, s) => do
          let (_, s) ← removeInactiveProcesses s list callbacks.removed fuel
          some (.successRead, s)

/-! ## Without lookups -/

/-- A lookup whose buffer is refused. -/
def refused : UserLookup := ⟨false, 0, none, false, 0⟩

/-- An entry whose read looks up no user. -/
def plain (e : ProcessList.Entry) : Entry := ⟨e.name, .looked e.read refused, e.callocOk, e.want⟩

theorem refreshEntry_plain (list : ℕ) (callbacks : Callbacks) (fuel : ℕ) (s : Refresh)
    (e : ProcessList.Entry) :
    refreshEntry list callbacks fuel s (plain e) =
      ProcessList.refreshEntry list callbacks fuel s e := rfl

theorem refreshEntries_plain (list : ℕ) (callbacks : Callbacks) (fuel : ℕ) (s : Refresh)
    (entries : List ProcessList.Entry) :
    refreshEntries list callbacks fuel s (entries.map plain) =
      ProcessList.refreshEntries list callbacks fuel s entries := by
  induction entries generalizing s with
  | nil => rfl
  | cons e entries ih =>
      change (refreshEntry list callbacks fuel s (plain e)).bind _ =
        (ProcessList.refreshEntry list callbacks fuel s e).bind _
      refine congrArg₂ Option.bind (refreshEntry_plain list callbacks fuel s e)
        (funext fun r => ?_)
      obtain ⟨_ | result, s⟩ := r
      · exact ih s
      · rfl

/-- **Without lookups this is the refresh of the process list.** -/
theorem processListRefresh_plain (m : Memory) (list : Option ℕ)
    (dir : Option (List ProcessList.Entry)) (callbacks : Callbacks) (fuel : ℕ) :
    processListRefresh m list (dir.map fun entries => entries.map plain) callbacks fuel =
      ProcessList.processListRefresh m list dir callbacks fuel := by
  cases list with
  | none => rfl
  | some head =>
      cases dir with
      | none => rfl
      | some entries =>
          change (markProcessesInactive m (some head) fuel).bind _ =
            (markProcessesInactive m (some head) fuel).bind _
          refine congrArg (Option.bind _) (funext fun marked => ?_)
          change (refreshEntries head callbacks fuel ⟨marked.2, []⟩ (entries.map plain)).bind _ =
            (ProcessList.refreshEntries head callbacks fuel ⟨marked.2, []⟩ entries).bind _
          refine congrArg₂ Option.bind (refreshEntries_plain head callbacks fuel _ entries)
            (funext fun r => ?_)
          obtain ⟨_ | result, s⟩ := r
          · rfl
          · rfl

/-! ## The calls of `process_read` -/

/-- What an entry leads to for a pid that is not in the list: the calls of `process_read`, and
the pids afterwards, unless the refresh ends. -/
def Entry.enter (e : Entry) (pid : Pid) (pids : List Pid) : List ReadCall × Option (List Pid) :=
  if !e.callocOk then ([], none)
  else
    ([e.read], match e.read.outcome with
      | .failure _ errno _ => if errno = .ENOENT then some pids else none
      | .success _ => some (pid :: pids))

/-- What an entry leads to when `pids` are in the list. -/
def Entry.visit (e : Entry) (pids : List Pid) : List ReadCall × Option (List Pid) :=
  match entryName e.name with
  | .skip => ([], some pids)
  | .outOfRange => ([], none)
  | .process pid =>
      if pid ≠ 0 ∧ pid ∈ pids then ([e.read], some pids) else e.enter pid pids

/-- The calls of `process_read` for the entries. -/
def reads : List Pid → List Entry → List ReadCall
  | _, [] => []
  | pids, e :: entries =>
      (e.visit pids).1 ++ match (e.visit pids).2 with
        | none => []
        | some pids => reads pids entries

/-- A refresh makes the calls of its entries only. -/
theorem exists_of_mem_reads {pids : List Pid} {entries : List Entry} {call : ReadCall}
    (h : call ∈ reads pids entries) : ∃ e ∈ entries, e.read = call := by
  have hvisit : ∀ (e : Entry) pids, call ∈ (e.visit pids).1 → e.read = call := by
    intro e pids h
    rw [Entry.visit] at h
    cases hname : entryName e.name with
    | skip =>
        rw [hname] at h
        cases h
    | outOfRange =>
        rw [hname] at h
        cases h
    | process pid =>
        simp only [hname] at h
        split at h
        · exact (List.mem_singleton.mp h).symm
        · rw [Entry.enter] at h
          split at h
          · cases h
          · exact (List.mem_singleton.mp h).symm
  induction entries generalizing pids with
  | nil => cases h
  | cons e entries ih =>
      rw [reads] at h
      rcases List.mem_append.mp h with h | h
      · exact ⟨e, List.mem_cons_self, hvisit e pids h⟩
      · cases hnext : (e.visit pids).2 with
        | none =>
            rw [hnext] at h
            cases h
        | some pids' =>
            rw [hnext] at h
            obtain ⟨e', he', hcall⟩ := ih h
            exact ⟨e', List.mem_cons_of_mem _ he', hcall⟩

/-- The number of names `ctm_getusername_by_uid` gives to the calls. -/
def given (calls : List ReadCall) : ℕ := (calls.filterMap ReadCall.username).length

@[simp] theorem given_nil : given [] = 0 := rfl

@[simp] theorem given_append (calls calls' : List ReadCall) :
    given (calls ++ calls') = given calls + given calls' := by
  simp [given]

theorem given_singleton (call : ReadCall) : given [call] = call.username.toList.length := by
  rw [given, List.filterMap_cons]
  cases call.username <;> rfl

theorem given_eq_zero {calls : List ReadCall} :
    given calls = 0 ↔ ∀ call ∈ calls, call.username = none := by
  rw [given, List.length_eq_zero_iff, List.filterMap_eq_nil_iff]

end Lookups
end ProcessList
end Ctm
