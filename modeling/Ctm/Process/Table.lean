import Ctm.Process.Manager

/-!
# The process table

What a refresh is for, without the memory: the table is the sequence of records, front
to back.  Each entry of the directory updates its record or puts a new one first; at the
end the records that were not read again go.

## Main definitions

* `pidOf`, `ValidName` — the names of a directory of processes.
* `Table.entry`, `Table.scan` — what one entry does, and the whole directory.
* `Table.refresh` — a refresh.
-/

namespace Ctm

/-- The record after a read. -/
def Process.reread (read : ReadOutcome) (p : Process) : Process :=
  { p with data := read.apply p.data, isActive := read.succeeded }

/-- The record marked inactive. -/
def Process.deactivate (p : Process) : Process := { p with isActive := false }

@[simp] theorem Process.pid_reread (read : ReadOutcome) (p : Process) :
    (p.reread read).pid = p.pid := rfl

@[simp] theorem Process.pid_deactivate (p : Process) : p.deactivate.pid = p.pid := rfl

namespace ProcessList

/-- The pid a name denotes, when it is a number. -/
def pidOf (name : List UInt8) : Option Pid :=
  if name ≠ [] ∧ name.all isdigit then some (BitVec.ofNat 32 (decimal name)) else none

/-- A name that is no number, or one between 1 and 2^32 - 1. -/
def ValidName (name : List UInt8) : Prop :=
  name ≠ [] ∧ name.all isdigit → 1 ≤ decimal name ∧ decimal name < 2 ^ 32

instance : DecidablePred ValidName := fun _ => inferInstanceAs (Decidable (_ → _))

/-- The records of the list, front to back. -/
abbrev Table := List Process

namespace Table
variable {t t' l₁ l₂ : Table} {pid : Pid} {p : Process} {read : ReadOutcome} {e : Entry}

/-- The pids of a table. -/
def pids (t : Table) : List Pid := t.map Process.pid

@[simp] theorem pids_cons (p : Process) (t : Table) : pids (p :: t) = p.pid :: t.pids := rfl

/-- The first record of a pid. -/
def lookup (t : Table) (pid : Pid) : Option Process := t.find? fun p => p.pid = pid

/-- A read of a process of the table: the first record of the pid is read again. -/
def update (pid : Pid) (read : ReadOutcome) : Table → Table
  | [] => []
  | p :: t => if p.pid = pid then p.reread read :: t else p :: update pid read t

/-- What an entry for a process that is not in the table does: the result that ends the
refresh, if any, the callbacks and the table. -/
def add (t : Table) (pid : Pid) (e : Entry) : Option ProcessResult × List Event × Table :=
  if !e.callocOk then (some .errInternal, [], t)
  else
    match e.read with
    | .success data => (none, [.added ⟨pid, data, true⟩], ⟨pid, data, true⟩ :: t)
    | .failure _ errno _ => (if errno = .ENOENT then none else some .errInternal, [], t)

/-- What an entry for `pid` does. -/
def process (t : Table) (pid : Pid) (e : Entry) : Option ProcessResult × List Event × Table :=
  match t.lookup pid with
  | some p =>
      (none, if e.read.succeeded then [.updated (p.reread e.read)] else [], t.update pid e.read)
  | none => t.add pid e

/-- What an entry does. -/
def entry (t : Table) (e : Entry) : Option ProcessResult × List Event × Table :=
  match pidOf e.name with
  | none => (none, [], t)
  | some pid => t.process pid e

/-- What the entries do, up to one that ends the refresh. -/
def scan : Table → List Entry → Option ProcessResult × List Event × Table
  | t, [] => (none, [], t)
  | t, e :: es =>
      match t.entry e with
      | (some r, events, t') => (some r, events, t')
      | (none, events, t') =>
          let rest := scan t' es
          (rest.1, events ++ rest.2.1, rest.2.2)

/-- The records that go. -/
def inactive (t : Table) : Table := t.filter fun p => !p.isActive

/-- The callbacks of the sweep. -/
def swept (t : Table) : List Event := t.inactive.map .removed

/-- The records that stay. -/
def active (t : Table) : Table := t.filter Process.isActive

/-- A refresh: its result, the callbacks and the table. -/
def refresh (t : Table) (dir : Option (List Entry)) : ProcessResult × List Event × Table :=
  match dir with
  | none => (.errOpen, [], t)
  | some entries =>
      match scan (t.map Process.deactivate) entries with
      | (some r, events, t') => (r, events, t')
      | (none, events, t') => (.successRead, events ++ t'.swept, t'.active)

/-! ## An entry of a process -/

theorem lookup_eq_none : t.lookup pid = none ↔ pid ∉ t.pids := by
  simp [lookup, pids]

/-- What is looked up is in the table. -/
theorem mem_of_lookup (h : t.lookup pid = some p) : p ∈ t ∧ p.pid = pid :=
  ⟨List.mem_of_find?_eq_some h, by simpa using List.find?_some h⟩

theorem mem_pids_of_lookup (h : t.lookup pid = some p) : pid ∈ t.pids := by
  obtain ⟨hp, rfl⟩ := mem_of_lookup h
  exact List.mem_map_of_mem hp

/-- The first record of a pid is the one updated. -/
theorem update_append (hl₁ : ∀ q ∈ l₁, q.pid ≠ pid) (hp : p.pid = pid) :
    update pid read (l₁ ++ p :: l₂) = l₁ ++ p.reread read :: l₂ := by
  induction l₁ with
  | nil => exact if_pos hp
  | cons q l₁ ih =>
      rw [List.cons_append, update, if_neg (hl₁ q List.mem_cons_self),
        ih fun q' hq' => hl₁ q' (List.mem_cons_of_mem _ hq'), List.cons_append]

/-- An entry for a pid of the table reads its first record again. -/
theorem process_append (hl₁ : ∀ q ∈ l₁, q.pid ≠ pid) (hp : p.pid = pid) :
    process (l₁ ++ p :: l₂) pid e =
      (none, if e.read.succeeded then [.updated (p.reread e.read)] else [],
        l₁ ++ p.reread e.read :: l₂) := by
  have hlookup : lookup (l₁ ++ p :: l₂) pid = some p := by
    rw [lookup, List.find?_eq_some_iff_append]
    exact ⟨by simpa using hp, l₁, l₂, rfl, by simpa using hl₁⟩
  simp only [process, hlookup, update_append hl₁ hp]

/-- An entry for another pid may add a record. -/
theorem process_of_notMem (h : ∀ q ∈ t, q.pid ≠ pid) : process t pid e = add t pid e := by
  have hlookup : t.lookup pid = none := by
    rw [lookup, List.find?_eq_none]
    simpa using h
  simp only [process, hlookup]

@[simp] theorem pids_update (read : ReadOutcome) : (t.update pid read).pids = t.pids := by
  induction t with
  | nil => rfl
  | cons p t ih =>
      rw [update]
      by_cases hp : p.pid = pid
      · rw [if_pos hp]
        rfl
      · rw [if_neg hp, pids, List.map_cons, pids, List.map_cons]
        exact congrArg _ ih

@[simp] theorem pids_deactivate : pids (t.map Process.deactivate) = t.pids := by
  simp [pids]

theorem length_update : (t.update pid read).length = t.length := by
  induction t with
  | nil => rfl
  | cons p t ih =>
      rw [update]
      split
      · rfl
      · rw [List.length_cons, List.length_cons, ih]

/-- An entry adds at most one record. -/
theorem length_entry : (t.entry e).2.2.length ≤ t.length + 1 := by
  rw [entry]
  cases pidOf e.name with
  | none => exact Nat.le_succ _
  | some pid =>
      simp only [process]
      cases t.lookup pid with
      | some p => simp [length_update]
      | none =>
          simp only [add]
          cases e.callocOk with
          | false => simp
          | true =>
              cases e.read with
              | success data => simp
              | failure result errno partly => simp

theorem length_scan (es : List Entry) : (t.scan es).2.2.length ≤ t.length + es.length := by
  induction es generalizing t with
  | nil => exact le_rfl
  | cons e es ih =>
      have hentry : (t.entry e).2.2.length ≤ t.length + 1 := length_entry
      rcases hr : t.entry e with ⟨r, events, t'⟩
      rw [hr] at hentry
      simp only at hentry
      rw [List.length_cons]
      cases r with
      | some r =>
          simp only [scan, hr]
          omega
      | none =>
          have := ih (t := t')
          simp only [scan, hr]
          omega

end Table

end ProcessList
end Ctm
