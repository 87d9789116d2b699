import Ctm.Process.Records

/-!
# A refresh that fails

`process_list_refresh` first clears the flag of every record, and sets it again where a read
succeeds.  It returns from the middle of the directory when an entry has a number that is no
`long`, when `calloc` fails, or when a new process cannot be read.  The records stay where
they are, but nothing sets the flags again that no entry has reached by then.

## Main definitions

* `reached` — the entries before the one that ends the refresh.
* `readsAt` — the reads of one record of the list.
* `refreshEntries_holds` — what the entries make of the records.
* `LeavesKnown`, `FlagsKept` — a failed refresh leaves the processes as they were, and when.
* `leavesKnown_iff` — the two agree.
-/

namespace Ctm
namespace ProcessList

variable {m : Memory} {list fuel a : ℕ} {ps new : List (ℕ × Process)} {pid : Pid} {p : Process}

/-- The pids in the list after an entry, unless it ends the refresh. -/
def Entry.next (e : Entry) (pids : List Pid) : Option (List Pid) :=
  match entryName e.name with
  | .skip => some pids
  | .outOfRange => none
  | .process pid =>
      if pid ≠ 0 ∧ pid ∈ pids then some pids
      else if !e.callocOk then none
      else
        match e.read with
        | .failure _ errno _ => if errno = .ENOENT then some pids else none
        | .success _ => some (pid :: pids)

/-- The entries before the one that ends the refresh, when `pids` are in the list. -/
def reachedFrom : List Pid → List Entry → List Entry
  | _, [] => []
  | pids, e :: entries =>
      match e.next pids with
      | none => []
      | some pids => e :: reachedFrom pids entries

/-- The entries before the one that ends the refresh. -/
def reached (ps : List (ℕ × Process)) (entries : List Entry) : List Entry :=
  reachedFrom (Table.pids (ps.map Prod.snd)) entries

/-- The process that `find_process_by_pid` finds: the first one of the pid. -/
def finds (ps : List (ℕ × Process)) (pid : Pid) : Option ℕ :=
  if pid = 0 then none else (ps.find? fun q => q.2.pid = pid).map Prod.fst

/-- The read of the record at `a`, when the entry is for that process. -/
def Entry.readAt (e : Entry) (ps : List (ℕ × Process)) (a : ℕ) : Option ReadOutcome :=
  match entryName e.name with
  | .process pid => if finds ps pid = some a then some e.read else none
  | _ => none

/-- The reads of the record at `a`, in turn. -/
def readsAt (ps : List (ℕ × Process)) (entries : List Entry) (a : ℕ) : List ReadOutcome :=
  entries.filterMap fun e => e.readAt ps a

/-- A record of the list after the reads of it. -/
def rereads (ps : List (ℕ × Process)) (entries : List Entry) (q : ℕ × Process) : ℕ × Process :=
  (q.1, (readsAt ps entries q.1).foldl (fun p read => p.reread read) q.2)

/-! ## The first record of a pid -/

/-- Records that keep their pids are found as before. -/
theorem finds_map {f : ℕ × Process → ℕ × Process}
    (hf : ∀ q, (f q).1 = q.1 ∧ (f q).2.pid = q.2.pid) (pid : Pid) :
    finds (ps.map f) pid = finds ps pid := by
  have hpred : ((fun q : ℕ × Process => decide (q.2.pid = pid)) ∘ f) =
      fun q => decide (q.2.pid = pid) :=
    funext fun q => by simp [(hf q).2]
  rw [finds, finds, List.find?_map, hpred, Option.map_map,
    show Prod.fst ∘ f = Prod.fst from funext fun q => (hf q).1]

/-- What is found is at an address of the list. -/
theorem mem_of_finds (h : finds ps pid = some a) : a ∈ ps.map Prod.fst := by
  rw [finds] at h
  split at h
  · cases h
  · obtain ⟨q, hq, rfl⟩ := Option.map_eq_some_iff.mp h
    exact List.mem_map_of_mem (List.mem_of_find?_eq_some hq)

theorem finds_eq_none (h : ∀ q ∈ ps, q.2.pid ≠ pid) : finds ps pid = none := by
  rw [finds]
  split
  · rfl
  · rw [Option.map_eq_none_iff, List.find?_eq_none]
    simpa using h

theorem finds_append (new ps : List (ℕ × Process)) (pid : Pid) :
    finds (new ++ ps) pid = (finds new pid).or (finds ps pid) := by
  by_cases hpid : pid = 0
  · simp [finds, hpid]
  · simp only [finds, if_neg hpid, List.find?_append]
    cases new.find? fun q => q.2.pid = pid <;> rfl

/-- The first record of a pid. -/
theorem finds_middle {l₁ l₂ : List (ℕ × Process)} (hpid : pid ≠ 0) (hp : p.pid = pid)
    (hl₁ : ∀ q ∈ l₁, q.2.pid ≠ pid) : finds (l₁ ++ (a, p) :: l₂) pid = some a := by
  rw [finds_append, finds_eq_none hl₁, Option.none_or, finds, if_neg hpid,
    List.find?_cons_of_pos (by simpa using hp)]
  rfl

/-- Records that come into the list hide none of those in it. -/
theorem finds_new (hnodup : ((new ++ ps).map Prod.fst).Nodup)
    (hnew : ∀ q ∈ new, finds ps q.2.pid = none) (ha : a ∈ ps.map Prod.fst) (pid : Pid) :
    finds (new ++ ps) pid = some a ↔ finds ps pid = some a := by
  rw [finds_append]
  cases hfind : finds new pid with
  | none => rw [Option.none_or]
  | some b =>
      have hb : b ∈ new.map Prod.fst := mem_of_finds hfind
      have hba : b ≠ a := by
        rintro rfl
        rw [List.map_append] at hnodup
        exact List.disjoint_of_nodup_append hnodup hb ha
      have hnone : finds ps pid = none := by
        rw [finds] at hfind
        split at hfind
        · cases hfind
        · obtain ⟨q, hq, -⟩ := Option.map_eq_some_iff.mp hfind
          obtain rfl : q.2.pid = pid := by simpa using List.find?_some hq
          exact hnew q (List.mem_of_find?_eq_some hq)
      simp [hnone, hba]

/-! ## What the entries make of the records -/

/-- The record after the reads of one entry and of those behind it. -/
theorem rereads_cons (ps : List (ℕ × Process)) (e : Entry) (entries : List Entry)
    (q : ℕ × Process) : rereads ps (e :: entries) q = rereads ps entries (rereads ps [e] q) := by
  simp only [rereads, readsAt, List.filterMap_cons, List.filterMap_nil]
  cases e.readAt ps q.1 <;> rfl

theorem rereads_fst (ps : List (ℕ × Process)) (entries : List Entry) (q : ℕ × Process) :
    (rereads ps entries q).1 = q.1 := rfl

theorem rereads_pid (ps : List (ℕ × Process)) (entries : List Entry) (q : ℕ × Process) :
    (rereads ps entries q).2.pid = q.2.pid := by
  have hfold : ∀ (reads : List ReadOutcome) (p : Process),
      (reads.foldl (fun p read => p.reread read) p).pid = p.pid := by
    intro reads
    induction reads with
    | nil => exact fun p => rfl
    | cons read reads ih => exact fun p => ih (p.reread read)
  exact hfold _ _

/-- The reads of a record do not depend on the records that come into the list. -/
theorem rereads_new {ps' : List (ℕ × Process)} (hsame : ∀ pid, finds ps' pid = finds ps pid)
    (hnodup : ((new ++ ps').map Prod.fst).Nodup) (hnew : ∀ q ∈ new, finds ps q.2.pid = none)
    (entries : List Entry) {q : ℕ × Process} (hq : q.1 ∈ ps'.map Prod.fst) :
    rereads (new ++ ps') entries q = rereads ps entries q := by
  have hread : ∀ e : Entry, e.readAt (new ++ ps') q.1 = e.readAt ps q.1 := by
    intro e
    rw [Entry.readAt, Entry.readAt]
    cases entryName e.name with
    | skip => rfl
    | outOfRange => rfl
    | process pid =>
        have hnew' : ∀ q ∈ new, finds ps' q.2.pid = none := by
          intro q hq
          rw [hsame]
          exact hnew q hq
        simp only [finds_new hnodup hnew' hq pid, hsame]
  simp only [rereads, readsAt, hread]

/-- An entry that is for no record of the list reads none. -/
theorem map_rereads_self {e : Entry} (h : ∀ q ∈ ps, e.readAt ps q.1 = none) :
    ps.map (rereads ps [e]) = ps := by
  refine (List.map_congr_left fun q hq => ?_).trans (List.map_id ps)
  simp [rereads, readsAt, h q hq]

/-- The list after an entry, and the result if the entry ends the refresh. -/
structure EntryDone (list : ℕ) (ps : List (ℕ × Process)) (e : Entry) (r : Option ProcessResult)
    (m : Memory) (new : List (ℕ × Process)) : Prop where
  holds : Holds m list (new ++ ps.map (rereads ps [e]))
  new_pid : ∀ q ∈ new, finds ps q.2.pid = none
  length_new : new.length ≤ 1
  next : e.next (Table.pids (ps.map Prod.snd)) =
    if r = none then some (Table.pids ((new ++ ps).map Prod.snd)) else none
  ne_success : r ≠ some .successRead
  ends : r ≠ none → ps.map (rereads ps [e]) = ps

/-- An entry that reads no record and adds none. -/
theorem EntryDone.unread {e : Entry} {r : Option ProcessResult} (H : Holds m list ps)
    (hread : ∀ q ∈ ps, e.readAt ps q.1 = none) (hne : r ≠ some .successRead)
    (hnext : e.next (Table.pids (ps.map Prod.snd)) =
      if r = none then some (Table.pids (ps.map Prod.snd)) else none) :
    EntryDone list ps e r m [] where
  holds := by rwa [List.nil_append, map_rereads_self hread]
  new_pid := by simp
  length_new := Nat.zero_le _
  next := hnext
  ne_success := hne
  ends _ := map_rereads_self hread

/-- What an entry adds to the table. -/
theorem Table.add_cases (t : Table) (pid : Pid) (e : Entry) :
    (∃ data, e.callocOk = true ∧ e.read = .success data ∧
      t.add pid e = (none, [.added ⟨pid, data, true⟩], ⟨pid, data, true⟩ :: t)) ∨
    (e.callocOk = true ∧ (∃ result partly, e.read = .failure result .ENOENT partly) ∧
      t.add pid e = (none, [], t)) ∨
    ((e.callocOk = true → ∃ result errno partly,
        e.read = .failure result errno partly ∧ errno ≠ .ENOENT) ∧
      t.add pid e = (some .errInternal, [], t)) := by
  cases hok : e.callocOk with
  | false => exact .inr (.inr ⟨fun h => absurd h (by decide), by simp [Table.add, hok]⟩)
  | true =>
      cases hread : e.read with
      | success data => exact .inl ⟨data, rfl, rfl, by simp [Table.add, hok, hread]⟩
      | failure result errno partly =>
          by_cases herrno : errno = .ENOENT
          · subst herrno
            exact .inr (.inl ⟨rfl, ⟨result, partly, rfl⟩, by simp [Table.add, hok, hread]⟩)
          · exact .inr (.inr ⟨fun _ => ⟨result, errno, partly, rfl, herrno⟩,
              by simp [Table.add, hok, hread, herrno]⟩)

/-- The branch for a process that is not in the list. -/
theorem addProcess_done {s : Refresh} (H : Holds s.memory list ps) (callbacks : Callbacks)
    {e : Entry} (hname : entryName e.name = .process pid) (hfind : finds ps pid = none)
    (hpid : ¬ (pid ≠ 0 ∧ pid ∈ Table.pids (ps.map Prod.snd))) :
    ∃ r s' new, addProcess list callbacks s pid e = some (r, s') ∧
      EntryDone list ps e r s'.memory new := by
  have hread : ∀ q ∈ ps, e.readAt ps q.1 = none := by
    intro q hq
    simp [Entry.readAt, hname, hfind]
  obtain ⟨m', new, hadd, H', htable⟩ := addProcess_holds H callbacks pid e
  refine ⟨_, _, new, hadd, ?_⟩
  rcases Table.add_cases (ps.map Prod.snd) pid e with
    ⟨data, hok, hsuccess, hcase⟩ | ⟨hok, ⟨result, partly, hfail⟩, hcase⟩ | ⟨hfail, hcase⟩
  · rw [hcase, List.map_append, ← List.singleton_append] at htable
    have hnew : [⟨pid, data, true⟩] = new.map Prod.snd := List.append_cancel_right htable
    refine ⟨by rwa [map_rereads_self hread], ?_, ?_, ?_, by simp [hcase],
      fun _ => map_rereads_self hread⟩
    · intro q hq
      have hq' : q.2 ∈ new.map Prod.snd := List.mem_map_of_mem hq
      rw [← hnew, List.mem_singleton] at hq'
      rw [hq']
      exact hfind
    · have hlen := congrArg List.length hnew
      rw [List.length_map] at hlen
      exact hlen.ge
    · rw [Entry.next, hname, hcase, if_pos rfl, List.map_append, ← hnew]
      simp only [if_neg hpid, hok, hsuccess]
      rfl
  · rw [hcase, List.map_append] at htable
    obtain rfl : new = [] := by simpa using htable
    rw [hcase]
    refine .unread H' hread (Option.some_ne_none _).symm ?_
    rw [Entry.next, hname, if_pos rfl]
    simp only [if_neg hpid, hok, hfail]
    rfl
  · rw [hcase, List.map_append] at htable
    obtain rfl : new = [] := by simpa using htable
    rw [hcase]
    refine .unread H' hread (by simp) ?_
    rw [Entry.next, hname, if_neg (Option.some_ne_none _)]
    simp only [if_neg hpid]
    cases hok : e.callocOk with
    | false => rfl
    | true =>
        obtain ⟨result, errno, partly, hread, herrno⟩ := hfail hok
        simp [hread, herrno]

/-- An iteration of the loop. -/
theorem refreshEntry_done {s : Refresh} (H : Holds s.memory list ps) (callbacks : Callbacks)
    (e : Entry) (hfuel : ps.length < fuel) :
    ∃ r s' new, refreshEntry list callbacks fuel s e = some (r, s') ∧
      EntryDone list ps e r s'.memory new := by
  rw [refreshEntry]
  cases hname : entryName e.name with
  | skip =>
      exact ⟨none, s, [], rfl, .unread H (fun q hq => by simp [Entry.readAt, hname]) (by decide)
        (by simp [Entry.next, hname])⟩
  | outOfRange =>
      exact ⟨some .errInternal, s, [], rfl, .unread H (fun q hq => by simp [Entry.readAt, hname])
        (by decide) (by simp [Entry.next, hname])⟩
  | process pid =>
      by_cases hpid : pid = 0
      · have hzero : ¬ (pid ≠ 0 ∧ pid ∈ Table.pids (ps.map Prod.snd)) := fun h => h.1 hpid
        simp only [findProcessByPid, if_pos hpid, Option.bind_eq_bind, Option.bind_some]
        exact addProcess_done H callbacks hname (if_pos hpid) hzero
      · rcases findProcessByPid_spec H hpid hfuel with
          ⟨l₁, b, p, l₂, rfl, hp, hl₁, hfind⟩ | ⟨hps, hfind⟩
        · obtain ⟨m', hupdate, H'⟩ := updateProcess_spec H callbacks e.read
          have hfinds : finds (l₁ ++ (b, p) :: l₂) pid = some b := finds_middle hpid hp hl₁
          -- The record at `b` is read, those at other addresses are not.
          have hother : ∀ q ∈ l₁ ++ l₂, rereads (l₁ ++ (b, p) :: l₂) [e] q = q := by
            intro q hq
            have hne : b ≠ q.1 := (H.ne_of_mem hq).symm
            simp [rereads, readsAt, Entry.readAt, hname, hfinds, hne]
          have hread : rereads (l₁ ++ (b, p) :: l₂) [e] (b, p) = (b, p.reread e.read) := by
            simp [rereads, readsAt, Entry.readAt, hname, hfinds]
          have hmap : (l₁ ++ (b, p) :: l₂).map (rereads (l₁ ++ (b, p) :: l₂) [e]) =
              l₁ ++ (b, p.reread e.read) :: l₂ := by
            have h₁ := List.map_congr_left fun q hq => hother q (List.mem_append_left l₂ hq)
            have h₂ := List.map_congr_left fun q hq => hother q (List.mem_append_right l₁ hq)
            rw [List.map_append, List.map_cons, hread, h₁, h₂, List.map_id', List.map_id']
          have hmem : pid ≠ 0 ∧ pid ∈ Table.pids ((l₁ ++ (b, p) :: l₂).map Prod.snd) :=
            ⟨hpid, by rw [← hp]; simp [Table.pids]⟩
          simp only [hfind, hupdate, Option.bind_eq_bind, Option.bind_some]
          refine ⟨none, _, [], rfl, ?_, by simp, Nat.zero_le _, ?_, by simp, fun h => absurd rfl h⟩
          · rw [List.nil_append, hmap]
            exact H'
          · rw [Entry.next, hname]
            simp only [if_pos hmem]
            rfl
        · have hnone : ¬ (pid ≠ 0 ∧ pid ∈ Table.pids (ps.map Prod.snd)) := by
            rintro ⟨-, hmem⟩
            rw [Table.pids, List.map_map] at hmem
            obtain ⟨q, hq, hqpid⟩ := List.mem_map.mp hmem
            exact hps q hq hqpid
          simp only [hfind, Option.bind_eq_bind, Option.bind_some]
          exact addProcess_done H callbacks hname (finds_eq_none hps) hnone

/-- An entry that ends the refresh is not reached. -/
theorem reached_cons_of_ends {e : Entry} {r : ProcessResult}
    (D : EntryDone list ps e (some r) m new) (entries : List Entry) :
    reached ps (e :: entries) = [] := by
  have hnext := D.next
  rw [if_neg (Option.some_ne_none r)] at hnext
  rw [reached, reachedFrom, hnext]

/-- Behind an entry that does not, the list is the one it leaves. -/
theorem reached_cons {e : Entry} (D : EntryDone list ps e none m new) (entries : List Entry) :
    reached ps (e :: entries) = e :: reached (new ++ ps.map (rereads ps [e])) entries := by
  have hnext := D.next
  have hpids : Table.pids ((new ++ ps).map Prod.snd) =
      Table.pids ((new ++ ps.map (rereads ps [e])).map Prod.snd) := by
    simp [Table.pids, rereads_pid]
  rw [if_pos rfl, hpids] at hnext
  rw [reached, reachedFrom, hnext]
  rfl

/-- The loop over the directory: the records stay at their addresses, read again by the entries
before the one that ends the refresh, and others come before them. -/
theorem refreshEntries_holds {s : Refresh} (H : Holds s.memory list ps) (callbacks : Callbacks)
    (entries : List Entry) (hfuel : ps.length + entries.length ≤ fuel) :
    ∃ r s' new, refreshEntries list callbacks fuel s entries = some (r, s') ∧
      Holds s'.memory list (new ++ ps.map (rereads ps (reached ps entries))) ∧
      new.length ≤ entries.length ∧ r ≠ some .successRead ∧
      (r = none ↔ reached ps entries = entries) := by
  induction entries generalizing s ps with
  | nil =>
      refine ⟨none, s, [], rfl, ?_, le_refl _, by simp, by simp [reached, reachedFrom]⟩
      exact (List.map_id' ps).symm ▸ H
  | cons e entries ih =>
      rw [List.length_cons] at hfuel
      obtain ⟨r, s₁, new₁, hentry, D⟩ :=
        refreshEntry_done H callbacks e (show ps.length < fuel by omega)
      have H₁ := D.holds
      have hlen := D.length_new
      simp only [refreshEntries, hentry, Option.bind_eq_bind, Option.bind_some]
      cases r with
      | some r =>
          rw [D.ends (Option.some_ne_none r)] at H₁
          rw [reached_cons_of_ends D]
          refine ⟨some r, s₁, new₁, rfl, ?_, ?_, D.ne_success, by simp⟩
          · exact (List.map_id' ps).symm ▸ H₁
          · rw [List.length_cons]
            omega
      | none =>
          obtain ⟨r, s₂, new₂, hrun, H₂, hlen₂, hne, hnone⟩ :=
            ih H₁ (by rw [List.length_append, List.length_map]; omega)
          have hrest : ∀ q ∈ ps,
              (rereads (new₁ ++ ps.map (rereads ps [e]))
                (reached (new₁ ++ ps.map (rereads ps [e])) entries) ∘ rereads ps [e]) q =
                rereads ps (reached ps (e :: entries)) q := by
            intro q hq
            have hsame : ∀ pid, finds (ps.map (rereads ps [e])) pid = finds ps pid :=
              finds_map fun q => ⟨rereads_fst ps [e] q, rereads_pid ps [e] q⟩
            have hnodup := (List.nodup_cons.mp H₁.nodup).2
            have hmem : (rereads ps [e] q).1 ∈ (ps.map (rereads ps [e])).map Prod.fst :=
              List.mem_map_of_mem (List.mem_map_of_mem hq)
            rw [Function.comp_apply, rereads_new hsame hnodup D.new_pid _ hmem, reached_cons D,
              ← rereads_cons]
          rw [List.map_append, List.map_map, List.map_congr_left hrest, ← List.append_assoc] at H₂
          refine ⟨r, s₂, _, hrun, H₂, ?_, hne, ?_⟩
          · rw [List.length_append, List.length_map, List.length_cons]
            omega
          · rw [hnone, reached_cons D]
            exact ⟨congrArg (List.cons e), fun h => (List.cons.inj h).2⟩

/-! ## The refresh -/

/-- The list once its records are marked. -/
def marked (ps : List (ℕ × Process)) : List (ℕ × Process) :=
  ps.map fun q => (q.1, q.2.deactivate)

theorem reached_marked (ps : List (ℕ × Process)) (entries : List Entry) :
    reached (marked ps) entries = reached ps entries := by
  simp [reached, marked, Table.pids, Function.comp_def]

theorem readsAt_marked (ps : List (ℕ × Process)) (entries : List Entry) (a : ℕ) :
    readsAt (marked ps) entries a = readsAt ps entries a := by
  have hfinds : ∀ pid, finds (marked ps) pid = finds ps pid :=
    finds_map fun q => ⟨rfl, rfl⟩
  simp only [readsAt, Entry.readAt, hfinds]

/-- The loop of the refresh over the directory. -/
theorem refreshEntries_marked (H : Holds m list ps) (entries : List Entry) (callbacks : Callbacks)
    (hfuel : ps.length + entries.length < fuel) :
    ∃ m₁ r s new, markProcessesInactive m (some list) fuel = some (.successRead, m₁) ∧
      refreshEntries list callbacks fuel ⟨m₁, []⟩ entries = some (r, s) ∧
      Holds s.memory list (new ++ (marked ps).map (rereads (marked ps) (reached ps entries))) ∧
      new.length ≤ entries.length ∧ r ≠ some .successRead ∧
      (r = none ↔ reached ps entries = entries) := by
  obtain ⟨m₁, hmark, H₁⟩ := markProcessesInactive_spec H (show ps.length < fuel by omega)
  have hlength : (marked ps).length = ps.length := List.length_map _
  obtain ⟨r, s, new, hrun, H', hspec⟩ := refreshEntries_holds (s := ⟨m₁, []⟩) H₁ callbacks
    entries (show (marked ps).length + _ ≤ fuel by omega)
  change Holds s.memory list
    (new ++ (marked ps).map (rereads (marked ps) (reached (marked ps) entries))) at H'
  change new.length ≤ _ ∧ r ≠ _ ∧ (r = none ↔ reached (marked ps) entries = entries) at hspec
  rw [reached_marked] at H' hspec
  exact ⟨m₁, r, s, new, hmark, hrun, H', hspec⟩

/-- `process_list_refresh` when an entry ends it. -/
theorem processListRefresh_fails (H : Holds m list ps) (entries : List Entry)
    (callbacks : Callbacks) (hfuel : ps.length + entries.length < fuel)
    (hends : reached ps entries ≠ entries) :
    ∃ r s new, processListRefresh m (some list) (some entries) callbacks fuel = some (r, s) ∧
      r ≠ .successRead ∧
      Holds s.memory list (new ++ (marked ps).map (rereads (marked ps) (reached ps entries))) := by
  obtain ⟨m₁, r, s, new, hmark, hrun, H', -, hne, hnone⟩ :=
    refreshEntries_marked H entries callbacks hfuel
  cases r with
  | none => exact absurd (hnone.mp rfl) hends
  | some r =>
      refine ⟨r, s, new, ?_, fun h => hne (congrArg some h), H'⟩
      simp only [processListRefresh, hmark, hrun, Option.bind_eq_bind, Option.bind_some]

/-- `process_list_refresh` when no entry ends it. -/
theorem processListRefresh_succeeds (H : Holds m list ps) (entries : List Entry)
    (callbacks : Callbacks) (hfuel : ps.length + entries.length < fuel)
    (hends : reached ps entries = entries) :
    ∃ s ps', processListRefresh m (some list) (some entries) callbacks fuel =
      some (.successRead, s) ∧ Holds s.memory list ps' := by
  obtain ⟨m₁, r, s, new, hmark, hrun, H', hlen, -, hnone⟩ :=
    refreshEntries_marked H entries callbacks hfuel
  obtain rfl := hnone.mpr hends
  obtain ⟨m₂, hremove, ps', H₂, -⟩ := removeInactiveProcesses_spec (s := s) ⟨_, H', rfl⟩ callbacks
    (show _ < fuel by simp only [List.length_map, List.length_append, marked]; omega)
  have hrefresh : ∃ log, processListRefresh m (some list) (some entries) callbacks fuel =
      some (.successRead, ⟨m₂, log⟩) := by
    simp only [processListRefresh, hmark, hrun, hremove, Option.bind_eq_bind, Option.bind_some]
    exact ⟨_, rfl⟩
  obtain ⟨log, hrefresh⟩ := hrefresh
  exact ⟨_, ps', hrefresh, H₂⟩

/-- The flag of a record after its reads: set by the last one, if any. -/
theorem isActive_rereads (ps : List (ℕ × Process)) (entries : List Entry) (q : ℕ × Process) :
    (rereads ps entries q).2.isActive =
      ((readsAt ps entries q.1).getLast?.map ReadOutcome.succeeded).getD q.2.isActive := by
  have hfold : ∀ (reads : List ReadOutcome) (p : Process),
      (reads.foldl (fun p read => p.reread read) p).isActive =
        (reads.getLast?.map ReadOutcome.succeeded).getD p.isActive := by
    intro reads
    induction reads with
    | nil => exact fun p => rfl
    | cons read reads ih =>
        intro p
        rw [List.foldl_cons, ih, List.getLast?_cons]
        cases reads.getLast? <;> rfl
  exact hfold _ _

/-- A record without a successful read ends up inactive. -/
theorem isActive_of_failed {entries : List Entry} {q : ℕ × Process}
    (h : ∀ read ∈ readsAt ps entries q.1, read.succeeded = false) :
    (rereads (marked ps) entries (q.1, q.2.deactivate)).2.isActive = false := by
  rw [isActive_rereads, readsAt_marked]
  cases hlast : (readsAt ps entries q.1).getLast? with
  | none => rfl
  | some read => exact h read (List.mem_of_getLast? hlast)

/-- Every record that was in the list is in it at the end, marked and then read. -/
theorem mem_rereads_marked (new : List (ℕ × Process)) (entries : List Entry) {q : ℕ × Process}
    (hq : q ∈ ps) : rereads (marked ps) entries (q.1, q.2.deactivate) ∈
      new ++ (marked ps).map (rereads (marked ps) entries) := by
  have hmarked : (q.1, q.2.deactivate) ∈ marked ps :=
    List.mem_map_of_mem (f := fun q => (q.1, q.2.deactivate)) hq
  exact List.mem_append_right _ (List.mem_map_of_mem hmarked)

/-- The refresh succeeds, or every process of the list is in it afterwards, with its flag unless
a read of it succeeded. -/
def LeavesKnown (m : Memory) (list : ℕ) (ps : List (ℕ × Process)) (dir : Option (List Entry))
    (callbacks : Callbacks) (fuel : ℕ) : Prop :=
  ∃ r s ps', processListRefresh m (some list) dir callbacks fuel = some (r, s) ∧
    Holds s.memory list ps' ∧
    (r ≠ .successRead → ∀ q ∈ ps, ∃ p, (q.1, p) ∈ ps' ∧ p.pid = q.2.pid ∧
      ((∀ read ∈ readsAt ps (reached ps (dir.getD [])) q.1, read.succeeded = false) →
        p.isActive = q.2.isActive))

/-- No entry ends the refresh, or every active process has been read again by then. -/
def FlagsKept (ps : List (ℕ × Process)) : Option (List Entry) → Prop
  | none => True
  | some entries =>
      reached ps entries = entries ∨
        ∀ q ∈ ps, q.2.isActive = true →
          ∃ read ∈ readsAt ps (reached ps entries) q.1, read.succeeded = true

/-- **When a failed refresh leaves the known processes as they were**: exactly when it fails
before it begins, or when every process with a set flag is read again before the entry that
makes it fail. -/
theorem leavesKnown_iff (H : Holds m list ps) (dir : Option (List Entry)) (callbacks : Callbacks)
    (hfuel : ps.length + (dir.getD []).length < fuel) :
    LeavesKnown m list ps dir callbacks fuel ↔ FlagsKept ps dir := by
  cases dir with
  | none =>
      refine iff_of_true ?_ trivial
      exact ⟨.errOpen, ⟨m, []⟩, ps, rfl, H, fun _ q hq => ⟨q.2, hq, rfl, fun _ => rfl⟩⟩
  | some entries =>
      rw [Option.getD_some] at hfuel
      by_cases hends : reached ps entries = entries
      · obtain ⟨s, ps', hrun, H'⟩ := processListRefresh_succeeds H entries callbacks hfuel hends
        exact iff_of_true ⟨_, s, ps', hrun, H', fun h => absurd rfl h⟩ (.inl hends)
      · obtain ⟨r, s, new, hrun, hr, H'⟩ :=
          processListRefresh_fails H entries callbacks hfuel hends
        have hmem := fun q (hq : q ∈ ps) => mem_rereads_marked new (reached ps entries) hq
        constructor
        · rintro ⟨r', s', ps', hrun', H'', hleaves⟩
          obtain ⟨rfl, rfl⟩ := Prod.mk.inj (Option.some.inj (hrun.symm.trans hrun'))
          refine .inr fun q hq hactive => ?_
          by_contra hnone
          have hfailed : ∀ read ∈ readsAt ps (reached ps entries) q.1, read.succeeded = false := by
            intro read hread
            by_contra hsucceeded
            exact hnone ⟨read, hread, by simpa using hsucceeded⟩
          obtain ⟨p, hp, -, hkept⟩ := hleaves hr q hq
          -- The record at this address is inactive.
          have hrec : s.memory.records q.1 = some (rereads (marked ps) (reached ps entries)
              (q.1, q.2.deactivate)).2 := H'.record _ (hmem q hq)
          obtain rfl := Option.some.inj ((H''.record _ hp).symm.trans hrec)
          rw [← hkept hfailed, isActive_of_failed hfailed] at hactive
          cases hactive
        · intro hkept
          refine ⟨r, s, _, hrun, H', fun _ q hq => ⟨_, hmem q hq, rereads_pid _ _ _, ?_⟩⟩
          intro hfailed
          have hinactive : q.2.isActive = false := by
            by_contra hactive
            obtain ⟨read, hread, hsucceeded⟩ :=
              hkept.resolve_left hends q hq (by simpa using hactive)
            rw [hfailed read hread] at hsucceeded
            cases hsucceeded
          rw [hinactive]
          exact isActive_of_failed hfailed

/-- A record of process 7. -/
def seven : Process := ⟨7, .zero, true⟩

/-- The entry of process 7, which is read. -/
def listed : Entry := ⟨[55], .success .zero, true, 1⟩

/-- The entry of process 8, for which there is no memory. -/
def memoryless : Entry := ⟨[56], .success .zero, false, 1⟩

/-- Process 7 is read before the refresh fails. -/
theorem leavesKnown_iff_seven : ∃ m ps,
    LeavesKnown m 0 ps (some [listed, memoryless]) ⟨true, true, true⟩ 9 := by
  obtain ⟨m, ps, H, hps⟩ := exists_stores [seven]
  obtain ⟨a, rfl⟩ : ∃ a, ps = [(a, seven)] := by
    obtain ⟨q, rfl, hq⟩ := List.map_eq_singleton_iff.mp hps
    exact ⟨q.1, by rw [← hq]⟩
  refine ⟨m, _, (leavesKnown_iff H _ _ (show 3 < 9 by decide)).mpr (.inr ?_)⟩
  intro q hq hactive
  obtain rfl := List.mem_singleton.mp hq
  have hreached : reached [(a, seven)] [listed, memoryless] = [listed] := rfl
  have hread : listed.readAt [(a, seven)] a = some (.success .zero) := by
    have hfinds : finds [(a, seven)] 7 = some a := rfl
    have hname : entryName listed.name = .process 7 := by decide
    rw [Entry.readAt, hname]
    exact if_pos hfinds
  rw [hreached]
  exact ⟨.success .zero, by simp [readsAt, hread], rfl⟩

/-- A refresh that fails at its first entry leaves process 7 inactive. -/
theorem flags_lost : ¬ ∀ (m : Memory) list ps dir callbacks fuel, Holds m list ps →
    ps.length + (dir.getD []).length < fuel → LeavesKnown m list ps dir callbacks fuel := by
  intro hall
  obtain ⟨m, ps, H, hps⟩ := exists_stores [seven]
  obtain ⟨a, rfl⟩ : ∃ a, ps = [(a, seven)] := by
    obtain ⟨q, rfl, hq⟩ := List.map_eq_singleton_iff.mp hps
    exact ⟨q.1, by rw [← hq]⟩
  have hreached : reached [(a, seven)] [memoryless] = [] := rfl
  obtain ⟨r, s, new, hrun, hr, H'⟩ := processListRefresh_fails H [memoryless] ⟨true, true, true⟩
    (show 2 < 9 by decide) (by rw [hreached]; simp)
  obtain ⟨r', s', ps', hrun', H'', hleaves⟩ :=
    hall m 0 _ (some [memoryless]) ⟨true, true, true⟩ 9 H (show 2 < 9 by decide)
  obtain ⟨rfl, rfl⟩ := Prod.mk.inj (Option.some.inj (hrun.symm.trans hrun'))
  obtain ⟨p, hp, -, hkept⟩ := hleaves hr (a, seven) List.mem_cons_self
  rw [Option.getD_some, hreached] at hkept
  rw [hreached] at H'
  have hrec : s.memory.records a = some seven.deactivate :=
    H'.record (a, seven.deactivate) (List.mem_append_right _ List.mem_cons_self)
  obtain rfl := Option.some.inj ((H''.record _ hp).symm.trans hrec)
  exact absurd (hkept fun read hread => absurd hread List.not_mem_nil) Bool.false_ne_true

end ProcessList
end Ctm
