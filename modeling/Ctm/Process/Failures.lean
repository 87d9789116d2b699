import Ctm.Process.Result

/-!
# Failed reads

A refresh ends early when a process that is not in the list cannot be read, unless the
failed read leaves `ENOENT`.  Failed reads of processes of the list are tolerated.

## Main definitions

* `Tolerated` — the failures after which the refresh goes on.
* `Survives` — the refresh is not spoiled by the failures.
* `survives_iff_tolerated` — when it survives.
-/

namespace Ctm
namespace ProcessList

variable {m : Memory} {list fuel : ℕ} {t : Table}

/-- Every failed read is of a pid that is known by then, listed before or read successfully
since, or it leaves `ENOENT`. -/
def Tolerated : List Pid → List (Pid × ReadOutcome) → Prop
  | _, [] => True
  | known, (pid, .success _) :: rs => Tolerated (pid :: known) rs
  | known, (pid, .failure _ errno _) :: rs =>
      (pid ∈ known ∨ errno = .ENOENT) ∧ Tolerated known rs

/-- The refresh succeeds, and every pid whose last read succeeded is in the list and active. -/
def Survives (m : Memory) (list : ℕ) (entries : List Entry) (callbacks : Callbacks)
    (fuel : ℕ) : Prop :=
  ∃ s t', processListRefresh m (some list) (some entries) callbacks fuel =
      some (.successRead, s) ∧
    Stores s.memory list t' ∧
    ∀ pid data, Readings.last (reads entries) pid = some (.success data) →
      ∃ p ∈ t', p.pid = pid ∧ p.isActive = true

namespace Table

/-- An entry for a pid goes on to the next one when the pid is known or its failure forgiven. -/
theorem process_eq_none_iff (pid : Pid) {e : Entry} (hok : e.callocOk = true) :
    (t.process pid e).1 = none ↔ pid ∈ t.pids ∨
      ∀ result errno partly, e.read = .failure result errno partly → errno = .ENOENT := by
  rw [process]
  cases hlookup : t.lookup pid with
  | some p => simp [mem_pids_of_lookup hlookup]
  | none =>
      rw [or_iff_right (lookup_eq_none.mp hlookup)]
      cases hread : e.read with
      | success data => simp [add, hok, hread]
      | failure result errno partly =>
          by_cases herrno : errno = .ENOENT
          · simp [add, hok, hread, herrno]
          · simp [add, hok, hread, herrno]

/-- A successful read makes its pid known. -/
theorem mem_pids_process (pid pid' : Pid) {e : Entry} (hok : e.callocOk = true) :
    pid' ∈ (t.process pid e).2.2.pids ↔
      pid' ∈ t.pids ∨ (e.read.succeeded = true ∧ pid' = pid) := by
  rw [process]
  cases hlookup : t.lookup pid with
  | some p =>
      simp only [pids_update]
      constructor
      · exact .inl
      · rintro (hpid | ⟨-, rfl⟩)
        · exact hpid
        · exact mem_pids_of_lookup hlookup
  | none =>
      cases hread : e.read with
      | success data => simp [add, hok, hread, ReadOutcome.succeeded, or_comm]
      | failure result errno partly => simp [add, hok, hread, ReadOutcome.succeeded]

/-- The loop over the directory reaches its end when the failures are tolerated. -/
theorem scan_eq_none_iff {known : List Pid} {es : List Entry}
    (hknown : ∀ pid, pid ∈ t.pids ↔ pid ∈ known) (hok : ∀ e ∈ es, e.callocOk = true) :
    (t.scan es).1 = none ↔ Tolerated known (reads es) := by
  induction es generalizing t known with
  | nil => simp [scan, reads, Tolerated]
  | cons e es ih =>
      have hok' : ∀ e ∈ es, e.callocOk = true := fun e' he' => hok e' (List.mem_cons_of_mem _ he')
      cases hpid : pidOf e.name with
      | none =>
          have hreads : reads (e :: es) = reads es := by simp [reads, hpid]
          simp only [scan, entry, hpid, hreads]
          exact ih hknown hok'
      | some pid =>
          have hreads : reads (e :: es) = (pid, e.read) :: reads es := by simp [reads, hpid]
          have hnone := process_eq_none_iff (t := t) pid (hok e List.mem_cons_self)
          have hpids := fun pid' => mem_pids_process (t := t) pid pid' (hok e List.mem_cons_self)
          rw [hreads]
          simp only [scan, entry, hpid]
          rcases hr : t.process pid e with ⟨r, events, t'⟩
          simp only [hr, hknown] at hnone hpids
          cases hread : e.read with
          | success data =>
              obtain rfl : r = none := hnone.mpr (.inr (by simp [hread]))
              refine ih (fun pid' => ?_) hok'
              simp [hpids, hread, ReadOutcome.succeeded, or_comm]
          | failure result errno partly =>
              rw [Tolerated]
              cases r with
              | none =>
                  have hforgiven : pid ∈ known ∨ errno = .ENOENT :=
                    (hnone.mp rfl).imp_right fun h => h result errno partly hread
                  rw [and_iff_right hforgiven]
                  exact ih (by simp [hpids, hread, ReadOutcome.succeeded]) hok'
              | some r =>
                  have hends : ¬ (pid ∈ known ∨ errno = .ENOENT) := by
                    simpa [hread] using hnone
                  simp [hends]

end Table

/-- A pid whose last read succeeded is in the table, and active. -/
theorem Scanned.exists_active {old : List Pid} {done : List (Pid × ReadOutcome)}
    (S : Scanned old done t) {pid : Pid} {data : ProcessData}
    (hlast : Readings.last done pid = some (.success data)) :
    ∃ p ∈ t.active, p.pid = pid ∧ p.isActive = true := by
  have hread : (pid, .success data) ∈ done.filter fun r => r.2.succeeded :=
    List.mem_filter.mpr ⟨Readings.mem_of_last hlast, rfl⟩
  have hpid : pid ∈ t.pids := by
    rw [S.mem_pids]
    by_cases hold : pid ∈ old
    · exact .inl hold
    · exact .inr (Readings.mem_newKeys.mpr ⟨hold, _, hread⟩)
  cases hlookup : t.lookup pid with
  | none => exact absurd hpid (Table.lookup_eq_none.mp hlookup)
  | some p =>
      obtain ⟨hp, hppid⟩ := Table.mem_of_lookup hlookup
      have hkept : kept done pid = some ⟨pid, data, true⟩ := by
        rw [kept, hlast]
        rfl
      have hfirst := S.first pid p hlookup
      have hactive : p.isActive = true := by
        by_contra hinactive
        rw [hkept, if_neg hinactive] at hfirst
        cases hfirst
      exact ⟨p, List.mem_filter.mpr ⟨hp, hactive⟩, hppid, hactive⟩

/-- **When a failed read spoils no refresh.**  The directory can be opened and allocation
succeeds: the refresh survives exactly when every failed read is tolerated. -/
theorem survives_iff_tolerated {entries : List Entry} (H : Stores m list t)
    (callbacks : Callbacks) (hnames : ∀ e ∈ entries, ValidName e.name)
    (hok : ∀ e ∈ entries, e.callocOk = true) (hfuel : t.length + entries.length < fuel) :
    Survives m list entries callbacks fuel ↔ Tolerated t.pids (reads entries) := by
  have hscan := Table.scan_eq_none_iff (t := t.map Process.deactivate)
    (fun pid => by rw [Table.pids_deactivate]) hok
  obtain ⟨m', hrun, H'⟩ := processListRefresh_spec H (some entries) callbacks hnames hfuel
  constructor
  · rintro ⟨s, t', hrun', -, -⟩
    rw [hrun, Option.some.injEq, Prod.mk.injEq] at hrun'
    exact hscan.mp (Table.refresh_success_iff.mp hrun'.1)
  · intro htolerated
    have hnone := hscan.mpr htolerated
    rw [Table.refresh_success_iff.mpr hnone] at hrun
    refine ⟨_, _, hrun, H', fun pid data hlast => ?_⟩
    rw [Table.refresh_active hnone]
    exact (Scanned.start.scan hnone).exists_active hlast

/-- A new process that is gone before it is read, and a listed one that cannot be read. -/
theorem survives_iff_tolerated_two : ∃ m, Stores m 0 [⟨9, .zero, true⟩] ∧
    Survives m 0 [⟨[55], .failure ⟨.successNotFound, by decide⟩ .ENOENT id, true, 1⟩,
      ⟨[57], .failure ⟨.errParseFile, by decide⟩ .clear id, true, 1⟩,
      ⟨[56], .success .zero, true, 1⟩] ⟨true, true, true⟩ 9 := by
  obtain ⟨m, H⟩ := exists_stores [⟨9, .zero, true⟩]
  refine ⟨m, H, (survives_iff_tolerated H _ (by decide) (by decide) (by decide)).mpr ?_⟩
  exact ⟨.inr rfl, .inl (by decide), trivial⟩

/-- A new process whose file was opened but could no longer be read. -/
def dying : List Entry :=
  [⟨[55], .failure ⟨_, ProcessResult.errReadFile_ne⟩ .ESRCH id, true, 1⟩,
    ⟨[56], .success .zero, true, 1⟩]

/-- A new process that dies while it is read ends the refresh. -/
theorem refresh_spoiled : ¬ ∀ (m : Memory) (list fuel : ℕ) (t : Table) (entries : List Entry)
    (callbacks : Callbacks), Stores m list t → (∀ e ∈ entries, ValidName e.name) →
      (∀ e ∈ entries, e.callocOk = true) → t.length + entries.length < fuel →
      Survives m list entries callbacks fuel := by
  intro hall
  obtain ⟨m, H⟩ := exists_stores []
  obtain ⟨s, t', hrun, -⟩ := hall m 0 9 [] dying ⟨true, true, true⟩ H (by decide) (by decide)
    (by decide)
  obtain ⟨m', hrun', -⟩ := processListRefresh_spec H (some dying) ⟨true, true, true⟩
    (show ∀ e ∈ dying, ValidName e.name by decide) (show [].length + dying.length < 9 by decide)
  rw [hrun', Option.some.injEq, Prod.mk.injEq] at hrun
  have hresult : (Table.refresh [] (some dying)).1 = .errInternal := by decide
  rw [hresult] at hrun
  cases hrun.1

end ProcessList
end Ctm
