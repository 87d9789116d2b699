import Ctm.Lib.Readings
import Ctm.Process.Refresh

/-!
# The result of a refresh

A refresh that reads the whole directory leaves the records whose last read succeeded:
first the processes that were not in the list, the latest found first, and then those that
were, in their old order.

## Main definitions

* `reads`, `discovered`, `kept` — what the directory says about each pid.
* `Scanned` — the table while the directory is read.
* `refresh_computes` — the table after a successful refresh.
-/

namespace Ctm
namespace ProcessList

/-- The calls of `process_read`, one for each name that is a number. -/
def reads (entries : List Entry) : List (Pid × ReadOutcome) :=
  entries.filterMap fun e => (pidOf e.name).map fun pid => (pid, e.read)

/-- The pids that were not listed, in the order they were first read successfully. -/
def discovered (old : List Pid) (done : List (Pid × ReadOutcome)) : List Pid :=
  Readings.newKeys old (done.filter fun r => r.2.succeeded)

/-- The record a read leaves, if it succeeds. -/
def recordOf (pid : Pid) : ReadOutcome → Option Process
  | .success data => some ⟨pid, data, true⟩
  | .failure _ _ _ => none

/-- The record of a pid whose last read succeeded. -/
def kept (done : List (Pid × ReadOutcome)) (pid : Pid) : Option Process :=
  (Readings.last done pid).bind (recordOf pid)

section Reads
variable {old : List Pid} {done : List (Pid × ReadOutcome)} {pid pid' : Pid} {read : ReadOutcome}

theorem kept_concat : kept (done ++ [(pid, read)]) pid' =
    if pid' = pid then recordOf pid read else kept done pid' := by
  rw [kept, Readings.last_concat]
  by_cases hpid : pid = pid'
  · rw [if_pos hpid, if_pos hpid.symm, hpid]
    rfl
  · rw [if_neg hpid, if_neg (Ne.symm hpid), kept]

theorem discovered_failure (hread : read.succeeded = false) :
    discovered old (done ++ [(pid, read)]) = discovered old done := by
  simp [discovered, hread]

/-- A successful read makes its pid new unless it is known. -/
theorem discovered_success (hread : read.succeeded = true) (hpid : pid ∉ old)
    (hnew : pid ∉ discovered old done) :
    discovered old (done ++ [(pid, read)]) = discovered old done ++ [pid] := by
  rw [discovered] at hnew
  simp only [discovered, List.filter_append, List.filter_cons, hread, if_true, List.filter_nil]
  rw [Readings.newKeys_concat, if_neg (not_or.mpr ⟨hpid, hnew⟩)]

/-- A read of a known pid makes no pid new. -/
theorem discovered_known (hpid : pid ∈ old ∨ pid ∈ discovered old done) :
    discovered old (done ++ [(pid, read)]) = discovered old done := by
  cases hread : read.succeeded with
  | false => exact discovered_failure hread
  | true =>
      rw [discovered] at hpid
      simp only [discovered, List.filter_append, List.filter_cons, hread, if_true, List.filter_nil]
      rw [Readings.newKeys_concat, if_pos hpid]

end Reads

namespace Table
variable {t : Table} {pid pid' : Pid} {read : ReadOutcome} {e : Entry}

/-- A read changes the first record of its pid only. -/
theorem lookup_update : (t.update pid read).lookup pid' =
    if pid' = pid then (t.lookup pid).map (Process.reread read) else t.lookup pid' := by
  induction t with
  | nil => simp [update, lookup]
  | cons p t ih =>
      simp only [lookup] at ih ⊢
      by_cases hp : p.pid = pid
      · subst hp
        by_cases hpid : pid' = p.pid
        · simp [update, hpid]
        · simp [update, hpid, Ne.symm hpid]
      · by_cases hpid : p.pid = pid'
        · subst hpid
          simp [update, hp]
        · simp [update, hp, hpid, ih]

end Table

/-- The table after the reads `done` of a refresh that began with the pids `old`. -/
structure Scanned (old : List Pid) (done : List (Pid × ReadOutcome)) (t : Table) : Prop where
  pids : t.pids = (discovered old done).reverse ++ old
  first : ∀ pid p, t.lookup pid = some p → kept done pid = if p.isActive then some p else none


namespace Scanned
variable {old : List Pid} {done : List (Pid × ReadOutcome)} {t t' : Table} {e : Entry}
  {pid : Pid} {events : List Event}

/-- No process is read when the refresh begins. -/
theorem start : Scanned t.pids [] (t.map Process.deactivate) where
  pids := Table.pids_deactivate
  first pid p hlookup := by
    obtain ⟨q, -, rfl⟩ := List.mem_map.mp (Table.mem_of_lookup hlookup).1
    rfl

theorem mem_pids (S : Scanned old done t) : pid ∈ t.pids ↔ pid ∈ old ∨ pid ∈ discovered old done := by
  rw [S.pids, List.mem_append, List.mem_reverse, or_comm]

/-- A read of a process of the table. -/
theorem update (S : Scanned old done t) {p : Process} (hp : t.lookup pid = some p)
    (read : ReadOutcome) : Scanned old (done ++ [(pid, read)]) (t.update pid read) where
  pids := by
    rw [Table.pids_update, S.pids, discovered_known]
    exact S.mem_pids.mp (Table.mem_pids_of_lookup hp)
  first pid' q hq := by
    rw [Table.lookup_update] at hq
    rw [kept_concat]
    by_cases hpid : pid' = pid
    · rw [if_pos hpid, hp, Option.map_some] at hq
      obtain rfl := Option.some.inj hq
      obtain rfl := (Table.mem_of_lookup hp).2
      rw [if_pos hpid]
      cases read with
      | success data => rfl
      | failure result errno partly => rfl
    · rw [if_neg hpid] at hq
      rw [if_neg hpid]
      exact S.first pid' q hq

/-- A read of a process that is not in the table. -/
theorem add (S : Scanned old done t) (hpid : pid ∉ t.pids)
    (hadd : t.add pid e = (none, events, t')) : Scanned old (done ++ [(pid, e.read)]) t' := by
  rw [Table.add] at hadd
  cases hok : e.callocOk with
  | false => simp [hok] at hadd
  | true =>
      simp only [hok, Bool.not_true, Bool.false_eq_true, if_false] at hadd
      cases hread : e.read with
      | success data =>
          simp only [hread, Prod.mk.injEq] at hadd
          obtain ⟨-, -, rfl⟩ := hadd
          refine ⟨?_, ?_⟩
          · obtain ⟨hold, hnew⟩ := not_or.mp (S.mem_pids.not.mp hpid)
            rw [discovered_success rfl hold hnew, List.reverse_concat, List.cons_append, ← S.pids]
            rfl
          · intro pid' q hq
            rw [kept_concat]
            by_cases hpid' : pid' = pid
            · subst hpid'
              rw [Table.lookup, List.find?_cons_of_pos (by simp)] at hq
              obtain rfl := Option.some.inj hq
              rw [if_pos rfl, recordOf, if_pos rfl]
            · rw [Table.lookup, List.find?_cons_of_neg (by simpa using Ne.symm hpid')] at hq
              rw [if_neg hpid']
              exact S.first pid' q hq
      | failure result errno partly =>
          simp only [hread, Prod.mk.injEq] at hadd
          obtain ⟨-, -, rfl⟩ := hadd
          refine ⟨?_, ?_⟩
          · rw [discovered_failure rfl, S.pids]
          · intro pid' q hq
            rw [kept_concat, if_neg, S.first pid' q hq]
            rintro rfl
            exact hpid (Table.mem_pids_of_lookup hq)

/-- An entry that does not end the refresh. -/
theorem entry (S : Scanned old done t) (hentry : t.entry e = (none, events, t')) :
    Scanned old (done ++ reads [e]) t' := by
  rw [Table.entry] at hentry
  cases hpid : pidOf e.name with
  | none =>
      simp only [hpid, Prod.mk.injEq] at hentry
      obtain ⟨-, -, rfl⟩ := hentry
      simpa [reads, hpid] using S
  | some pid =>
      have hreads : reads [e] = [(pid, e.read)] := by simp [reads, hpid]
      simp only [hpid, Table.process] at hentry
      rw [hreads]
      cases hlookup : t.lookup pid with
      | some p =>
          simp only [hlookup, Prod.mk.injEq] at hentry
          obtain ⟨-, -, rfl⟩ := hentry
          exact S.update hlookup e.read
      | none =>
          simp only [hlookup] at hentry
          exact S.add (Table.lookup_eq_none.mp hlookup) hentry

/-- A directory that is read to its end. -/
theorem scan {es : List Entry} (S : Scanned old done t) (hscan : (t.scan es).1 = none) :
    Scanned old (done ++ reads es) (t.scan es).2.2 := by
  induction es generalizing t done with
  | nil => simpa [reads, Table.scan] using S
  | cons e es ih =>
      have hreads : reads (e :: es) = reads [e] ++ reads es := by
        rw [reads, ← List.singleton_append, List.filterMap_append]
        rfl
      rcases hr : t.entry e with ⟨r, events, t'⟩
      cases r with
      | some r => simp [Table.scan, hr] at hscan
      | none =>
          simp only [Table.scan, hr] at hscan ⊢
          rw [hreads, ← List.append_assoc]
          exact ih (S.entry hr) hscan

theorem nodup_pids (S : Scanned old done t) (hold : old.Nodup) : t.pids.Nodup := by
  rw [S.pids]
  exact Readings.nodup_newKeys hold

/-- The active records, when the pids are distinct. -/
theorem active (S : Scanned old done t) (hold : old.Nodup) :
    t.active = ((discovered old done).reverse ++ old).filterMap (kept done) := by
  have hnodup := S.nodup_pids hold
  have hkept : ∀ p ∈ t, kept done p.pid = if p.isActive then some p else none := by
    intro p hp
    refine S.first p.pid p ?_
    cases hlookup : t.lookup p.pid with
    | none => exact absurd (List.mem_map_of_mem hp) (Table.lookup_eq_none.mp hlookup)
    | some q =>
        obtain ⟨hq, hqp⟩ := Table.mem_of_lookup hlookup
        rw [List.inj_on_of_nodup_map hnodup hq hp hqp]
  rw [← S.pids, Table.pids, List.filterMap_map, Table.active, ← List.filterMap_eq_filter]
  refine List.filterMap_congr fun p hp => ?_
  rw [Function.comp_apply, hkept p hp]
  rfl

end Scanned

/-! ## A refresh that reads the whole directory -/

variable {m : Memory} {list fuel : ℕ} {t : Table}

/-- The counter of a list of distinct pids. -/
theorem Stores.listCount (H : Stores m list t) (hpids : t.pids.Nodup) :
    m.heap.listCount list = some t.length := by
  obtain ⟨ps, H, rfl⟩ := H
  obtain ⟨cell, hlist⟩ := H.isList
  have hlength := length_le_of_nodup hpids
  rw [Table.pids, List.length_map] at hlength
  rw [hlist.listCount List.mem_cons_self, List.length_map, Nat.mod_eq_of_lt, List.length_map]
  calc ps.length = (ps.map Prod.snd).length := (List.length_map _).symm
    _ ≤ 2 ^ 32 := hlength
    _ < sizeMod := Nat.pow_lt_pow_right (by decide) (by decide)

namespace Table

/-- Only an internal error ends the loop over the directory. -/
theorem entry_result {e : Entry} {r : ProcessResult} (h : (t.entry e).1 = some r) :
    r = .errInternal := by
  rw [entry] at h
  cases hpid : pidOf e.name with
  | none => simp [hpid] at h
  | some pid =>
      simp only [hpid, process] at h
      cases hlookup : t.lookup pid with
      | some p => simp [hlookup] at h
      | none =>
          simp only [hlookup, add] at h
          cases hok : e.callocOk with
          | false => simpa [hok, eq_comm] using h
          | true =>
              cases hread : e.read with
              | success data => simp [hok, hread] at h
              | failure result errno partly =>
                  by_cases herrno : errno = .ENOENT
                  · simp [hok, hread, herrno] at h
                  · simpa [hok, hread, herrno, eq_comm] using h

theorem scan_result {es : List Entry} {r : ProcessResult} (h : (t.scan es).1 = some r) :
    r = .errInternal := by
  induction es generalizing t with
  | nil => cases h
  | cons e es ih =>
      have hentry := entry_result (t := t) (e := e) (r := r)
      rcases hr : t.entry e with ⟨r', events, t'⟩
      rw [hr] at hentry
      simp only [scan, hr] at h
      cases r' with
      | some r' => exact hentry h
      | none => exact ih h

/-- A refresh is successful when the loop reads the whole directory. -/
theorem refresh_success_iff {entries : List Entry} :
    (t.refresh (some entries)).1 = .successRead ↔
      (scan (t.map Process.deactivate) entries).1 = none := by
  simp only [refresh]
  rcases hr : scan (t.map Process.deactivate) entries with ⟨r, events, t'⟩
  cases r with
  | some r =>
      obtain rfl := scan_result (congrArg Prod.fst hr)
      simp
  | none => simp

/-- The table is then what the sweep leaves. -/
theorem refresh_active {entries : List Entry}
    (h : (scan (t.map Process.deactivate) entries).1 = none) :
    (t.refresh (some entries)).2.2 = (scan (t.map Process.deactivate) entries).2.2.active := by
  simp only [refresh]
  rcases hr : scan (t.map Process.deactivate) entries with ⟨r, events, t'⟩
  rw [hr] at h
  obtain rfl : r = none := h
  rfl

end Table

/-- **A successful refresh computes the new table**: the pids that were not listed, the
latest found first, and then those that were, as far as their last read succeeded, each
with the data of that read. -/
theorem refresh_computes {dir : Option (List Entry)} (H : Stores m list t)
    (hpids : t.pids.Nodup) (callbacks : Callbacks)
    (hnames : ∀ e ∈ dir.getD [], ValidName e.name)
    (hfuel : t.length + (dir.getD []).length < fuel) :
    ∃ result s t', processListRefresh m (some list) dir callbacks fuel = some (result, s) ∧
      Stores s.memory list t' ∧
      (result = .successRead →
        t' = ((discovered t.pids (reads (dir.getD []))).reverse ++ t.pids).filterMap
          (kept (reads (dir.getD []))) ∧
        t'.pids.Nodup ∧ s.memory.heap.listCount list = some t'.length) := by
  obtain ⟨m', hrun, H'⟩ := processListRefresh_spec H dir callbacks hnames hfuel
  refine ⟨_, _, _, hrun, H', fun hresult => ?_⟩
  cases dir with
  | none => cases hresult
  | some entries =>
      have hscan := Table.refresh_success_iff.mp hresult
      have hactive := (Scanned.start.scan hscan).active hpids
      rw [List.nil_append] at hactive
      rw [Table.refresh_active hscan] at H' ⊢
      have hnodup : (Table.active _).pids.Nodup :=
        ((Scanned.start.scan hscan).nodup_pids hpids).sublist (List.filter_sublist.map _)
      exact ⟨hactive, hnodup, H'.listCount hnodup⟩

/-- A directory for two listed processes. -/
def twoListed : List Entry :=
  [⟨[55], .success .zero, true, 5⟩,
    ⟨[57], .failure ⟨_, ProcessResult.errReadFile_ne⟩ .ESRCH id, true, 5⟩,
    ⟨[46, 46], .success .zero, true, 5⟩,
    ⟨[55], .success { ProcessData.zero with utime := 1 }, true, 5⟩]

/-- Of the two processes listed one fails to be read and the other is not read; a new one is
read twice, and a name is no number. -/
theorem refresh_computes_two : ∃ m s, Stores m 0 [⟨8, .zero, true⟩, ⟨9, .zero, true⟩] ∧
    processListRefresh m (some 0) (some twoListed) ⟨true, false, true⟩ 9 =
      some (.successRead, s) ∧
    Stores s.memory 0 [⟨7, { ProcessData.zero with utime := 1 }, true⟩] ∧
    s.memory.heap.listCount 0 = some 1 := by
  obtain ⟨m, H⟩ := exists_stores [⟨8, .zero, true⟩, ⟨9, .zero, true⟩]
  have hnames : ∀ e ∈ (some twoListed).getD [], ValidName e.name := by decide
  obtain ⟨result, s, t', hrun, H', hresult⟩ :=
    refresh_computes H (by decide) ⟨true, false, true⟩ hnames (show _ < 9 by decide)
  obtain ⟨m', hrun', -⟩ :=
    processListRefresh_spec H (some twoListed) ⟨true, false, true⟩ hnames (show _ < 9 by decide)
  obtain rfl : result = .successRead :=
    congrArg Prod.fst (Option.some.inj (hrun.symm.trans hrun'))
  obtain ⟨ht', -, hcount⟩ := hresult rfl
  have hkept : ((discovered [8, 9] (reads twoListed)).reverse ++ [8, 9]).filterMap
      (kept (reads twoListed)) = [⟨7, { ProcessData.zero with utime := 1 }, true⟩] := rfl
  obtain rfl := ht'.trans hkept
  exact ⟨m, s, H, hrun, H', hcount⟩

end ProcessList
end Ctm
