import Ctm.Process.Records

/-!
# A refresh of the list is a refresh of the table

The loop of `process_list_refresh` and the whole function do to the memory what
`Table.refresh` does to the table it holds, with the same result and the same callbacks.

## Main definitions

* `entryName_eq` — the names the loop reads.
* `refreshEntry_spec`, `refreshEntries_spec` — one entry, and the directory.
* `processListRefresh_spec` — the refresh.
-/

namespace Ctm
namespace ProcessList

/-! ## Names -/

section Names
variable {name : List UInt8} {pid : Pid}

theorem pidOf_ne_zero (h : ValidName name) (hpid : pidOf name = some pid) : pid ≠ 0 := by
  rw [pidOf] at hpid
  by_cases hname : name ≠ [] ∧ name.all isdigit
  · rw [if_pos hname] at hpid
    obtain ⟨hpos, hlt⟩ := h hname
    rintro rfl
    have hzero := congrArg BitVec.toNat (Option.some.inj hpid)
    rw [BitVec.toNat_ofNat, Nat.mod_eq_of_lt hlt] at hzero
    change decimal name = 0 at hzero
    omega
  · rw [if_neg hname] at hpid
    cases hpid

/-- The loop reads every name as the number it is. -/
theorem entryName_eq (h : ValidName name) : entryName name =
    match pidOf name with
    | none => .skip
    | some pid => .process pid := by
  cases name with
  | nil => rfl
  | cons c s =>
      cases hc : isdigit c with
      | false => simp [entryName, pidOf, hc]
      | true =>
          have hpid : pidOf (c :: s) =
              if s.all isdigit then some (BitVec.ofNat 32 (decimal (c :: s))) else none := by
            simp [pidOf, hc]
          cases hs : s.all isdigit with
          | false =>
              have hrest : (strtol (c :: s)).2.1 ≠ [] := by
                intro hnil
                rw [strtol_rest hc, List.dropWhile_eq_nil_iff, ← List.all_eq_true, hs] at hnil
                cases hnil
              simp [entryName, hc, hpid, hs, hrest]
          | true =>
              obtain ⟨hpos, hlt⟩ := h ⟨List.cons_ne_nil _ _, by simp [hc, hs]⟩
              have hlong : (decimal (c :: s) : ℤ) < longMax := by
                rw [longMax]
                omega
              have hmin : (decimal (c :: s) : ℤ) ≠ longMin := by
                rw [longMin]
                omega
              have hzero : decimal (c :: s) ≠ 0 := by omega
              simp [entryName, hc, hpid, hs, strtol_of_digits hc hs hlong.le, hlong.ne, hmin, hzero]

end Names

/-! ## The loop over the directory -/

variable {m : Memory} {list fuel : ℕ} {t : Table}

/-- Callbacks called before come first. -/
theorem Yields.log_append {R : Type} {callbacks : Callbacks} {log events : List Event}
    {x : Option (R × Refresh)} {r : R × List Event × Table}
    (h : Yields list callbacks (log ++ events.filter callbacks.wants) x r) :
    Yields list callbacks log x (r.1, events ++ r.2.1, r.2.2) := by
  obtain ⟨m', hx, H⟩ := h
  refine ⟨m', ?_, H⟩
  rw [hx, List.append_assoc, ← List.filter_append]

/-- One entry. -/
theorem refreshEntry_spec {s : Refresh} {e : Entry} (H : Stores s.memory list t)
    (callbacks : Callbacks) (hname : ValidName e.name) (hfuel : t.length < fuel) :
    Yields list callbacks s.log (refreshEntry list callbacks fuel s e) (t.entry e) := by
  rw [refreshEntry, entryName_eq hname, Table.entry]
  cases hpid : pidOf e.name with
  | none => exact ⟨s.memory, by simp, H⟩
  | some pid =>
      obtain ⟨ps, H₁, rfl⟩ := H
      rcases findProcessByPid_spec H₁ (pidOf_ne_zero hname hpid) (by simpa using hfuel) with
        ⟨l₁, a, p, l₂, rfl, hp, hl₁, hfind⟩ | ⟨hps, hfind⟩
      · obtain ⟨m', hupdate, H'⟩ := updateProcess_spec H₁ callbacks e.read
        have hfirst : ∀ q ∈ l₁.map Prod.snd, q.pid ≠ pid := by
          intro q hq
          obtain ⟨q', hq', rfl⟩ := List.mem_map.mp hq
          exact hl₁ q' hq'
        simp only [hfind, hupdate, Option.bind_eq_bind, Option.bind_some, List.map_append,
          List.map_cons, Table.process_append hfirst hp]
        exact ⟨m', rfl, _, H', by simp⟩
      · have hnone : ∀ q ∈ ps.map Prod.snd, q.pid ≠ pid := by
          intro q hq
          obtain ⟨q', hq', rfl⟩ := List.mem_map.mp hq
          exact hps q' hq'
        simp only [hfind, Table.process_of_notMem hnone, Option.bind_eq_bind, Option.bind_some]
        exact addProcess_spec ⟨ps, H₁, rfl⟩ callbacks pid e

/-- The entries, up to one that ends the refresh. -/
theorem refreshEntries_spec {s : Refresh} {entries : List Entry} (H : Stores s.memory list t)
    (callbacks : Callbacks) (hnames : ∀ e ∈ entries, ValidName e.name)
    (hfuel : t.length + entries.length ≤ fuel) :
    Yields list callbacks s.log (refreshEntries list callbacks fuel s entries)
      (t.scan entries) := by
  induction entries generalizing s t with
  | nil => exact ⟨s.memory, by simp [refreshEntries, Table.scan], H⟩
  | cons e es ih =>
      rw [List.length_cons] at hfuel
      have hlength : (t.entry e).2.2.length ≤ t.length + 1 := Table.length_entry
      obtain ⟨m', hentry, H'⟩ := refreshEntry_spec H callbacks (hnames e List.mem_cons_self)
        (show t.length < fuel by omega)
      rcases hr : t.entry e with ⟨r, events, t'⟩
      rw [hr] at hentry H' hlength
      simp only [refreshEntries, Table.scan, hr, hentry, Option.bind_eq_bind, Option.bind_some]
      cases r with
      | some r => exact ⟨m', rfl, H'⟩
      | none =>
          simp only at hlength
          exact (ih (s := ⟨m', _⟩) (t := t') H' (fun e' he' => hnames e' (List.mem_cons_of_mem _ he'))
            (by omega)).log_append

/-- **`process_list_refresh` is the refresh of the table**: the same result, the same calls of
the callbacks that are not NULL, and the same records, front to back. -/
theorem processListRefresh_spec (H : Stores m list t) (dir : Option (List Entry))
    (callbacks : Callbacks) (hnames : ∀ e ∈ dir.getD [], ValidName e.name)
    (hfuel : t.length + (dir.getD []).length < fuel) :
    Yields list callbacks [] (processListRefresh m (some list) dir callbacks fuel)
      (t.refresh dir) := by
  cases dir with
  | none => exact ⟨m, rfl, H⟩
  | some entries =>
      obtain ⟨ps, H₁, rfl⟩ := H
      rw [List.length_map] at hfuel
      simp only [Option.getD_some] at hnames hfuel
      obtain ⟨m₁, hmark, H₁⟩ := markProcessesInactive_spec H₁ (show ps.length < fuel by omega)
      have hstores : Stores m₁ list ((ps.map Prod.snd).map Process.deactivate) :=
        ⟨_, H₁, by simp [Function.comp_def]⟩
      have hscan := Table.length_scan (t := (ps.map Prod.snd).map Process.deactivate) entries
      obtain ⟨m₂, hentries, H₂⟩ := refreshEntries_spec (s := ⟨m₁, []⟩) hstores callbacks hnames
        (show _ ≤ fuel by simp; omega)
      simp only [processListRefresh, hmark, hentries, Table.refresh, Option.bind_eq_bind,
        Option.bind_some]
      rcases hr : Table.scan ((ps.map Prod.snd).map Process.deactivate) entries with ⟨r, events, t'⟩
      rw [hr] at H₂ hscan
      cases r with
      | some r => exact ⟨m₂, rfl, H₂⟩
      | none =>
          simp only [List.length_map] at hscan
          obtain ⟨m₃, hremove, H₃⟩ := removeInactiveProcesses_spec
            (s := ⟨m₂, [] ++ events.filter callbacks.wants⟩) H₂ callbacks
            (show t'.length < fuel by omega)
          simp only [hremove, Option.bind_some]
          exact ⟨m₃, by simp, H₃⟩

end ProcessList
end Ctm
