import Ctm.Process.Accessors
import Ctm.Process.ChangeLog
import Ctm.Process.Result

/-!
# What the callbacks of a refresh are called with

When the directory lists no process twice, each record that is read is announced once, with
the very record that is then in the list, and each record that goes is announced once more.

## Main definitions

* `listedPids` — the pids of a directory.
* `Table.scan_announces` — the loop over the directory.
* `refresh_announces` — a refresh that is successful.
-/

namespace Ctm
namespace ProcessList

/-- The pids of the entries that are processes. -/
def listedPids (entries : List Entry) : List Pid := entries.filterMap fun e => pidOf e.name

/-- The callback for a record that was read, when the list held the pids `known`. -/
def announce (known : List Pid) (p : Process) : Event :=
  if p.pid ∈ known then .updated p else .added p

/-- With all three callbacks every event is one. -/
theorem filter_wants_all (events : List Event) :
    events.filter (Callbacks.wants ⟨true, true, true⟩) = events := by
  rw [List.filter_eq_self]
  intro e _
  cases e with
  | added p => rfl
  | updated p => rfl
  | removed p => rfl

variable {t : Table}

namespace Table
variable {e : Entry} {es : List Entry} {later known : List Pid}

/-- A process that is still to be listed is not active, and known if it is in the table. -/
structure Ahead (t : Table) (known later : List Pid) : Prop where
  idle : ∀ p ∈ t, p.isActive = true → p.pid ∉ later
  mem_known : ∀ pid ∈ later, pid ∈ known ↔ pid ∈ t.pids

theorem Ahead.mono {later' : List Pid} (h : Ahead t known later) (hsub : later' ⊆ later) :
    Ahead t known later' where
  idle p hp hactive hpid := h.idle p hp hactive (hsub hpid)
  mem_known pid hpid := h.mem_known pid (hsub hpid)

theorem ahead_deactivate (t : Table) (later : List Pid) :
    Ahead (t.map Process.deactivate) t.pids later where
  idle p hp hactive := by
    obtain ⟨q, -, rfl⟩ := List.mem_map.mp hp
    cases hactive
  mem_known pid _ := by rw [pids_deactivate]

/-- One entry: what is announced and what was active is what is active afterwards, and no
record becomes inactive. -/
theorem entry_announces (h : Ahead t known (listedPids [e] ++ later))
    (hnodup : (listedPids [e] ++ later).Nodup) :
    ((t.entry e).2.1 ++ t.active.map (announce known)).Perm
        ((t.entry e).2.2.active.map (announce known)) ∧
      (t.entry e).2.2.inactive.pids.Sublist t.inactive.pids ∧
      Ahead (t.entry e).2.2 known later := by
  rw [entry]
  cases hpid : pidOf e.name with
  | none =>
      have hmono : Ahead t known later := h.mono (List.subset_append_right _ _)
      exact ⟨List.Perm.refl _, List.Sublist.refl _, hmono⟩
  | some pid =>
      have hlisted : listedPids [e] = [pid] := by simp [listedPids, hpid]
      rw [hlisted, List.singleton_append] at h hnodup
      have hnew : pid ∉ later := (List.nodup_cons.mp hnodup).1
      have hrest : Ahead t known later := h.mono (List.subset_cons_self _ _)
      have hknown : pid ∈ known ↔ pid ∈ t.pids := h.mem_known pid List.mem_cons_self
      simp only
      by_cases hmem : ∀ q ∈ t, q.pid ≠ pid
      · rw [process_of_notMem hmem, add]
        cases e.callocOk with
        | false => exact ⟨List.Perm.refl _, List.Sublist.refl _, hrest⟩
        | true =>
            cases e.read with
            | failure result errno partly => exact ⟨List.Perm.refl _, List.Sublist.refl _, hrest⟩
            | success data =>
                have hnot : pid ∉ known := by
                  rw [hknown]
                  intro hin
                  obtain ⟨q, hq, hqpid⟩ := List.mem_map.mp hin
                  exact hmem q hq hqpid
                refine ⟨?_, List.Sublist.refl _, ?_, ?_⟩
                · simp [active, announce, hnot]
                · intro p hp hactive
                  rcases List.mem_cons.mp hp with rfl | hp
                  · exact hnew
                  · exact hrest.idle p hp hactive
                · intro pid' hpid'
                  have hne : pid' ≠ pid := fun heq => hnew (heq ▸ hpid')
                  simp [hrest.mem_known pid' hpid', hne]
      · -- The first record of the pid is inactive before it is read.
        push Not at hmem
        obtain ⟨p, l₁, l₂, hp, ht, hl₁⟩ : ∃ p l₁ l₂, p.pid = pid ∧ t = l₁ ++ p :: l₂ ∧
            ∀ q ∈ l₁, q.pid ≠ pid := by
          obtain ⟨q, hq, hqpid⟩ := hmem
          cases hlookup : t.lookup pid with
          | none => exact absurd (List.mem_map_of_mem hq) (hqpid ▸ lookup_eq_none.mp hlookup)
          | some p =>
              obtain ⟨hfound, l₁, l₂, ht, hl₁⟩ := List.find?_eq_some_iff_append.mp hlookup
              exact ⟨p, l₁, l₂, by simpa using hfound, ht, by simpa using hl₁⟩
        subst ht
        have hinactive : p.isActive = false := by
          by_contra hactive
          exact h.idle p (by simp) (by simpa using hactive) (by simp [hp])
        have hin : pid ∈ known := hknown.mpr (by simp [pids, hp])
        have hahead : Ahead (l₁ ++ p.reread e.read :: l₂) known later := by
          refine ⟨?_, ?_⟩
          · intro q hq hactive
            simp only [List.mem_append, List.mem_cons] at hq
            rcases hq with hq | rfl | hq
            · exact hrest.idle q (by simp [hq]) hactive
            · rwa [Process.pid_reread, hp]
            · exact hrest.idle q (by simp [hq]) hactive
          · intro pid' hpid'
            rw [hrest.mem_known pid' hpid']
            simp [Table.pids]
        rw [process_append hl₁ hp]
        cases hread : e.read.succeeded with
        | false =>
            have hreread : (p.reread e.read).isActive = false := hread
            refine ⟨?_, ?_, hahead⟩
            · simp [active, hinactive, hreread]
            · simp [inactive, hinactive, hreread, Table.pids]
        | true =>
            have hreread : (p.reread e.read).isActive = true := hread
            refine ⟨?_, ?_, hahead⟩
            · simpa [active, hinactive, hreread, announce, hp, hin] using List.perm_middle.symm
            · simp [inactive, hinactive, hreread, Table.pids]

/-- The loop over the directory. -/
theorem scan_announces (h : Ahead t known (listedPids es)) (hnodup : (listedPids es).Nodup) :
    ((t.scan es).2.1 ++ t.active.map (announce known)).Perm
        ((t.scan es).2.2.active.map (announce known)) ∧
      (t.scan es).2.2.inactive.pids.Sublist t.inactive.pids := by
  induction es generalizing t with
  | nil => exact ⟨List.Perm.refl _, List.Sublist.refl _⟩
  | cons e es ih =>
      have hlisted : listedPids (e :: es) = listedPids [e] ++ listedPids es := by
        rw [listedPids, ← List.singleton_append, List.filterMap_append]
        rfl
      rw [hlisted] at h hnodup
      obtain ⟨hperm, hsub, hahead⟩ := entry_announces h hnodup
      rcases hr : t.entry e with ⟨r, events, t'⟩
      rw [hr] at hperm hsub hahead
      cases r with
      | some r =>
          simp only [scan, hr]
          exact ⟨hperm, hsub⟩
      | none =>
          obtain ⟨hperm', hsub'⟩ := ih hahead (List.nodup_append.mp hnodup).2.1
          simp only [scan, hr]
          refine ⟨?_, hsub'.trans hsub⟩
          rw [List.append_assoc]
          exact (List.perm_append_comm_assoc _ _ _).trans ((hperm.append_left _).trans hperm')

/-- What is in a table is active or not. -/
theorem mem_pids_iff {pid : Pid} :
    pid ∈ t.pids ↔ pid ∈ t.active.pids ∨ pid ∈ t.inactive.pids := by
  simp only [pids, active, inactive, List.mem_map, List.mem_filter]
  constructor
  · rintro ⟨p, hp, rfl⟩
    cases hactive : p.isActive with
    | true => exact .inl ⟨p, ⟨hp, hactive⟩, rfl⟩
    | false => exact .inr ⟨p, ⟨hp, by simp [hactive]⟩, rfl⟩
  · rintro (⟨p, ⟨hp, -⟩, rfl⟩ | ⟨p, ⟨hp, -⟩, rfl⟩)
    · exact ⟨p, hp, rfl⟩
    · exact ⟨p, hp, rfl⟩

/-- A successful refresh, when no process is listed twice. -/
theorem refresh_announces {entries : List Entry} (hnodup : (listedPids entries).Nodup)
    (ht : t.pids.Nodup) (hok : (t.refresh (some entries)).1 = .successRead) :
    ∃ (told : List Event) (gone : Table),
      (t.refresh (some entries)).2.1 = told ++ gone.map Event.removed ∧
      told.Perm ((t.refresh (some entries)).2.2.map (announce t.pids)) ∧
      gone.pids.Sublist t.pids ∧
      ∀ pid, pid ∈ gone.pids ↔ pid ∈ t.pids ∧ pid ∉ (t.refresh (some entries)).2.2.pids := by
  have hscan := refresh_success_iff.mp hok
  have S : Scanned t.pids (reads entries) (scan (t.map Process.deactivate) entries).2.2 :=
    Scanned.start.scan hscan
  obtain ⟨hperm, hsub⟩ :=
    scan_announces (ahead_deactivate t (listedPids entries)) hnodup
  have hidle : active (t.map Process.deactivate) = [] := by
    simp [active, Process.deactivate]
  have hall : inactive (t.map Process.deactivate) = t.map Process.deactivate := by
    simp [inactive, Process.deactivate]
  rw [hidle, List.map_nil, List.append_nil] at hperm
  rw [hall, pids_deactivate] at hsub
  have hevents : (t.refresh (some entries)).2.1 =
      (scan (t.map Process.deactivate) entries).2.1 ++
        (scan (t.map Process.deactivate) entries).2.2.swept := by
    rcases hr : scan (t.map Process.deactivate) entries with ⟨r, events, t'⟩
    rw [hr] at hscan
    obtain rfl : r = none := hscan
    simp only [refresh, hr]
  refine ⟨_, (scan (t.map Process.deactivate) entries).2.2.inactive, hevents, ?_, hsub, ?_⟩
  · rwa [refresh_active hscan]
  · intro pid
    rw [refresh_active hscan]
    constructor
    · intro hgone
      refine ⟨hsub.subset hgone, fun hlive => ?_⟩
      have hdisjoint := pids_sdiff_inactive (S.nodup_pids ht)
      have hmem : pid ∈ (scan (t.map Process.deactivate) entries).2.2.active.pids.toFinset :=
        List.mem_toFinset.mpr hlive
      rw [← hdisjoint, Finset.mem_sdiff] at hmem
      exact hmem.2 (List.mem_toFinset.mpr hgone)
    · intro hpid
      exact (mem_pids_iff.mp (S.mem_pids.mpr (.inl hpid.1))).resolve_left hpid.2

end Table

/-- **The callbacks of a successful refresh.**  When the directory lists no process twice, the
records of the new list are announced once each, with the data they then hold: as updated if
their pid was in the list before, and else as added.  After them the callback for removals is
called once for each pid that has left the list, in the order of the old list. -/
theorem processListRefresh_announces {m : Memory} {list fuel : ℕ} {entries : List Entry}
    {s : Refresh} (H : Stores m list t) (ht : t.pids.Nodup)
    (hnames : ∀ e ∈ entries, ValidName e.name) (hnodup : (listedPids entries).Nodup)
    (hfuel : t.length + entries.length < fuel)
    (hok : processListRefresh m (some list) (some entries) ⟨true, true, true⟩ fuel =
      some (.successRead, s)) :
    ∃ (t' : Table) (told : List Event) (gone : Table),
      Stores s.memory list t' ∧ s.log = told ++ gone.map Event.removed ∧
      told.Perm (t'.map (announce t.pids)) ∧ gone.pids.Sublist t.pids ∧
      ∀ pid, pid ∈ gone.pids ↔ pid ∈ t.pids ∧ pid ∉ t'.pids := by
  obtain ⟨m', hrun, H'⟩ :=
    processListRefresh_spec H (some entries) ⟨true, true, true⟩ hnames hfuel
  obtain ⟨hresult, rfl⟩ := Prod.mk.inj (Option.some.inj (hrun.symm.trans hok))
  obtain ⟨told, gone, hevents, htold, hsub, hgone⟩ := Table.refresh_announces hnodup ht hresult
  refine ⟨_, told, gone, H', ?_, htold, hsub, hgone⟩
  rw [List.nil_append, filter_wants_all, hevents]

/-- Process 8 is found, and process 7 is gone. -/
theorem processListRefresh_announces_two : ∃ (m : Memory) (s : Refresh),
    Stores m 0 [⟨7, .zero, true⟩] ∧
      processListRefresh m (some 0) (some [⟨[56], .success .zero, true, 3⟩]) ⟨true, true, true⟩ 9 =
        some (.successRead, s) ∧
      ∃ (t' : Table) (told : List Event) (gone : Table),
        Stores s.memory 0 t' ∧ s.log = told ++ gone.map Event.removed ∧
        told.Perm (t'.map (announce [7])) ∧ gone.pids.Sublist [7] ∧
        ∀ pid, pid ∈ gone.pids ↔ pid ∈ [(7 : Pid)] ∧ pid ∉ t'.pids := by
  obtain ⟨m, H⟩ := exists_stores [⟨7, .zero, true⟩]
  have hnames : ∀ e ∈ [(⟨[56], .success .zero, true, 3⟩ : Entry)], ValidName e.name := by decide
  obtain ⟨m', hrun, -⟩ := processListRefresh_spec H (some [⟨[56], .success .zero, true, 3⟩])
    ⟨true, true, true⟩ hnames (show 2 < 9 by decide)
  exact ⟨m, _, H, hrun, processListRefresh_announces H (by decide) hnames (by decide)
    (show 2 < 9 by decide) hrun⟩

end ProcessList
end Ctm
