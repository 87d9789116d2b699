import Ctm.Lib.ChangeLog
import Ctm.Lib.Transition
import Ctm.Process.Refresh
import Mathlib.Algebra.GroupWithZero.Nat

/-!
# The callbacks are a change log

The calls of `on_process_added`, `on_process_updated` and `on_process_removed` are a
faithful change log of the pids in the list, over any number of refreshes, however they
end.

## Main definitions

* `Event.change` — a callback as an entry of a change log.
* `Follows` — the callbacks that lead from one table to another.
* `call` — a refresh with all three callbacks.
* `run_changeLog` — the log of a run.
-/

namespace Ctm
namespace ProcessList

/-- What a callback says about a pid. -/
def Event.change : Event → ChangeLog.Change Pid
  | .added p => ⟨.added, p.pid⟩
  | .updated p => ⟨.updated, p.pid⟩
  | .removed p => ⟨.removed, p.pid⟩

namespace Table
variable {t t₁ t₂ : Table} {events events₁ events₂ : List Event} {pid : Pid} {e : Entry}

/-- The callbacks lead from `t` to `t'`, and the pids stay distinct. -/
def Follows (t : Table) (events : List Event) (t' : Table) : Prop :=
  t.pids.Nodup → t'.pids.Nodup ∧
    ChangeLog.Faithful t.pids.toFinset (events.map Event.change) t'.pids.toFinset

theorem Follows.trans (h₁ : Follows t events₁ t₁) (h₂ : Follows t₁ events₂ t₂) :
    Follows t (events₁ ++ events₂) t₂ := by
  intro hnodup
  obtain ⟨hnodup₁, hlog₁⟩ := h₁ hnodup
  obtain ⟨hnodup₂, hlog₂⟩ := h₂ hnodup₁
  refine ⟨hnodup₂, ?_⟩
  rw [List.map_append]
  exact hlog₁.append hlog₂

/-- No callback is due when the pids stay as they were. -/
theorem follows_nil (h : t₁.pids = t.pids) : Follows t [] t₁ := by
  intro hnodup
  rw [h]
  exact ⟨hnodup, ChangeLog.faithful_nil.mpr rfl⟩

/-- A process that is not in the table is announced when it is added. -/
theorem add_follows (hpid : pid ∉ t.pids) : Follows t (t.add pid e).2.1 (t.add pid e).2.2 := by
  rw [add]
  cases e.callocOk with
  | false => exact follows_nil rfl
  | true =>
      cases e.read with
      | failure result errno partly => exact follows_nil rfl
      | success data =>
          intro hnodup
          refine ⟨List.nodup_cons.mpr ⟨hpid, hnodup⟩, ?_⟩
          have hadded := ChangeLog.faithful_added (s := t.pids.toFinset) (k := pid)
            (by simpa using hpid)
          rwa [← List.toFinset_cons] at hadded

/-- An entry announces what it does. -/
theorem entry_follows : Follows t (t.entry e).2.1 (t.entry e).2.2 := by
  rw [entry]
  cases hname : pidOf e.name with
  | none => exact follows_nil rfl
  | some pid =>
      simp only [process]
      cases hlookup : t.lookup pid with
      | none => exact add_follows (lookup_eq_none.mp hlookup)
      | some p =>
          have hp : p.pid ∈ t.pids := List.mem_map_of_mem (mem_of_lookup hlookup).1
          cases e.read.succeeded with
          | false => exact follows_nil (pids_update _)
          | true =>
              intro hnodup
              simp only [pids_update]
              exact ⟨hnodup, ChangeLog.faithful_updated (by simpa using hp)⟩

/-- The directory. -/
theorem scan_follows (es : List Entry) : Follows t (t.scan es).2.1 (t.scan es).2.2 := by
  induction es generalizing t with
  | nil => exact follows_nil rfl
  | cons e es ih =>
      have hentry : Follows t (t.entry e).2.1 (t.entry e).2.2 := entry_follows
      rcases hr : t.entry e with ⟨r, events, t₁⟩
      rw [hr] at hentry
      cases r with
      | some r => simpa only [scan, hr] using hentry
      | none =>
          simp only [scan, hr]
          exact hentry.trans ih

/-- Without the pids that go, those that stay are left. -/
theorem pids_sdiff_inactive (hnodup : t.pids.Nodup) :
    t.pids.toFinset \ t.inactive.pids.toFinset = t.active.pids.toFinset := by
  ext pid
  rw [Finset.mem_sdiff, List.mem_toFinset, List.mem_toFinset, List.mem_toFinset]
  constructor
  · rintro ⟨hpid, hstay⟩
    obtain ⟨p, hp, rfl⟩ := List.mem_map.mp hpid
    refine List.mem_map_of_mem (List.mem_filter.mpr ⟨hp, ?_⟩)
    by_contra hactive
    exact hstay (List.mem_map_of_mem (List.mem_filter.mpr ⟨hp, by simpa using hactive⟩))
  · intro hpid
    obtain ⟨p, hp, rfl⟩ := List.mem_map.mp hpid
    obtain ⟨hp, hactive⟩ := List.mem_filter.mp hp
    refine ⟨List.mem_map_of_mem hp, fun hgone => ?_⟩
    obtain ⟨q, hq, hpq⟩ := List.mem_map.mp hgone
    obtain ⟨hq, hinactive⟩ := List.mem_filter.mp hq
    obtain rfl := List.inj_on_of_nodup_map hnodup hq hp hpq
    simp [hactive] at hinactive

/-- The sweep announces the records it takes out. -/
theorem swept_follows : Follows t t.swept t.active := by
  intro hnodup
  refine ⟨hnodup.sublist (List.filter_sublist.map _), ?_⟩
  have hgone : t.inactive.pids.Nodup := hnodup.sublist (List.filter_sublist.map _)
  have hmap : t.swept.map Event.change = t.inactive.pids.map fun pid => ⟨.removed, pid⟩ := by
    simp [swept, pids, Event.change, Function.comp_def]
  rw [hmap, ← pids_sdiff_inactive hnodup]
  refine ChangeLog.faithful_removed hgone ?_
  intro pid hpid
  obtain ⟨p, hp, rfl⟩ := List.mem_map.mp hpid
  exact List.mem_toFinset.mpr (List.mem_map_of_mem (List.mem_of_mem_filter hp))

/-- A refresh announces what it does. -/
theorem refresh_follows (dir : Option (List Entry)) :
    Follows t (t.refresh dir).2.1 (t.refresh dir).2.2 := by
  cases dir with
  | none => exact follows_nil rfl
  | some entries =>
      have hmark : Follows t [] (t.map Process.deactivate) := follows_nil pids_deactivate
      have hscan := hmark.trans (scan_follows (t := t.map Process.deactivate) entries)
      simp only [refresh]
      rcases hr : scan (t.map Process.deactivate) entries with ⟨r, events, t₁⟩
      rw [hr, List.nil_append] at hscan
      cases r with
      | some r => exact hscan
      | none => exact hscan.trans swept_follows

/-- A refresh adds at most one record for each entry. -/
theorem length_refresh (dir : Option (List Entry)) :
    (t.refresh dir).2.2.length ≤ t.length + (dir.getD []).length := by
  cases dir with
  | none => exact Nat.le_add_right _ _
  | some entries =>
      have hscan := length_scan (t := t.map Process.deactivate) entries
      rw [List.length_map] at hscan
      simp only [refresh, Option.getD_some]
      rcases hr : scan (t.map Process.deactivate) entries with ⟨r, events, t₁⟩
      rw [hr] at hscan
      cases r with
      | some r => exact hscan
      | none => exact (List.length_filter_le _ _).trans hscan

end Table

/-! ## Runs -/

variable {m : Memory} {list fuel : ℕ} {t : Table}

/-- A refresh whose callbacks are not NULL, with its result and the callbacks it calls. -/
def call (list fuel : ℕ) (m : Memory) (dir : Option (List Entry)) :
    Option ((ProcessResult × List Event) × Memory) := do
  let (result, s) ← processListRefresh m (some list) dir ⟨true, true, true⟩ fuel
  some ((result, s.log), s.memory)

/-- One refresh of a run. -/
theorem call_follows {dir : Option (List Entry)} (H : Stores m list t)
    (hnames : ∀ e ∈ dir.getD [], ValidName e.name)
    (hfuel : t.length + (dir.getD []).length < fuel) :
    ∃ o m' t', call list fuel m dir = some (o, m') ∧ Stores m' list t' ∧ Table.Follows t o.2 t' ∧
      t'.length ≤ t.length + (dir.getD []).length := by
  obtain ⟨m', hrun, H'⟩ := processListRefresh_spec H dir ⟨true, true, true⟩ hnames hfuel
  have hall : (t.refresh dir).2.1.filter (Callbacks.wants ⟨true, true, true⟩) =
      (t.refresh dir).2.1 := by
    rw [List.filter_eq_self]
    intro e _
    cases e with
    | added p => rfl
    | updated p => rfl
    | removed p => rfl
  refine ⟨((t.refresh dir).1, (t.refresh dir).2.1), m', _, ?_, H', Table.refresh_follows dir,
    Table.length_refresh dir⟩
  simp only [call, hrun, Option.bind_eq_bind, Option.bind_some, List.nil_append, hall]

/-- A run of refreshes. -/
theorem run_follows {calls : List (Option (List Entry))} (H : Stores m list t)
    (hnames : ∀ dir ∈ calls, ∀ e ∈ dir.getD [], ValidName e.name)
    (hfuel : t.length + (calls.map fun dir => (dir.getD []).length).sum < fuel) :
    ∃ os m' t', Transition.exec (call list fuel) m calls = some (os, m') ∧ Stores m' list t' ∧
      Table.Follows t (os.flatMap Prod.snd) t' := by
  induction calls generalizing m t with
  | nil => exact ⟨[], m, t, rfl, H, Table.follows_nil rfl⟩
  | cons dir calls ih =>
      rw [List.map_cons, List.sum_cons] at hfuel
      obtain ⟨o, m₁, t₁, hcall, H₁, hfollows, hlength⟩ :=
        call_follows H (hnames dir List.mem_cons_self)
          (show t.length + (dir.getD []).length < fuel by omega)
      obtain ⟨os, m₂, t₂, hrun, H₂, hfollows'⟩ :=
        ih H₁ (fun dir' hdir' => hnames dir' (List.mem_cons_of_mem _ hdir')) (by omega)
      refine ⟨o :: os, m₂, t₂, ?_, H₂, hfollows.trans hfollows'⟩
      exact Transition.exec_cons_eq_some.mpr ⟨o, m₁, os, m₂, hcall, hrun, rfl⟩

/-- **The callbacks are a faithful change log.**  After any refreshes of a list that was
empty, whatever the directory holds and however reads and allocations end, the pids in the
list are distinct, the callbacks report each change of a pid when it is due and replay to
the pids in the list, and those for each pid are rounds of added, updated and removed. -/
theorem run_changeLog {m : Memory} {h : Heap ℕ} {malloc : Option ℕ}
    (hinit : m.heap.listInit list malloc = some h) (hused : list ∈ m.used)
    {calls : List (Option (List Entry))}
    (hnames : ∀ dir ∈ calls, ∀ e ∈ dir.getD [], ValidName e.name)
    (hfuel : (calls.map fun dir => (dir.getD []).length).sum < fuel) :
    ∃ os m' t, Transition.exec (call list fuel) { m with heap := h } calls = some (os, m') ∧
      Stores m' list t ∧ t.pids.Nodup ∧
      ChangeLog.Faithful ∅ ((os.flatMap Prod.snd).map Event.change) t.pids.toFinset ∧
      ChangeLog.replay ∅ ((os.flatMap Prod.snd).map Event.change) = t.pids.toFinset ∧
      ∀ pid, ChangeLog.Lifecycle
        (ChangeLog.history ((os.flatMap Prod.snd).map Event.change) pid) := by
  obtain ⟨os, m', t, hrun, H', hfollows⟩ := run_follows (stores_listInit hinit hused) hnames
    (show _ < fuel by simpa using hfuel)
  obtain ⟨hnodup, hlog⟩ := hfollows List.nodup_nil
  exact ⟨os, m', t, hrun, H', hnodup, hlog, hlog.replay, hlog.lifecycle⟩

/-- Two processes are read, then one of them fails to be read, then the directory cannot be
opened. -/
def threeCalls : List (Option (List Entry)) :=
  [some [⟨[55], .success .zero, true, 1⟩, ⟨[56], .success .zero, true, 2⟩],
    some [⟨[55], .failure ⟨_, ProcessResult.errReadFile_ne⟩ .ESRCH id, true, 3⟩,
      ⟨[56], .success .zero, true, 3⟩],
    none]

theorem run_changeLog_three : ∃ h os m t,
    Transition.exec (call 0 9) ⟨h, fun _ => none, [0]⟩ threeCalls = some (os, m) ∧
    Stores m 0 t ∧ t.pids.Nodup ∧
      ChangeLog.Faithful ∅ ((os.flatMap Prod.snd).map Event.change) t.pids.toFinset ∧
      ChangeLog.replay ∅ ((os.flatMap Prod.snd).map Event.change) = t.pids.toFinset ∧
      ∀ pid, ChangeLog.Lifecycle
        (ChangeLog.history ((os.flatMap Prod.snd).map Event.change) pid) := by
  let h₀ : Heap ℕ := ⟨fun _ => some ⟨none, none, none⟩, fun _ => none⟩
  have hread : h₀.Readable 0 := Option.some_ne_none _
  obtain ⟨h, hinit, -, -⟩ := Heap.listInit_spec hread 1
  have hnames : ∀ dir ∈ threeCalls, ∀ e ∈ dir.getD [], ValidName e.name := by decide
  obtain ⟨os, m, t, hrun⟩ := run_changeLog (m := ⟨h₀, fun _ => none, [0]⟩) hinit
    List.mem_cons_self hnames (show _ < 9 by decide)
  exact ⟨h, os, m, t, hrun⟩

end ProcessList
end Ctm
