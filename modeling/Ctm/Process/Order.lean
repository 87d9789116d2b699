import Ctm.Lib.View
import Ctm.Process.Announced

/-!
# The order of the list

A process is put first when it is found, and stays where it is until it goes.  So the list is
the change log of its callbacks read backwards: the latest arrival first, over any number of
refreshes, however they end.

## Main definitions

* `Table.Arrives` — the callbacks lead from one table to another, in order.
* `run_arrives` — a run of refreshes.
* `run_order` — the list after any run.
-/

namespace Ctm
namespace ProcessList

namespace Table
variable {t t₁ t₂ : Table} {events events₁ events₂ : List Event} {pid : Pid} {e : Entry}

/-- The callbacks lead from `t` to `t'`, whose records are in the order in which they arrived,
the latest first. -/
def Arrives (t : Table) (events : List Event) (t' : Table) : Prop :=
  t.pids.Nodup → t'.pids.reverse = ChangeLog.arrivals t.pids.reverse (events.map Event.change)

theorem Arrives.trans (h₁ : Arrives t events₁ t₁) (hf : Follows t events₁ t₁)
    (h₂ : Arrives t₁ events₂ t₂) : Arrives t (events₁ ++ events₂) t₂ := by
  intro hnodup
  rw [List.map_append, ChangeLog.arrivals_append, ← h₁ hnodup]
  exact h₂ (hf hnodup).1

theorem arrives_nil (h : t₁.pids = t.pids) : Arrives t [] t₁ := by
  intro _
  rw [h]
  rfl

/-- A process that is found is put first. -/
theorem add_arrives : Arrives t (t.add pid e).2.1 (t.add pid e).2.2 := by
  rw [add]
  cases e.callocOk with
  | false => exact arrives_nil rfl
  | true =>
      cases e.read with
      | failure result errno partly => exact arrives_nil rfl
      | success data =>
          intro _
          simp [ChangeLog.arrivals, ChangeLog.arrive, Event.change]

/-- An entry. -/
theorem entry_arrives : Arrives t (t.entry e).2.1 (t.entry e).2.2 := by
  rw [entry]
  cases pidOf e.name with
  | none => exact arrives_nil rfl
  | some pid =>
      simp only [process]
      cases t.lookup pid with
      | none => exact add_arrives
      | some p =>
          cases e.read.succeeded with
          | false => exact arrives_nil (pids_update _)
          | true =>
              intro _
              rw [pids_update]
              rfl

/-- The directory. -/
theorem scan_arrives {es : List Entry} : Arrives t (t.scan es).2.1 (t.scan es).2.2 := by
  induction es generalizing t with
  | nil => exact arrives_nil rfl
  | cons e es ih =>
      have hentry : Arrives t (t.entry e).2.1 (t.entry e).2.2 := entry_arrives
      have hfollows : Follows t (t.entry e).2.1 (t.entry e).2.2 := entry_follows
      rcases hr : t.entry e with ⟨r, events, t₁⟩
      rw [hr] at hentry hfollows
      cases r with
      | some r => simpa only [scan, hr] using hentry
      | none =>
          simp only [scan, hr]
          exact hentry.trans hfollows ih

/-- The arrivals without keys that go. -/
theorem arrivals_removed (keys gone : List Pid) :
    ChangeLog.arrivals keys (gone.map fun pid => ⟨.removed, pid⟩) =
      keys.filter fun pid => pid ∉ gone := by
  induction gone generalizing keys with
  | nil => simp [ChangeLog.arrivals]
  | cons pid gone ih =>
      change ChangeLog.arrivals (keys.filter fun k => k ≠ pid) _ = _
      rw [ih, List.filter_filter]
      apply List.filter_congr
      intro k _
      simp [not_or, Bool.and_comm]

/-- The sweep. -/
theorem swept_arrives : Arrives t t.swept t.active := by
  intro hnodup
  have hmap : t.swept.map Event.change = t.inactive.pids.map fun pid => ⟨.removed, pid⟩ := by
    simp [swept, Table.pids, Event.change, Function.comp_def]
  have hactive : t.active.pids = t.pids.filter fun pid => pid ∉ t.inactive.pids := by
    change (t.filter Process.isActive).map Process.pid = (t.map Process.pid).filter _
    rw [List.filter_map]
    apply congrArg
    apply List.filter_congr
    intro p hp
    have hgone : p.pid ∈ t.inactive.pids ↔ p.isActive = false := by
      constructor
      · intro hpid
        obtain ⟨q, hq, hqp⟩ := List.mem_map.mp hpid
        obtain ⟨hq, hinactive⟩ := List.mem_filter.mp hq
        obtain rfl := List.inj_on_of_nodup_map hnodup hq hp hqp
        simpa using hinactive
      · intro hinactive
        exact List.mem_map_of_mem (List.mem_filter.mpr ⟨hp, by simp [hinactive]⟩)
    simp [hgone]
  rw [hmap, arrivals_removed, hactive, List.filter_reverse]

/-- A refresh. -/
theorem refresh_arrives {dir : Option (List Entry)} :
    Arrives t (t.refresh dir).2.1 (t.refresh dir).2.2 := by
  cases dir with
  | none => exact arrives_nil rfl
  | some entries =>
      have hmark : Follows t [] (t.map Process.deactivate) := follows_nil pids_deactivate
      have hfollows := hmark.trans (scan_follows (t := t.map Process.deactivate) entries)
      have hscan : Arrives t ([] ++ (scan (t.map Process.deactivate) entries).2.1)
          (scan (t.map Process.deactivate) entries).2.2 :=
        (arrives_nil pids_deactivate).trans hmark scan_arrives
      simp only [refresh]
      rcases hr : scan (t.map Process.deactivate) entries with ⟨r, events, t₁⟩
      rw [hr, List.nil_append] at hscan hfollows
      cases r with
      | some r => exact hscan
      | none => exact hscan.trans hfollows swept_arrives

end Table

/-! ## Runs -/

variable {m : Memory} {list fuel : ℕ} {t : Table}

/-- One refresh of a run. -/
theorem call_spec {dir : Option (List Entry)} (H : Stores m list t)
    (hnames : ∀ e ∈ dir.getD [], ValidName e.name)
    (hfuel : t.length + (dir.getD []).length < fuel) :
    ∃ m', call list fuel m dir = some (((t.refresh dir).1, (t.refresh dir).2.1), m') ∧
      Stores m' list (t.refresh dir).2.2 := by
  obtain ⟨m', hrun, H'⟩ := processListRefresh_spec H dir ⟨true, true, true⟩ hnames hfuel
  refine ⟨m', ?_, H'⟩
  simp only [call, hrun, Option.bind_eq_bind, Option.bind_some, List.nil_append, filter_wants_all]

/-- A run of refreshes. -/
theorem run_arrives {calls : List (Option (List Entry))} (H : Stores m list t)
    (hnames : ∀ dir ∈ calls, ∀ e ∈ dir.getD [], ValidName e.name)
    (hfuel : t.length + (calls.map fun dir => (dir.getD []).length).sum < fuel) :
    ∃ os m' t', Transition.exec (call list fuel) m calls = some (os, m') ∧ Stores m' list t' ∧
      Table.Arrives t (os.flatMap Prod.snd) t' := by
  induction calls generalizing m t with
  | nil => exact ⟨[], m, t, rfl, H, Table.arrives_nil rfl⟩
  | cons dir calls ih =>
      rw [List.map_cons, List.sum_cons] at hfuel
      have hdir := hnames dir List.mem_cons_self
      obtain ⟨m₁, hcall, H₁⟩ := call_spec H hdir
        (show t.length + (dir.getD []).length < fuel by omega)
      have hlength := Table.length_refresh (t := t) dir
      obtain ⟨os, m₂, t₂, hrun, H₂, harrives⟩ :=
        ih H₁ (fun dir' hdir' => hnames dir' (List.mem_cons_of_mem _ hdir'))
          (show (t.refresh dir).2.2.length + _ < fuel by omega)
      refine ⟨_ :: os, m₂, t₂, Transition.exec_cons_eq_some.mpr
        ⟨_, m₁, os, m₂, hcall, hrun, rfl⟩, H₂, ?_⟩
      exact Table.refresh_arrives.trans (Table.refresh_follows dir) harrives

/-- **The list is in the order of arrival**, the latest process first: after any refreshes of a
list that was empty, whatever the directory holds and however reads and allocations end. -/
theorem run_order {m : Memory} {h : Heap ℕ} {malloc : Option ℕ}
    (hinit : m.heap.listInit list malloc = some h) (hused : list ∈ m.used)
    {calls : List (Option (List Entry))}
    (hnames : ∀ dir ∈ calls, ∀ e ∈ dir.getD [], ValidName e.name)
    (hfuel : (calls.map fun dir => (dir.getD []).length).sum < fuel) :
    ∃ os m' t, Transition.exec (call list fuel) { m with heap := h } calls = some (os, m') ∧
      Stores m' list t ∧
      t.pids = (ChangeLog.arrivals [] ((os.flatMap Prod.snd).map Event.change)).reverse := by
  obtain ⟨os, m', t, hrun, H', harrives⟩ := run_arrives (stores_listInit hinit hused) hnames
    (show _ < fuel by simpa using hfuel)
  refine ⟨os, m', t, hrun, H', ?_⟩
  rw [← List.reverse_reverse t.pids]
  exact congrArg List.reverse (harrives List.nodup_nil)

/-- A process that goes and comes back is the latest arrival. -/
theorem run_order_again : ∃ h os m t,
    Transition.exec (call 0 9) ⟨h, fun _ => none, [0]⟩
      [some [⟨[55], .success .zero, true, 1⟩, ⟨[56], .success .zero, true, 2⟩],
        some [⟨[56], .success .zero, true, 3⟩],
        some [⟨[55], .success .zero, true, 1⟩, ⟨[56], .success .zero, true, 2⟩]] = some (os, m) ∧
    Stores m 0 t ∧
      t.pids = (ChangeLog.arrivals [] ((os.flatMap Prod.snd).map Event.change)).reverse := by
  let h₀ : Heap ℕ := ⟨fun _ => some ⟨none, none, none⟩, fun _ => none⟩
  have hread : h₀.Readable 0 := Option.some_ne_none _
  obtain ⟨h, hinit, -, -⟩ := Heap.listInit_spec hread 1
  let calls : List (Option (List Entry)) :=
    [some [⟨[55], .success .zero, true, 1⟩, ⟨[56], .success .zero, true, 2⟩],
      some [⟨[56], .success .zero, true, 3⟩],
      some [⟨[55], .success .zero, true, 1⟩, ⟨[56], .success .zero, true, 2⟩]]
  have hnames : ∀ dir ∈ calls, ∀ e ∈ dir.getD [], ValidName e.name := by decide
  obtain ⟨os, m, t, hrun⟩ := run_order (m := ⟨h₀, fun _ => none, [0]⟩) hinit
    List.mem_cons_self hnames (show _ < 9 by decide)
  exact ⟨h, os, m, t, hrun⟩

end ProcessList
end Ctm
