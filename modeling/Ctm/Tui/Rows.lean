import Ctm.Tui.Frames

/-!
# The rows of a round

A round that reads the whole directory draws every process of the new list twice: first as
the callbacks announce it, and again in the order of the list.  Between the two it draws the
processes that have gone.  The first copies come first, so the pad has a row for every process
as long as it has a row for each.

## Main definitions

* `Complete` — a round that reads a directory listing no process twice.
* `rows_complete` — the rows of such a round.
* `uiStart_rows` — the rows of a run.
-/

namespace Ctm
namespace Tui
open ProcessList

/-- The rows of the pad below the header. -/
def dataRows : ℕ := padRows - initialDataRowNum

/-- The refresh of the round is successful, and the directory lists no process twice. -/
structure Complete (v : View) (frame : Frame) : Prop where
  success : (v.table.refresh frame.dir).1 = .successRead
  nodup : ∀ entries, frame.dir = some entries → (listedPids entries).Nodup

variable {v : View} {frame : Frame}

/-- A round that is complete draws the processes of the new list, those that have gone, and
the new list. -/
theorem rows_complete (C : Complete v frame) (hnodup : v.table.pids.Nodup) :
    ∃ live gone : Table, v.rows frame = live ++ gone ++ (v.next frame).table ∧
      live.Perm (v.next frame).table ∧ gone.pids.Sublist v.table.pids ∧
      ∀ pid, pid ∈ gone.pids ↔ pid ∈ v.table.pids ∧ pid ∉ (v.next frame).table.pids := by
  cases hdir : frame.dir with
  | none =>
      have hfailed := C.success
      rw [hdir] at hfailed
      cases hfailed
  | some entries =>
      have hok := C.success
      rw [hdir] at hok
      obtain ⟨told, gone, hevents, htold, hsub, hgone⟩ :=
        Table.refresh_announces (C.nodup entries hdir) hnodup hok
      have hlive : (told.map Event.process).Perm (v.table.refresh (some entries)).2.2 := by
        have hmap := htold.map Event.process
        have hprocess : ∀ p, (announce v.table.pids p).process = p := by
          intro p
          rw [announce]
          split
          · rfl
          · rfl
        rw [List.map_map, show Event.process ∘ announce v.table.pids = id from funext hprocess,
          List.map_id] at hmap
        exact hmap
      refine ⟨told.map Event.process, gone, ?_, ?_, hsub, ?_⟩
      · rw [View.rows, View.next, hdir, shown, hevents, List.map_append, List.map_map]
        simp [Function.comp_def, Event.process]
      · simpa [View.next, hdir] using hlive
      · simpa [View.next, hdir] using hgone

/-- The pad has a row for every process exactly when it has a row for each. -/
theorem mem_take_iff {live gone table : Table} {n : ℕ} (hperm : live.Perm table)
    (hnodup : table.pids.Nodup) :
    (∀ p ∈ table, p ∈ (live ++ gone ++ table).take n) ↔ table.length ≤ n := by
  constructor
  · intro h
    by_contra hlong
    have hlength := hperm.length_eq
    have htake : (live ++ gone ++ table).take n = live.take n := by
      rw [List.append_assoc, List.take_append_of_le_length (by omega)]
    have hsub : table ⊆ live.take n := fun p hp => htake ▸ h p hp
    have hle := (hnodup.of_map _).subperm hsub |>.length_le
    rw [List.length_take] at hle
    omega
  · intro hle p hp
    have hlength := hperm.length_eq
    rw [List.append_assoc, List.take_append, List.take_of_length_le (by omega), List.mem_append]
    exact .inl (hperm.mem_iff.mpr hp)

/-- **The rows of a run.**  Whatever `/proc` holds, however reads and allocations end, and
whatever keys are pressed while the terminal changes its size: the program never follows a bad
pointer, the list stays a list of records with distinct pids, and the calls of the library are
those of the start and of each round.  A complete round draws each process of its new list once
as it is announced, then each that has gone, and then the new list; and every process of the
list has a row of the pad exactly when the list has no more processes than the pad has rows. -/
theorem uiStart_rows (m : Memory) (lines cols : ℤ) (frames : List Frame) {list fuel : ℕ}
    {h : Heap ℕ} {malloc : Option ℕ} (hinit : m.heap.listInit list malloc = some h)
    (hused : list ∈ m.used)
    (hnames : ∀ frame ∈ frames, ∀ e ∈ frame.dir.getD [], ValidName e.name)
    (hfuel : (frames.map fun frame => (frame.dir.getD []).length).sum < fuel) :
    ∃ (ended : Bool) (rounds : List (View × Frame)) (v : View) (s : Ui),
      (View.start lines cols).run frames = (ended, rounds, v) ∧
      uiStart list malloc fuel m lines cols frames = some (ended, s) ∧
      s.calls = startCalls lines cols ++ View.draws rounds ∧
      Stores s.memory list v.table ∧ v.table.pids.Nodup ∧
      ∀ r ∈ rounds, Complete r.1 r.2 →
        ∃ live gone : Table, r.1.rows r.2 = live ++ gone ++ (r.1.next r.2).table ∧
          live.Perm (r.1.next r.2).table ∧ gone.pids.Sublist r.1.table.pids ∧
          (∀ pid, pid ∈ gone.pids ↔
            pid ∈ r.1.table.pids ∧ pid ∉ (r.1.next r.2).table.pids) ∧
          ((∀ p ∈ (r.1.next r.2).table, p ∈ (r.1.rows r.2).take dataRows) ↔
            (r.1.next r.2).table.length ≤ dataRows) := by
  obtain ⟨s, hrun, hcalls, R, hnodup⟩ := uiStart_spec m lines cols frames hinit hused hnames hfuel
  refine ⟨_, _, _, s, rfl, hrun, hcalls, R.stores, hnodup, ?_⟩
  intro r hr C
  have hstart : r.1.table.pids.Nodup :=
    ((View.run_invariant (v := View.start lines cols) List.nodup_nil
      fun v frame _ => nodup_next v frame).1 r hr).1
  obtain ⟨live, gone, hrows, hperm, hsub, hgone⟩ := rows_complete C hstart
  have hnext : (r.1.next r.2).table.pids.Nodup := nodup_next r.1 r.2 hstart
  refine ⟨live, gone, hrows, hperm, hsub, hgone, ?_⟩
  rw [hrows]
  exact mem_take_iff hperm hnext

/-- A process that sleeps. -/
def sleeper : ProcessData := ⟨[97], 83, 0, 0, 0, 0, 0, []⟩

/-- Two processes are found and the pad is scrolled; then both are gone, and `q` is pressed. -/
def twoFrames : List Frame :=
  [⟨some [⟨[55], .success sleeper, true, 1⟩, ⟨[56], .success sleeper, true, 2⟩],
      fun _ => ⟨0, [], []⟩, keyDown, 24, 80⟩,
    ⟨some [], fun _ => ⟨0, [], []⟩, 113, 24, 80⟩]

theorem twoFrames_names : ∀ frame ∈ twoFrames, ∀ e ∈ frame.dir.getD [], ValidName e.name := by
  decide

theorem twoFrames_fuel : (twoFrames.map fun frame => (frame.dir.getD []).length).sum < 9 := by
  decide

theorem uiStart_rows_two : ∃ (rounds : List (View × Frame)) (v : View) (s : Ui),
    (View.start 24 80).run twoFrames = (true, rounds, v) ∧
      uiStart 0 (some 1) 9 ⟨⟨fun _ => some ⟨none, none, none⟩, fun _ => none⟩, fun _ => none, [0]⟩
        24 80 twoFrames = some (true, s) ∧
      s.calls = startCalls 24 80 ++ View.draws rounds ∧ Stores s.memory 0 v.table := by
  have hread : (⟨fun _ => some ⟨none, none, none⟩, fun _ => none⟩ : Heap ℕ).Readable 0 :=
    Option.some_ne_none _
  obtain ⟨h, hinit, -, -⟩ := Heap.listInit_spec hread 1
  obtain ⟨ended, rounds, v, s, hrounds, hrun, hcalls, H, -⟩ := uiStart_rows
    ⟨⟨fun _ => some ⟨none, none, none⟩, fun _ => none⟩, fun _ => none, [0]⟩ 24 80 twoFrames hinit
    List.mem_cons_self twoFrames_names twoFrames_fuel
  obtain rfl : true = ended := congrArg Prod.fst hrounds
  exact ⟨rounds, v, s, hrounds, hrun, hcalls, H⟩

end Tui
end Ctm
