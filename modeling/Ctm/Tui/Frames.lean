import Ctm.Process.Announced
import Ctm.Tui.Basic

/-!
# What a run draws

The interface without the memory: a round draws the header, one row for each callback of
the refresh and then one for each process of the list, and shows the pad.  The program
makes exactly these calls, on every run.

## Main definitions

* `rowCalls`, `shown`, `View.draw` — the calls of a row, the processes of a round, and the
  calls of a round.
* `View.run` — the loop.
* `Represents` — the program is in a state of the interface.
* `uiStart_spec` — a run draws what the interface says.
-/

namespace Ctm
namespace Tui
open ProcessList

/-- The calls of `render_header`. -/
def headerCalls : List Call :=
  [.mvwprintw 0 1 (leftJustify 6 [80, 73, 68]), .mvwhline 1 1 45 6,
    .mvwprintw 0 8 (leftJustify 50 [78, 97, 109, 101]), .mvwhline 1 8 45 50,
    .mvwprintw 0 59 (leftJustify 10 [83, 116, 97, 116, 101]), .mvwhline 1 59 45 10, .clrtoeol]

/-- The calls of `render_process` in row `y`. -/
def rowCalls (locals : Locals) (y : ℕ) (p : Process) : List Call :=
  [.mvwprintw y 1 (leftJustify 6 (signedText p.pid.toInt)),
    .mvwprintw y 8 (leftJustify 50 (p.data.name.take 255)),
    .mvwprintw y 59 (leftJustify 10 ((stateName p.data.state).getD locals.state))]

/-- Some processes in the rows from `y` on. -/
def rowsCalls (stack : ℕ → Locals) : ℕ → List Process → List Call
  | _, [] => []
  | y, p :: ps => rowCalls (stack y) y p ++ rowsCalls stack (y + 1) ps

/-- The processes a round draws, given its refresh. -/
def shown (r : ProcessResult × List Event × Table) : List Process :=
  r.2.1.map Event.process ++ r.2.2

/-- The offset after a key. -/
def scroll (offset lines ch : ℤ) : ℤ :=
  if ch = keyUp then if 0 < offset then offset - 1 else offset
  else if ch = keyDown then if offset < 100 - (lines - 1) then offset + 1 else offset
  else offset

/-- The interface without the memory. -/
structure View where
  table : Table
  scrollOffset : ℤ
  lines : ℤ
  cols : ℤ

namespace View

/-- The processes the round draws. -/
def rows (v : View) (frame : Frame) : List Process := shown (v.table.refresh frame.dir)

/-- The call that shows the pad. -/
def showCall (v : View) : Call := .prefresh v.scrollOffset 0 1 0 (v.lines - 1) (v.cols - 1)

/-- The calls of a round. -/
def draw (v : View) (frame : Frame) : List Call :=
  headerCalls ++ rowsCalls frame.stack initialDataRowNum (v.rows frame) ++ [v.showCall]

/-- The interface after a round. -/
def next (v : View) (frame : Frame) : View where
  table := (v.table.refresh frame.dir).2.2
  scrollOffset :=
    if frame.ch = 113 then v.scrollOffset else scroll v.scrollOffset frame.lines frame.ch
  lines := frame.lines
  cols := frame.cols

/-- The loop: whether it has ended, the rounds, each with the view it starts in, and the view
at the end. -/
def run : View → List Frame → Bool × List (View × Frame) × View
  | v, [] => (false, [], v)
  | v, frame :: frames =>
      if frame.ch = 113 then (true, [(v, frame)], v.next frame)
      else
        let r := run (v.next frame) frames
        (r.1, (v, frame) :: r.2.1, r.2.2)

/-- The calls of some rounds. -/
def draws (rounds : List (View × Frame)) : List Call := rounds.flatMap fun r => r.1.draw r.2

end View

/-- The program is in the state `v` of the interface. -/
structure Represents (list : ℕ) (s : Ui) (v : View) : Prop where
  stores : Stores s.memory list v.table
  scrollOffset : s.scrollOffset = v.scrollOffset
  lines : s.lines = v.lines
  cols : s.cols = v.cols

variable {list fuel : ℕ} {m : Memory} {t : Table} {s : Ui} {v : View} {frame : Frame}
  {frames : List Frame} {dir : Option (List Entry)} {stack : ℕ → Locals} {y : ℕ}

/-! ## One row -/

/-- The program after drawing some processes. -/
def drawn (stack : ℕ → Locals) (s : Ui) (ps : List Process) : Ui :=
  { s with
    dataRowNum := s.dataRowNum + ps.length
    calls := s.calls ++ rowsCalls stack s.dataRowNum ps }

@[simp] theorem drawn_nil : drawn stack s [] = s := by simp [drawn, rowsCalls]

theorem drawn_append {ps qs : List Process} :
    drawn stack (drawn stack s ps) qs = drawn stack s (ps ++ qs) := by
  have hrows : ∀ (ps : List Process) y,
      rowsCalls stack y (ps ++ qs) =
        rowsCalls stack y ps ++ rowsCalls stack (y + ps.length) qs := by
    intro ps
    induction ps with
    | nil =>
        intro y
        rfl
    | cons p ps ih =>
        intro y
        rw [List.cons_append, rowsCalls, rowsCalls, ih, List.append_assoc, List.length_cons,
          Nat.add_right_comm, Nat.add_assoc]
  simp only [drawn, hrows, List.append_assoc, List.length_append, Nat.add_assoc]

theorem renderHeader_eq (s : Ui) : renderHeader s = { s with calls := s.calls ++ headerCalls } := by
  simp [renderHeader, headerCells, headerBody, Ui.call, columnSpacer, headerCalls]

/-- `render_process` draws a row. -/
theorem renderProcess_eq (p : Process) :
    renderProcess (stack s.dataRowNum) s (some p) = some (drawn stack s [p]) := by
  have hstate : (processState (some p) (some (stack s.dataRowNum).state) 32).2 =
      some ((stateName p.data.state).getD (stack s.dataRowNum).state) := processState_eq (by omega)
  simp only [renderProcess, processPid, processName, processField, hstate, Option.bind_eq_bind,
    Option.bind_some]
  simp [drawn, rowsCalls, rowCalls, Ui.call, columnSpacer, columnWidth, headerCells, snprintfString]

/-- The callbacks of a refresh draw a row each. -/
theorem renderEvents_eq (events : List Event) :
    events.foldlM (renderEvent stack) s = some (drawn stack s (events.map Event.process)) := by
  induction events generalizing s with
  | nil => simp
  | cons e events ih =>
      have hrow : renderEvent stack s e = some (drawn stack s [e.process]) :=
        renderProcess_eq e.process
      rw [List.foldlM_cons, hrow, Option.bind_eq_bind, Option.bind_some, ih, drawn_append,
        List.map_cons, List.singleton_append]

/-- The loop over the list draws a row for each process. -/
theorem renderList_eq (H : Stores s.memory list t) (hfuel : t.length < fuel) :
    Heap.listForeach (fun s : Ui => s.memory.heap) list (renderBody stack) fuel s =
      some (.inr (drawn stack s t)) := by
  obtain ⟨ps, H, rfl⟩ := H
  have hlist : ∀ (qs : List (ℕ × Process)) (s' : Ui), s' = drawn stack s (qs.map Prod.snd) →
      ∃ cell, s'.memory.heap.IsList list cell (ps.map Prod.fst) := by
    intro qs s' hs'
    rw [hs']
    exact H.isList
  have hbody : ∀ qs q rs s', qs ++ q :: rs = ps → s' = drawn stack s (qs.map Prod.snd) →
      (∃ r, renderBody stack s' q.1 = some (.inl r) ∧ False) ∨
      (∃ s'', renderBody stack s' q.1 = some (.inr s'') ∧
        s'' = drawn stack s ((qs ++ [q]).map Prod.snd)) := by
    intro qs q rs s' hps hs'
    have hrec : s'.memory.records q.1 = some q.2 := by
      rw [hs']
      exact H.record q (by simp [← hps])
    refine .inr ⟨drawn stack s' [q.2], ?_, ?_⟩
    · simp only [renderBody, hrec, renderProcess_eq, Option.bind_eq_bind, Option.bind_some]
    · rw [hs', drawn_append, List.map_append, List.map_singleton]
  rw [List.length_map] at hfuel
  rcases Heap.listForeach_spec (fun qs s' => s' = drawn stack s (qs.map Prod.snd))
    (fun _ => False) hlist hbody hfuel drawn_nil.symm with ⟨r, -, hr⟩ | ⟨s', hloop, hs'⟩
  · exact hr.elim
  · rw [hloop, hs']

/-! ## One round -/

/-- `render_process_list` makes the calls of the round. -/
theorem renderProcessList_spec (R : Represents list s v)
    (hnames : ∀ e ∈ frame.dir.getD [], ValidName e.name)
    (hfuel : v.table.length + (frame.dir.getD []).length < fuel) :
    ∃ s', renderProcessList list fuel frame.dir frame.stack s = some s' ∧
      s'.calls = s.calls ++ v.draw frame ∧ Stores s'.memory list (v.next frame).table ∧
      s'.scrollOffset = s.scrollOffset := by
  obtain ⟨m', hrefresh, H'⟩ :=
    processListRefresh_spec R.stores frame.dir ⟨true, true, true⟩ hnames hfuel
  have hlength := Table.length_refresh (t := v.table) frame.dir
  rw [filter_wants_all, List.nil_append] at hrefresh
  -- The program after the header, with the memory the refresh leaves.
  let s₁ : Ui := { s with
    memory := m', dataRowNum := initialDataRowNum, calls := s.calls ++ headerCalls }
  have hloop : Heap.listForeach (fun s : Ui => s.memory.heap) list (renderBody frame.stack) fuel
      (drawn frame.stack s₁ ((v.table.refresh frame.dir).2.1.map Event.process)) = some (.inr _) :=
    renderList_eq H' (show (v.table.refresh frame.dir).2.2.length < fuel by omega)
  rw [drawn_append] at hloop
  refine ⟨showPad (drawn frame.stack s₁ (v.rows frame)), ?_, ?_, H', rfl⟩
  · simp only [renderProcessList, renderHeader_eq, hrefresh, Option.bind_eq_bind, Option.bind_some,
      renderEvents_eq]
    change (Heap.listForeach _ _ _ _ (drawn frame.stack s₁ _)).bind _ = _
    rw [hloop]
    rfl
  · simp only [showPad, drawn, Ui.call, View.draw, View.showCall, s₁, R.scrollOffset, R.lines,
      R.cols, List.append_assoc]

/-- One round of the loop. -/
theorem uiRound_spec (R : Represents list s v)
    (hnames : ∀ e ∈ frame.dir.getD [], ValidName e.name)
    (hfuel : v.table.length + (frame.dir.getD []).length < fuel) :
    ∃ s', uiRound list fuel s frame = some (decide (frame.ch = 113), s') ∧
      s'.calls = s.calls ++ v.draw frame ∧ Represents list s' (v.next frame) := by
  obtain ⟨s₁, hrender, hcalls, H₁, hoffset⟩ := renderProcessList_spec R hnames hfuel
  by_cases hq : frame.ch = 113
  · refine ⟨{ s₁ with lines := frame.lines, cols := frame.cols }, ?_, hcalls, H₁, ?_, rfl, rfl⟩
    · simp [uiRound, hrender, hq]
    · simp [View.next, hq, hoffset, R.scrollOffset]
  · refine ⟨{ s₁ with
      lines := frame.lines, cols := frame.cols,
      scrollOffset := scroll s₁.scrollOffset frame.lines frame.ch }, ?_, hcalls, H₁, ?_, rfl, rfl⟩
    · have hkey : handleKey { s₁ with lines := frame.lines, cols := frame.cols } frame.ch =
          { s₁ with
            lines := frame.lines, cols := frame.cols,
            scrollOffset := scroll s₁.scrollOffset frame.lines frame.ch } := by
        simp only [handleKey, scroll]
        split_ifs <;> rfl
      simp [uiRound, hrender, hq, hkey]
    · simp [View.next, hq, hoffset, R.scrollOffset]

/-! ## Runs -/

theorem length_next (v : View) (frame : Frame) :
    (v.next frame).table.length ≤ v.table.length + (frame.dir.getD []).length :=
  Table.length_refresh frame.dir

/-- The loop. -/
theorem uiLoop_spec (R : Represents list s v)
    (hnames : ∀ frame ∈ frames, ∀ e ∈ frame.dir.getD [], ValidName e.name)
    (hfuel : v.table.length + (frames.map fun frame => (frame.dir.getD []).length).sum < fuel) :
    ∃ s', uiLoop list fuel s frames = some ((v.run frames).1, s') ∧
      s'.calls = s.calls ++ View.draws (v.run frames).2.1 ∧
      Represents list s' (v.run frames).2.2 := by
  induction frames generalizing s v with
  | nil => exact ⟨s, rfl, by simp [View.run, View.draws], R⟩
  | cons frame frames ih =>
      rw [List.map_cons, List.sum_cons] at hfuel
      obtain ⟨s₁, hround, hcalls, R₁⟩ :=
        uiRound_spec R (hnames frame List.mem_cons_self)
          (show v.table.length + (frame.dir.getD []).length < fuel by omega)
      by_cases hq : frame.ch = 113
      · refine ⟨s₁, ?_, ?_, ?_⟩
        · simp [uiLoop, hround, hq, View.run]
        · simp [View.run, View.draws, hq, hcalls]
        · simpa [View.run, hq] using R₁
      · have hlength := length_next v frame
        obtain ⟨s₂, hloop, hcalls₂, R₂⟩ :=
          ih R₁ (fun frame' h => hnames frame' (List.mem_cons_of_mem _ h)) (by omega)
        refine ⟨s₂, ?_, ?_, ?_⟩
        · simp [uiLoop, hround, hq, hloop, View.run]
        · simp [View.run, View.draws, hq, hcalls, hcalls₂]
        · simpa [View.run, hq] using R₂

/-- What holds at the start and is kept by each round holds at the start of every round. -/
theorem View.run_invariant {I : View → Prop} (h : I v)
    (hnext : ∀ v, ∀ frame ∈ frames, I v → I (v.next frame)) :
    (∀ r ∈ (v.run frames).2.1, I r.1 ∧ r.2 ∈ frames) ∧ I (v.run frames).2.2 := by
  induction frames generalizing v with
  | nil => exact ⟨by simp [View.run], h⟩
  | cons frame frames ih =>
      have hnow : I (v.next frame) := hnext v frame List.mem_cons_self h
      obtain ⟨hrounds, hend⟩ := ih hnow fun v f hf => hnext v f (List.mem_cons_of_mem _ hf)
      simp only [View.run]
      split
      · exact ⟨by simp [h], hnow⟩
      · refine ⟨?_, hend⟩
        intro r hr
        rcases List.mem_cons.mp hr with rfl | hr
        · exact ⟨h, List.mem_cons_self⟩
        · exact ⟨(hrounds r hr).1, List.mem_cons_of_mem _ (hrounds r hr).2⟩

/-- The pids in the list stay distinct. -/
theorem nodup_next (v : View) (frame : Frame) (h : v.table.pids.Nodup) :
    (v.next frame).table.pids.Nodup := (Table.refresh_follows frame.dir h).1

/-- The calls before the loop. -/
def startCalls (lines cols : ℤ) : List Call :=
  .newpad padRows cols :: headerCalls ++ [.refresh, .prefresh 0 0 1 0 (lines - 1) (cols - 1)]

/-- The interface before the loop. -/
def View.start (lines cols : ℤ) : View := ⟨[], 0, lines, cols⟩

/-- **A run draws what the interface says.**  Whatever `/proc` holds, however reads and
allocations end, and whatever keys are pressed while the terminal changes its size: the
program never follows a bad pointer, the list stays a list of records with distinct pids, and
the calls of the library are those of the start and of each round, in order. -/
theorem uiStart_spec (m : Memory) (lines cols : ℤ) (frames : List Frame) {h : Heap ℕ}
    {malloc : Option ℕ} (hinit : m.heap.listInit list malloc = some h) (hused : list ∈ m.used)
    (hnames : ∀ frame ∈ frames, ∀ e ∈ frame.dir.getD [], ValidName e.name)
    (hfuel : (frames.map fun frame => (frame.dir.getD []).length).sum < fuel) :
    ∃ s, uiStart list malloc fuel m lines cols frames =
        some (((View.start lines cols).run frames).1, s) ∧
      s.calls = startCalls lines cols ++ View.draws ((View.start lines cols).run frames).2.1 ∧
      Represents list s ((View.start lines cols).run frames).2.2 ∧
      ((View.start lines cols).run frames).2.2.table.pids.Nodup := by
  have R : Represents list (⟨{ m with heap := h }, 0, initialDataRowNum, lines, cols,
      startCalls lines cols⟩ : Ui) (View.start lines cols) :=
    ⟨stores_listInit hinit hused, rfl, rfl, rfl⟩
  obtain ⟨s, hloop, hcalls, R'⟩ :=
    uiLoop_spec R hnames (show _ < fuel by simpa [View.start] using hfuel)
  refine ⟨s, ?_, hcalls, R', ?_⟩
  · simpa [uiStart, hinit, Ui.call, renderHeader_eq, showPad, startCalls] using hloop
  · exact (View.run_invariant (v := View.start lines cols) List.nodup_nil
      fun v frame _ => nodup_next v frame).2

end Tui
end Ctm
