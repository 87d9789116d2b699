import Ctm.Printf
import Ctm.Process.Accessors
import Ctm.Process.Manager

/-!
# The terminal interface of `ui/tui/ui.c`

The program draws the process list into a pad, shows a part of the pad, and waits for a
key.  What it does to the terminal is the list of its calls of the curses library; what the
library and the system answer is an input: the keys and the size of the terminal, the
listing of `/proc` and the outcome of each `process_read`, and what the stack holds where
`render_process` puts its locals.

The callbacks of a refresh only draw, and the refresh does not look at what is drawn, so
they are run on the log of the refresh once it has ended.

## Main definitions

* `Call` — the calls of the curses library.
* `Ui`, `Frame` — the globals, and the inputs of one round of the loop.
* `renderHeader`, `renderProcess`, `renderProcessList`, `uiStart` — the functions.
-/

namespace Ctm

namespace Tui
open ProcessList

/-- A call of the curses library that draws.  All but the last three are about the pad. -/
inductive Call
  | newpad (rows : ℕ) (cols : ℤ)
  | mvwprintw (y x : ℕ) (text : List UInt8)
  | mvwhline (y x : ℕ) (ch : UInt8) (n : ℕ)
  | prefresh (pminrow pmincol sminrow smincol smaxrow smaxcol : ℤ)
  /-- Clears a line of the standard screen. -/
  | clrtoeol
  /-- Shows the standard screen. -/
  | refresh
deriving DecidableEq, Repr

/-- `COLUMN_SPACER` -/
def columnSpacer : ℕ := 1

/-- `INITIAL_DATA_ROW_NUM` -/
def initialDataRowNum : ℕ := 2

/-- The height of the pad. -/
def padRows : ℕ := 100

/-- `KEY_DOWN` -/
def keyDown : ℤ := 258

/-- `KEY_UP` -/
def keyUp : ℤ := 259

/-- The `struct cell_t`. -/
structure HeaderCell where
  title : List UInt8
  width : ℕ

/-- `g_header_cells`: `PID`, `Name` and `State`. -/
def headerCells : List HeaderCell :=
  [⟨[80, 73, 68], 6⟩, ⟨[78, 97, 109, 101], 50⟩, ⟨[83, 116, 97, 116, 101], 10⟩]

/-- The width of a column. -/
def columnWidth (i : ℕ) : ℕ := (headerCells[i]?.map HeaderCell.width).getD 0

/-- The globals of the file and of the library, and the calls so far. -/
structure Ui where
  /-- The memory, with `g_process_list` in it. -/
  memory : Memory
  /-- `g_scroll_offset` -/
  scrollOffset : ℤ
  /-- `g_data_row_num` -/
  dataRowNum : ℕ
  /-- `LINES` -/
  lines : ℤ
  /-- `COLS` -/
  cols : ℤ
  calls : List Call

/-- What the stack holds where `render_process` puts its locals. -/
structure Locals where
  pid : Pid
  name : List UInt8
  state : List UInt8

/-- The inputs of one round of the loop: what the refresh meets, what the stack holds when the
row `y` is drawn, the key, and the size of the terminal when the key is pressed. -/
structure Frame where
  dir : Option (List Entry)
  stack : ℕ → Locals
  ch : ℤ
  lines : ℤ
  cols : ℤ

namespace Ui

/-- A call of the library. -/
def call (s : Ui) (c : Call) : Ui := { s with calls := s.calls ++ [c] }

end Ui

/-- The body of the loop of `render_header`. -/
def headerBody (s : Ui × ℕ) (cell : HeaderCell) : Ui × ℕ :=
  let (ui, offset) := s
  let ui := ui.call (.mvwprintw 0 offset (leftJustify cell.width cell.title))
  let ui := ui.call (.mvwhline 1 offset 45 cell.width)
  (ui, offset + cell.width + columnSpacer)

/-- `render_header` -/
def renderHeader (s : Ui) : Ui := (headerCells.foldl headerBody (s, columnSpacer)).1.call .clrtoeol

/-- `render_process` -/
def renderProcess (locals : Locals) (s : Ui) (process : Option Process) : Option Ui := do
  let pid ← (processPid process (some locals.pid)).2
  let name ← (processName process (some locals.name) 256).2
  let state ← (processState process (some locals.state) 32).2
  let offset := columnSpacer
  let s := s.call (.mvwprintw s.dataRowNum offset (leftJustify 6 (signedText pid.toInt)))
  let offset := offset + columnWidth 0 + columnSpacer
  let s := s.call (.mvwprintw s.dataRowNum offset (leftJustify 50 name))
  let offset := offset + columnWidth 1 + columnSpacer
  let s := s.call (.mvwprintw s.dataRowNum offset (leftJustify 10 state))
  some { s with dataRowNum := s.dataRowNum + 1 }

/-- `render_process` as a callback of the refresh. -/
def renderEvent (stack : ℕ → Locals) (s : Ui) (e : Event) : Option Ui :=
  renderProcess (stack s.dataRowNum) s (some e.process)

/-- The body of the loop of `render_process_list`.  The record is named by its node. -/
def renderBody (stack : ℕ → Locals) (s : Ui) (curr : ℕ) : Option (Empty ⊕ Ui) := do
  let process ← s.memory.records curr
  let s ← renderProcess (stack s.dataRowNum) s (some process)
  some (.inr s)

/-- The call of `prefresh`, in `render_process_list` and before the loop. -/
def showPad (s : Ui) : Ui := s.call (.prefresh s.scrollOffset 0 1 0 (s.lines - 1) (s.cols - 1))

/-- `render_process_list`, for the list with head `list`. -/
def renderProcessList (list fuel : ℕ) (dir : Option (List Entry)) (stack : ℕ → Locals) (s : Ui) :
    Option Ui := do
  let s := { s with dataRowNum := initialDataRowNum }
  let s := renderHeader s
  let (_, r) ← processListRefresh s.memory (some list) dir ⟨true, true, true⟩ fuel
  let s ← r.log.foldlM (renderEvent stack) { s with memory := r.memory }
  match ← Heap.listForeach (fun s : Ui => s.memory.heap) list (renderBody stack) fuel s with
  | .inr s => some (showPad s)

/-- The `switch` of the loop. -/
def handleKey (s : Ui) (ch : ℤ) : Ui :=
  if ch = keyUp then
    if 0 < s.scrollOffset then { s with scrollOffset := s.scrollOffset - 1 } else s
  else if ch = keyDown then
    if s.scrollOffset < 100 - (s.lines - 1) then { s with scrollOffset := s.scrollOffset + 1 }
    else s
  else s

/-- One round of the loop: whether it ends with the key `q`. -/
def uiRound (list fuel : ℕ) (s : Ui) (frame : Frame) : Option (Bool × Ui) := do
  let s ← renderProcessList list fuel frame.dir frame.stack s
  let s := { s with lines := frame.lines, cols := frame.cols }
  if frame.ch = 113 then some (true, s) else some (false, handleKey s frame.ch)

/-- The loop of `ui_start`, for as long as keys come. -/
def uiLoop (list fuel : ℕ) : Ui → List Frame → Option (Bool × Ui)
  | s, [] => some (false, s)
  | s, frame :: frames => do
      match ← uiRound list fuel s frame with
      | (true, s) => some (true, s)
      | (false, s) => uiLoop list fuel s frames

/-- `ui_start`, with `g_process_list` at `list` and its counter where `malloc` puts it: whether
it has returned. -/
def uiStart (list : ℕ) (malloc : Option ℕ) (fuel : ℕ) (m : Memory) (lines cols : ℤ)
    (frames : List Frame) : Option (Bool × Ui) := do
  let heap ← m.heap.listInit list malloc
  let s : Ui := ⟨{ m with heap := heap }, 0, initialDataRowNum, lines, cols, []⟩
  let s := s.call (.newpad padRows s.cols)
  let s := renderHeader s
  let s := s.call .refresh
  let s := showPad s
  uiLoop list fuel s frames

end Tui
end Ctm
