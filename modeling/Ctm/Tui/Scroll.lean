import Ctm.Tui.Frames

/-!
# Scrolling

Each call of `prefresh` shows a window of the pad.  The offset is kept within the pad for the
height the terminal has when a key is pressed, but the terminal may have grown when the window
is shown: it then hangs over the end of the pad by as much as the terminal has grown.  On a
terminal with more lines than the pad, the window stays at the first row.

## Main definitions

* `Frame.key` — a round in which only a key is pressed.
* `View.after` — the interface after some rounds.
* `scrolls` — the offset after some keys.
* `uiStart_window` — how far a window can hang over.
* `uiStart_reaches` — every row can be brought into the window.
-/

namespace Ctm
namespace Tui
open ProcessList

variable {v : View} {frames : List Frame} {lines cols ch : ℤ} {lo hi : ℤ} {n : ℕ}

/-- A round that meets no process, with the key `ch`. -/
def Frame.key (lines cols ch : ℤ) : Frame := ⟨none, fun _ => ⟨0, [], []⟩, ch, lines, cols⟩

/-- The interface after rounds none of which ends the loop. -/
def View.after (v : View) (frames : List Frame) : View := frames.foldl View.next v

theorem View.after_append {more : List Frame} :
    v.after (frames ++ more) = (v.after frames).after more := List.foldl_append

/-- A run goes on from where it was. -/
theorem View.run_append {more : List Frame} (h : ∀ frame ∈ frames, frame.ch ≠ 113) :
    (v.run (frames ++ more)).2.1 = (v.run frames).2.1 ++ ((v.after frames).run more).2.1 := by
  induction frames generalizing v with
  | nil => rfl
  | cons frame frames ih =>
      have hch : frame.ch ≠ 113 := h frame List.mem_cons_self
      simp only [List.cons_append, View.run, if_neg hch, View.after, List.foldl_cons]
      rw [ih fun f hf => h f (List.mem_cons_of_mem _ hf)]
      rfl

/-! ## Bounds -/

/-- The offset is between the ends of a pad seen from a terminal of `lo` lines. -/
structure Scrolled (lo hi : ℤ) (v : View) : Prop where
  nonneg : 0 ≤ v.scrollOffset
  le : v.scrollOffset ≤ 101 - min lo 101
  lines_ge : lo ≤ v.lines
  lines_le : v.lines ≤ hi

theorem Scrolled.next {frame : Frame} (S : Scrolled lo hi v) (hlo : lo ≤ frame.lines)
    (hhi : frame.lines ≤ hi) : Scrolled lo hi (v.next frame) := by
  obtain ⟨hnonneg, hle, -, -⟩ := S
  refine ⟨?_, ?_, hlo, hhi⟩
  all_goals
    simp only [View.next, scroll]
    split_ifs <;> omega

theorem scrolled_start (hlo : lo ≤ lines) (hhi : lines ≤ hi) :
    Scrolled lo hi (View.start lines cols) := by
  refine ⟨le_rfl, ?_, hlo, hhi⟩
  simp only [View.start]
  omega

/-- The only calls of `prefresh` are those that show the pad. -/
theorem eq_of_prefresh_mem {rounds : List (View × Frame)} {o a b c d e : ℤ}
    (h : Call.prefresh o a b c d e ∈ startCalls lines cols ++ View.draws rounds) :
    (o = 0 ∧ d = lines - 1) ∨ ∃ r ∈ rounds, o = r.1.scrollOffset ∧ d = r.1.lines - 1 := by
  have hrows : ∀ (ps : List Process) stack y, Call.prefresh o a b c d e ∉ rowsCalls stack y ps := by
    intro ps
    induction ps with
    | nil => simp [rowsCalls]
    | cons p ps ih => simp [rowsCalls, rowCalls, ih]
  rcases List.mem_append.mp h with h | h
  · simp only [startCalls, headerCalls, List.cons_append, List.mem_cons, List.nil_append,
      reduceCtorEq, Call.prefresh.injEq, List.not_mem_nil, false_or, or_false] at h
    exact .inl ⟨h.1, h.2.2.2.2.1⟩
  · obtain ⟨r, hr, hcall⟩ := List.mem_flatMap.mp h
    simp only [View.draw, headerCalls, View.showCall, List.cons_append, List.nil_append,
      List.mem_cons, List.mem_append, reduceCtorEq, Call.prefresh.injEq, List.not_mem_nil, hrows,
      false_or, or_false] at hcall
    exact .inr ⟨r, hr, hcall.1, hcall.2.2.2.2.1⟩

/-! ## Keys -/

/-- The offset after some keys, on a terminal that keeps its size. -/
def scrolls (lines offset : ℤ) (keys : List ℤ) : ℤ :=
  keys.foldl (fun offset ch => scroll offset lines ch) offset

/-- A key that moves the window by `d` rows, pressed `n` times. -/
theorem scrolls_replicate {offset d : ℤ}
    (hscroll : ∀ i : ℕ, i < n → scroll (offset + i * d) lines ch = offset + (i + 1) * d) :
    scrolls lines offset (List.replicate n ch) = offset + n * d := by
  induction n with
  | zero => simp [scrolls]
  | succ n ih =>
      have hbefore : scrolls lines offset (List.replicate n ch) = offset + n * d :=
        ih fun i hi => hscroll i (by omega)
      rw [scrolls] at hbefore ⊢
      rw [List.replicate_succ', List.foldl_concat, hbefore, hscroll n (Nat.lt_succ_self n)]
      push_cast
      rfl

/-- On a terminal that keeps its size, the keys alone move the window, whatever the rounds
meet. -/
theorem View.after_keys (v : View) (frames : List Frame)
    (h : ∀ frame ∈ frames, frame.ch ≠ 113 ∧ frame.lines = v.lines ∧ frame.cols = v.cols) :
    (v.after frames).scrollOffset = scrolls v.lines v.scrollOffset (frames.map Frame.ch) ∧
      (v.after frames).lines = v.lines ∧ (v.after frames).cols = v.cols := by
  induction frames generalizing v with
  | nil => exact ⟨rfl, rfl, rfl⟩
  | cons frame frames ih =>
      obtain ⟨hch, hlines, hcols⟩ := h frame List.mem_cons_self
      have hoffset : (v.next frame).scrollOffset = scroll v.scrollOffset v.lines frame.ch := by
        rw [View.next, if_neg hch, hlines]
      have hnext := ih (v.next frame) fun f hf => by
        obtain ⟨hch', hlines', hcols'⟩ := h f (List.mem_cons_of_mem _ hf)
        exact ⟨hch', hlines'.trans hlines.symm, hcols'.trans hcols.symm⟩
      obtain ⟨hafter, hlines', hcols'⟩ := hnext
      refine ⟨?_, hlines'.trans hlines, hcols'.trans hcols⟩
      rw [View.after, List.foldl_cons, ← View.after, hafter, hoffset]
      simp only [View.next, hlines]
      rfl

/-- The keys that bring row `y` into a window that begins at `o` and has `height` rows. -/
def keysTo (y : ℕ) (o height : ℤ) : List ℤ :=
  if o ≤ y then List.replicate (y - o - (height - 1)).toNat keyDown
  else List.replicate (o - y).toNat keyUp

theorem of_mem_keysTo {y : ℕ} {o height : ℤ} (h : ch ∈ keysTo y o height) :
    ch = keyUp ∨ ch = keyDown := by
  rw [keysTo] at h
  split at h
  · exact .inr (List.eq_of_mem_replicate h)
  · exact .inl (List.eq_of_mem_replicate h)

/-- Row `y` is then in the window. -/
theorem scrolls_keysTo {y : ℕ} {o : ℤ} (hy : y < 100) (hlines : 2 ≤ lines) :
    let o' := scrolls lines o (keysTo y o (lines - 1))
    o' ≤ y ∧ y < o' + (lines - 1) := by
  intro o'
  rcases le_or_gt o y with hle | hgt
  · have hdown : ∀ i : ℕ, i < (y - o - (lines - 1 - 1)).toNat →
        scroll (o + i * 1) lines keyDown = o + (i + 1) * 1 := by
      intro i hi
      rw [scroll, if_neg (by decide), if_pos rfl, if_pos (by omega)]
      omega
    have ho' : o' = o + (y - o - (lines - 1 - 1)).toNat * 1 := by
      rw [← scrolls_replicate hdown]
      simp only [o', keysTo, if_pos hle]
    omega
  · have hup : ∀ i : ℕ, i < (o - y).toNat →
        scroll (o + i * -1) lines keyUp = o + (i + 1) * -1 := by
      intro i hi
      rw [scroll, if_pos rfl, if_pos (by omega)]
      omega
    have ho' : o' = o + (o - y).toNat * -1 := by
      rw [← scrolls_replicate hup]
      simp only [o', keysTo, if_neg (not_le.mpr hgt)]
    omega

/-! ## Runs -/

theorem sum_of_none (h : ∀ frame ∈ frames, frame.dir = none) :
    (frames.map fun frame => (frame.dir.getD []).length).sum = 0 := by
  induction frames with
  | nil => rfl
  | cons frame frames ih =>
      rw [List.map_cons, List.sum_cons, ih fun f hf => h f (List.mem_cons_of_mem _ hf),
        h frame List.mem_cons_self]
      rfl

theorem draws_concat {rounds : List (View × Frame)} {r : View × Frame} :
    (startCalls lines cols ++ View.draws (rounds ++ [r])).getLast? = some r.1.showCall := by
  simp [View.draws, View.draw]

/-- A run whose rounds do not end the loop, and one round more, shows the pad last from the
offset the run has led to. -/
theorem uiStart_last (m : Memory) (lines cols : ℤ) (last : Frame) {list fuel : ℕ} {h : Heap ℕ}
    {malloc : Option ℕ} (hinit : m.heap.listInit list malloc = some h) (hused : list ∈ m.used)
    (hnames : ∀ frame ∈ frames ++ [last], ∀ e ∈ frame.dir.getD [], ValidName e.name)
    (hfuel : ((frames ++ [last]).map fun frame => (frame.dir.getD []).length).sum < fuel)
    (hch : ∀ frame ∈ frames, frame.ch ≠ 113) :
    ∃ b s, uiStart list malloc fuel m lines cols (frames ++ [last]) = some (b, s) ∧
      s.calls.getLast? = some ((View.start lines cols).after frames).showCall := by
  obtain ⟨s, hrun, hcalls, -⟩ :=
    uiStart_spec m lines cols (frames ++ [last]) hinit hused hnames hfuel
  refine ⟨_, s, hrun, ?_⟩
  have hround : (((View.start lines cols).after frames).run [last]).2.1 =
      [((View.start lines cols).after frames, last)] := by
    simp only [View.run]
    split
    · rfl
    · rfl
  rw [hcalls, View.run_append hch, hround, draws_concat]

/-- While the terminal has between `lo` and `hi` lines, no window hangs over by more. -/
theorem uiStart_window_le (m : Memory) (lines cols : ℤ) (frames : List Frame) {list fuel : ℕ}
    {h : Heap ℕ} {malloc : Option ℕ} (hinit : m.heap.listInit list malloc = some h)
    (hused : list ∈ m.used) (hlo : lo ≤ lines) (hhi : lines ≤ hi)
    (hnames : ∀ frame ∈ frames, ∀ e ∈ frame.dir.getD [], ValidName e.name)
    (hfuel : (frames.map fun frame => (frame.dir.getD []).length).sum < fuel)
    (hlines : ∀ frame ∈ frames, lo ≤ frame.lines ∧ frame.lines ≤ hi) :
    ∃ b s, uiStart list malloc fuel m lines cols frames = some (b, s) ∧
      ∀ o a b c height e, Call.prefresh o a b c height e ∈ s.calls →
        0 ≤ o ∧ o + height ≤ 100 + (hi - min lo 101) := by
  obtain ⟨s, hrun, hcalls, -⟩ := uiStart_spec m lines cols frames hinit hused hnames hfuel
  refine ⟨_, s, hrun, ?_⟩
  intro o a b c height e hcall
  have hrounds := (View.run_invariant (v := View.start lines cols) (I := Scrolled lo hi)
    (scrolled_start hlo hhi)
    fun v frame hframe S => S.next (hlines frame hframe).1 (hlines frame hframe).2).1
  rw [hcalls] at hcall
  rcases eq_of_prefresh_mem hcall with ⟨rfl, rfl⟩ | ⟨r, hr, rfl, rfl⟩
  · omega
  · obtain ⟨hnonneg, hle, -, hmax⟩ := (hrounds r hr).1
    omega

/-- Some window hangs over by as much. -/
theorem exists_uiStart_window (m : Memory) (lines cols : ℤ) {list : ℕ} {h : Heap ℕ}
    {malloc : Option ℕ} (hinit : m.heap.listInit list malloc = some h) (hused : list ∈ m.used)
    (hlo : lo ≤ lines) (hhi : lines ≤ hi) :
    ∃ frames : List Frame, (∀ frame ∈ frames, lo ≤ frame.lines ∧ frame.lines ≤ hi) ∧
      ∃ b s o height, uiStart list malloc 1 m lines cols frames = some (b, s) ∧
        Call.prefresh o 0 1 0 height (cols - 1) ∈ s.calls ∧
        o + height = 100 + (hi - min lo 101) := by
  -- The terminal shrinks, the pad is scrolled to its end, and the terminal grows.
  let downs := List.replicate (101 - lo).toNat (Frame.key lo cols keyDown)
  let frames := Frame.key lo cols 0 :: downs ++ [Frame.key hi cols 0]
  have hmem : ∀ frame ∈ frames ++ [Frame.key hi cols 0], frame = Frame.key lo cols 0 ∨
      frame = Frame.key lo cols keyDown ∨ frame = Frame.key hi cols 0 := by
    intro frame hframe
    simp only [frames, downs, List.cons_append, List.mem_cons, List.mem_append,
      List.mem_replicate, List.not_mem_nil, or_false] at hframe
    tauto
  have hmem' : ∀ frame ∈ frames ++ [Frame.key hi cols 0],
      frame.dir = none ∧ frame.ch ≠ 113 := by
    intro frame hframe
    rcases hmem frame hframe with rfl | rfl | rfl
    · exact ⟨rfl, show (0 : ℤ) ≠ 113 by decide⟩
    · exact ⟨rfl, show keyDown ≠ 113 by decide⟩
    · exact ⟨rfl, show (0 : ℤ) ≠ 113 by decide⟩
  have hfuel : ((frames ++ [Frame.key hi cols 0]).map
      fun frame => (frame.dir.getD []).length).sum < 1 := by
    rw [sum_of_none fun frame hframe => (hmem' frame hframe).1]
    exact Nat.one_pos
  obtain ⟨b, s, hrun, hlast⟩ := uiStart_last m lines cols (Frame.key hi cols 0) hinit hused
    (fun frame hframe => by simp [(hmem' frame hframe).1]) hfuel
    fun frame hframe => (hmem' frame (List.mem_append_left _ hframe)).2
  have hdown : ∀ i : ℕ, i < (101 - lo).toNat →
      scroll (0 + i * 1) lo keyDown = 0 + (i + 1) * 1 := by
    intro i hi
    rw [scroll, if_neg (by decide), if_pos rfl, if_pos (by omega)]
    omega
  have hend : ((View.start lines cols).after frames).showCall =
      .prefresh (101 - lo).toNat 0 1 0 (hi - 1) (cols - 1) := by
    obtain ⟨hoffset, hlines, -⟩ := View.after_keys ⟨[], 0, lo, cols⟩ downs
      fun frame hframe => by
        rw [List.eq_of_mem_replicate hframe]
        exact ⟨show keyDown ≠ 113 by decide, rfl, rfl⟩
    have hkeys : downs.map Frame.ch = List.replicate (101 - lo).toNat keyDown :=
      List.map_replicate
    rw [hkeys, scrolls_replicate hdown] at hoffset
    have hafter : (View.start lines cols).after frames =
        (View.after ⟨[], 0, lo, cols⟩ downs).next (Frame.key hi cols 0) := by
      rw [show frames = [Frame.key lo cols 0] ++ downs ++ [Frame.key hi cols 0] from rfl,
        View.after_append, View.after_append]
      rfl
    have hkey : ((View.after ⟨[], 0, lo, cols⟩ downs).next (Frame.key hi cols 0)).scrollOffset =
        (View.after ⟨[], 0, lo, cols⟩ downs).scrollOffset := rfl
    rw [hafter, View.showCall, hkey, hoffset, Int.zero_add, Int.mul_one]
    rfl
  rw [hend] at hlast
  refine ⟨frames ++ [Frame.key hi cols 0], ?_, b, s, (101 - lo).toNat, hi - 1, hrun,
    List.mem_of_getLast? hlast, ?_⟩
  · intro frame hframe
    rcases hmem frame hframe with rfl | rfl | rfl
    · exact ⟨le_rfl, hlo.trans hhi⟩
    · exact ⟨le_rfl, hlo.trans hhi⟩
    · exact ⟨hlo.trans hhi, le_rfl⟩
  · omega

/-- **How far a window can hang over.**  While the terminal has between `lo` and `hi` lines,
every call of `prefresh` shows rows from the pad on, and at most `hi - lo` rows behind its end,
or `hi - 101` when `lo` is more than 101: none at all when the terminal keeps a size of at most
101 lines.  Some run comes to this bound. -/
theorem uiStart_window (m : Memory) (lines cols lo hi : ℤ) {list : ℕ} {h : Heap ℕ}
    {malloc : Option ℕ} (hinit : m.heap.listInit list malloc = some h) (hused : list ∈ m.used)
    (hlo : lo ≤ lines) (hhi : lines ≤ hi) :
    (∀ (frames : List Frame) (fuel : ℕ),
      (∀ frame ∈ frames, ∀ e ∈ frame.dir.getD [], ValidName e.name) →
      (frames.map fun frame => (frame.dir.getD []).length).sum < fuel →
      (∀ frame ∈ frames, lo ≤ frame.lines ∧ frame.lines ≤ hi) →
      ∃ b s, uiStart list malloc fuel m lines cols frames = some (b, s) ∧
        ∀ o a b c height e, Call.prefresh o a b c height e ∈ s.calls →
          0 ≤ o ∧ o + height ≤ 100 + (hi - min lo 101)) ∧
    ∃ frames : List Frame, (∀ frame ∈ frames, lo ≤ frame.lines ∧ frame.lines ≤ hi) ∧
      ∃ b s o height, uiStart list malloc 1 m lines cols frames = some (b, s) ∧
        Call.prefresh o 0 1 0 height (cols - 1) ∈ s.calls ∧
        o + height = 100 + (hi - min lo 101) :=
  ⟨fun frames _ hnames hfuel hlines =>
      uiStart_window_le m lines cols frames hinit hused hlo hhi hnames hfuel hlines,
    exists_uiStart_window m lines cols hinit hused hlo hhi⟩

/-- The terminal has 24 lines or more, and 30 at most. -/
theorem uiStart_window_24 : ∃ frames : List Frame,
    (∀ frame ∈ frames, 24 ≤ frame.lines ∧ frame.lines ≤ 30) ∧
    ∃ b s o height,
      uiStart 0 (some 1) 1 ⟨⟨fun _ => some ⟨none, none, none⟩, fun _ => none⟩, fun _ => none, [0]⟩
        24 80 frames = some (b, s) ∧
      Call.prefresh o 0 1 0 height 79 ∈ s.calls ∧ o + height = 106 := by
  have hread : (⟨fun _ => some ⟨none, none, none⟩, fun _ => none⟩ : Heap ℕ).Readable 0 :=
    Option.some_ne_none _
  obtain ⟨h, hinit, -, -⟩ := Heap.listInit_spec hread 1
  exact (uiStart_window
    ⟨⟨fun _ => some ⟨none, none, none⟩, fun _ => none⟩, fun _ => none, [0]⟩ 24 80 24 30 hinit
    List.mem_cons_self le_rfl (by decide)).2

/-- **Every row can be brought into the window.**  On a terminal that keeps a size of two lines
or more, after any run, some presses of the arrow keys lead to a call of `prefresh` that shows a
given row, whatever processes come and go in the rounds in which they are pressed. -/
theorem uiStart_reaches (m : Memory) {list : ℕ} {h : Heap ℕ} {malloc : Option ℕ}
    (hinit : m.heap.listInit list malloc = some h) (hused : list ∈ m.used)
    (hframes : ∀ frame ∈ frames, frame.ch ≠ 113 ∧ frame.lines = lines ∧ frame.cols = cols)
    (hlines : 2 ≤ lines) {y : ℕ} (hy : y < 100) :
    ∃ keys : List ℤ, (∀ ch ∈ keys, ch = keyUp ∨ ch = keyDown) ∧
      ∀ (more : List Frame) (last : Frame) (fuel : ℕ), more.map Frame.ch = keys →
        (∀ frame ∈ more, frame.lines = lines ∧ frame.cols = cols) →
        (∀ frame ∈ frames ++ more ++ [last], ∀ e ∈ frame.dir.getD [], ValidName e.name) →
        ((frames ++ more ++ [last]).map fun frame => (frame.dir.getD []).length).sum < fuel →
        ∃ b s o, uiStart list malloc fuel m lines cols (frames ++ more ++ [last]) = some (b, s) ∧
          s.calls.getLast? = some (.prefresh o 0 1 0 (lines - 1) (cols - 1)) ∧
          o ≤ y ∧ y < o + (lines - 1) := by
  obtain ⟨-, hlines₁, hcols₁⟩ := View.after_keys (View.start lines cols) frames hframes
  let keys := keysTo y ((View.start lines cols).after frames).scrollOffset (lines - 1)
  obtain ⟨hle, hlt⟩ := scrolls_keysTo hy hlines
  refine ⟨keys, fun ch hch => of_mem_keysTo hch, ?_⟩
  intro more last fuel hkeys hmore hnames hfuel
  have hch : ∀ frame ∈ more, frame.ch ≠ 113 := by
    intro frame hframe
    have hkey : frame.ch ∈ keys := hkeys ▸ List.mem_map_of_mem hframe
    rcases of_mem_keysTo hkey with hup | hdown
    · exact hup ▸ show keyUp ≠ 113 by decide
    · exact hdown ▸ show keyDown ≠ 113 by decide
  obtain ⟨b, s, hrun, hlast⟩ := uiStart_last m lines cols last hinit hused hnames hfuel
    fun frame hframe => (List.mem_append.mp hframe).elim (fun h => (hframes frame h).1) (hch frame)
  obtain ⟨hoffset, hlines₂, hcols₂⟩ := View.after_keys
    ((View.start lines cols).after frames) more fun frame hframe =>
      ⟨hch frame hframe, (hmore frame hframe).1.trans hlines₁.symm,
        (hmore frame hframe).2.trans hcols₁.symm⟩
  have hlines' : ((View.start lines cols).after frames).lines = lines := hlines₁
  have hcols' : ((View.start lines cols).after frames).cols = cols := hcols₁
  refine ⟨b, s, _, hrun, ?_, hle, hlt⟩
  rw [hlast, View.after_append, View.showCall, hoffset, hlines₂, hcols₂, hkeys, hlines', hcols']

/-- Row 99, after a round in which the arrow for the way down was pressed; a process comes with
each further key. -/
theorem uiStart_reaches_99 : ∃ (more : List Frame) (b : Bool) (s : Ui) (o : ℤ),
    (∀ frame ∈ more, frame.dir = some [⟨[55], .success .zero, true, 1⟩]) ∧
    uiStart 0 (some 1) (more.length + 2)
        ⟨⟨fun _ => some ⟨none, none, none⟩, fun _ => none⟩, fun _ => none, [0]⟩
        24 80 ([Frame.key 24 80 keyDown] ++ more ++ [Frame.key 24 80 0]) = some (b, s) ∧
      s.calls.getLast? = some (.prefresh o 0 1 0 23 79) ∧ o ≤ 99 ∧ 99 < o + 23 := by
  have hread : (⟨fun _ => some ⟨none, none, none⟩, fun _ => none⟩ : Heap ℕ).Readable 0 :=
    Option.some_ne_none _
  obtain ⟨h, hinit, -, -⟩ := Heap.listInit_spec hread 1
  have hframes : ∀ frame ∈ [Frame.key 24 80 keyDown],
      frame.ch ≠ 113 ∧ frame.lines = 24 ∧ frame.cols = 80 := by decide
  obtain ⟨keys, -, hreach⟩ := uiStart_reaches
    ⟨⟨fun _ => some ⟨none, none, none⟩, fun _ => none⟩, fun _ => none, [0]⟩ hinit
    List.mem_cons_self hframes (by decide) (show 99 < 100 by decide)
  let more : List Frame := keys.map fun ch =>
    ⟨some [⟨[55], .success .zero, true, 1⟩], fun _ => ⟨0, [], []⟩, ch, 24, 80⟩
  have hmore : ∀ frame ∈ more, frame.dir = some [⟨[55], .success .zero, true, 1⟩] ∧
      frame.lines = 24 ∧ frame.cols = 80 := by
    intro frame hframe
    obtain ⟨ch, -, rfl⟩ := List.mem_map.mp hframe
    exact ⟨rfl, rfl, rfl⟩
  have hkeys : more.map Frame.ch = keys := by simp [more, Function.comp_def]
  have hnames : ∀ frame ∈ [Frame.key 24 80 keyDown] ++ more ++ [Frame.key 24 80 0],
      ∀ e ∈ frame.dir.getD [], ValidName e.name := by
    intro frame hframe
    simp only [List.cons_append, List.nil_append, List.mem_cons, List.mem_append,
      List.not_mem_nil, or_false] at hframe
    rcases hframe with rfl | hframe | rfl
    · decide
    · rw [(hmore frame hframe).1]
      decide
    · decide
  have hfuel : (([Frame.key 24 80 keyDown] ++ more ++ [Frame.key 24 80 0]).map
      fun frame => (frame.dir.getD []).length).sum < more.length + 2 := by
    simp [more, Frame.key, Function.comp_def]
  obtain ⟨b, s, o, hrun, hcalls, hle, hlt⟩ := hreach more (Frame.key 24 80 0) (more.length + 2)
    hkeys (fun frame hframe => (hmore frame hframe).2) hnames hfuel
  exact ⟨more, b, s, o, fun frame hframe => (hmore frame hframe).1, hrun, hcalls, hle, hlt⟩

end Tui
end Ctm
