import Ctm.Lib.Layers
import Ctm.Lib.Pad
import Ctm.Tui.Rows

/-!
# What stands on the pad

The pad is never erased.  A round writes its rows over those of the rounds before, so a row
shows the process that the last round with enough rows has drawn there.  Rows behind the
hundredth are not drawn at all.

The curses library is a parameter.  What is used of it is documented: a text of printable
characters that ends before the right edge changes its own cells and no other, and the calls
that show a pad leave it as it is.  What the library makes of other texts is left open.

## Main definitions

* `Curses`, `Curses.Documented` — the library, and what is used of it.
* `Shows` — a row of the pad shows a process.
* `Plain` — a process whose row stays within its columns.
* `uiStart_pad` — the pad after a run.
* `grid` — a library as documented.
-/

namespace Ctm
namespace Tui
open ProcessList

/-- A character that takes one cell. -/
def printable (c : UInt8) : Bool := 32 ≤ c && c ≤ 126

/-- The curses library, as far as it is about the pad. -/
structure Curses (ω : Type*) where
  /-- What a call makes of the pad. -/
  call : ω → Call → ω
  rows : ω → ℕ
  cols : ω → ℕ
  /-- The `n` characters from column `x` of row `y` on. -/
  text : ω → ℕ → ℕ → ℕ → List UInt8

variable {ω : Type*} {c : Curses ω} {pad pad' : ω} {p : Process} {y y' x : ℕ} {text : List UInt8}

namespace Curses

/-- Row `y` of the pad stays as it is. -/
structure SameRow (c : Curses ω) (pad pad' : ω) (y : ℕ) : Prop where
  rows : c.rows pad' = c.rows pad
  cols : c.cols pad' = c.cols pad
  text : ∀ x n, x + n ≤ c.cols pad → c.text pad' y x n = c.text pad y x n

/-- What the library documents. -/
structure Documented (c : Curses ω) : Prop where
  /-- A new pad is blank. -/
  newpad : ∀ pad rows (cols : ℤ), 0 < cols →
    c.rows (c.call pad (.newpad rows cols)) = rows ∧
    c.cols (c.call pad (.newpad rows cols)) = cols.toNat ∧
    ∀ y x n, x + n ≤ cols.toNat →
      c.text (c.call pad (.newpad rows cols)) y x n = List.replicate n 32
  /-- A text that ends before the right edge is read where it was printed. -/
  printed : ∀ pad y x text, text.all printable = true → y < c.rows pad →
    x + text.length ≤ c.cols pad →
      c.text (c.call pad (.mvwprintw y x text)) y x text.length = text
  /-- It changes nothing before it or behind it. -/
  beside : ∀ pad y x text, text.all printable = true → x + text.length ≤ c.cols pad →
    ∀ x' n, x' + n ≤ c.cols pad → x' + n ≤ x ∨ x + text.length ≤ x' →
      c.text (c.call pad (.mvwprintw y x text)) y x' n = c.text pad y x' n
  /-- It changes no other row. -/
  otherRow : ∀ pad y x text, text.all printable = true → x + text.length ≤ c.cols pad →
    ∀ y', y' ≠ y → c.SameRow pad (c.call pad (.mvwprintw y x text)) y'
  /-- A horizontal line is drawn in its row. -/
  hline : ∀ pad y x ch n, x ≤ c.cols pad →
    ∀ y', y' ≠ y → c.SameRow pad (c.call pad (.mvwhline y x ch n)) y'
  /-- Showing the pad or the standard screen leaves the pad as it is. -/
  shown : ∀ pad a b d e f g, c.call pad (.prefresh a b d e f g) = pad
  clrtoeol : ∀ pad, c.call pad .clrtoeol = pad
  refresh : ∀ pad, c.call pad .refresh = pad

theorem SameRow.refl (pad : ω) (y : ℕ) : c.SameRow pad pad y := ⟨rfl, rfl, fun _ _ _ => rfl⟩

theorem SameRow.trans {pad'' : ω} (h : c.SameRow pad pad' y) (h' : c.SameRow pad' pad'' y) :
    c.SameRow pad pad'' y where
  rows := h'.rows.trans h.rows
  cols := h'.cols.trans h.cols
  text x n hn := (h'.text x n (by rw [h.cols]; exact hn)).trans (h.text x n hn)

end Curses

/-- A text stands in row `y` from column `x` on. -/
def Reads (c : Curses ω) (pad : ω) (y x : ℕ) (text : List UInt8) : Prop :=
  c.text pad y x text.length = text

/-- A row of the pad shows a process whose state has the word `word`. -/
structure Shows (c : Curses ω) (pad : ω) (y : ℕ) (p : Process) : Prop where
  pid : Reads c pad y 1 (leftJustify 6 (signedText p.pid.toInt))
  name : Reads c pad y 8 (leftJustify 50 p.data.name)
  state : ∀ word ∈ stateName p.data.state, Reads c pad y 59 (leftJustify 10 word)

/-- A process whose row stays within its columns: its pid is no larger than the kernel's
pids, its name is short and printable, and its state has a word. -/
structure Plain (p : Process) : Prop where
  pid : p.pid.toNat ≤ 4194304
  name_length : p.data.name.length ≤ 50
  name_printable : p.data.name.all printable = true
  state : (stateName p.data.state).isSome = true

/-- The pad is as wide and as high as the interface needs. -/
structure Wide (c : Curses ω) (pad : ω) : Prop where
  rows : c.rows pad = padRows
  cols : 73 ≤ c.cols pad

/-! ## One call -/

theorem printable_leftJustify {width : ℕ} (h : text.all printable = true) :
    (leftJustify width text).all printable = true := by
  rw [leftJustify, List.all_append, h, Bool.true_and, List.all_eq_true]
  intro c hc
  rw [List.eq_of_mem_replicate hc]
  rfl

theorem printable_of_isdigit {c : UInt8} (hc : isdigit c = true) : printable c = true := by
  obtain ⟨hlow, hhigh⟩ := toNat_of_isdigit hc
  simp only [printable, Bool.and_eq_true, decide_eq_true_eq, UInt8.le_iff_toNat_le]
  change 32 ≤ c.toNat ∧ c.toNat ≤ 126
  omega

/-- The pid of a plain process is printed within its column. -/
theorem Plain.pidText (h : Plain p) :
    signedText p.pid.toInt = unsignedText p.pid.toNat ∧ (unsignedText p.pid.toNat).length ≤ 7 := by
  have hpid := h.pid
  constructor
  · have hint : p.pid.toInt = (p.pid.toNat : ℤ) := by
      rw [BitVec.toInt_eq_toNat_cond, if_pos (by omega)]
    rw [hint]
    rfl
  · rw [length_unsignedText_le (by omega)]
    omega

/-! ## Rows that stay as they are -/

theorem Wide.of_sameRow (W : Wide c pad) (h : c.SameRow pad pad' y) : Wide c pad' :=
  ⟨h.rows.trans W.rows, h.cols ▸ W.cols⟩

theorem Reads.of_sameRow (h : Reads c pad y x text) (hs : x + text.length ≤ c.cols pad)
    (hsame : c.SameRow pad pad' y) : Reads c pad' y x text := (hsame.text x _ hs).trans h

/-- The columns of a plain process. -/
theorem Plain.columns (h : Plain p) :
    1 + (leftJustify 6 (signedText p.pid.toInt)).length ≤ 8 ∧
      8 + (leftJustify 50 p.data.name).length ≤ 59 ∧
      ∀ word ∈ stateName p.data.state, 59 + (leftJustify 10 word).length ≤ 73 := by
  obtain ⟨htext, hlen⟩ := h.pidText
  have hname := h.name_length
  rw [htext, length_leftJustify, length_leftJustify]
  refine ⟨by omega, by omega, ?_⟩
  intro word hword
  have hshort := (of_mem_stateName hword).1
  rw [length_leftJustify]
  omega

/-- The texts of a plain process are printable. -/
theorem Plain.printable_texts (h : Plain p) :
    (leftJustify 6 (signedText p.pid.toInt)).all printable = true ∧
      (leftJustify 50 p.data.name).all printable = true ∧
      ∀ word ∈ stateName p.data.state, (leftJustify 10 word).all printable = true := by
  refine ⟨printable_leftJustify ?_, printable_leftJustify h.name_printable, ?_⟩
  · rw [h.pidText.1, List.all_eq_true]
    intro c hc
    exact printable_of_isdigit (isdigit_of_mem_unsignedText hc)
  · intro word hword
    apply printable_leftJustify
    rw [List.all_eq_true]
    intro c hc
    simpa [printable] using (of_mem_stateName hword).2 c hc

theorem Shows.of_sameRow (h : Shows c pad y p) (hp : Plain p) (W : Wide c pad)
    (hsame : c.SameRow pad pad' y) : Shows c pad' y p := by
  obtain ⟨hpid, hname, hstate⟩ := hp.columns
  have hcols := W.cols
  refine ⟨h.pid.of_sameRow (by omega) hsame, h.name.of_sameRow (by omega) hsame, ?_⟩
  intro word hword
  have := hstate word hword
  exact (h.state word hword).of_sameRow (by omega) hsame

/-! ## The calls of a round -/

/-- A row is drawn over what stood there, and no other row changes. -/
theorem rowCalls_pad (D : c.Documented) (locals : Locals) (y : ℕ) (hp : Plain p) (W : Wide c pad) :
    (y < padRows → Shows c ((rowCalls locals y p).foldl c.call pad) y p) ∧
      ∀ y', y' ≠ y → c.SameRow pad ((rowCalls locals y p).foldl c.call pad) y' := by
  obtain ⟨hpid, hname, hstate⟩ := hp.columns
  obtain ⟨word, hword⟩ := Option.isSome_iff_exists.mp hp.state
  have hcols := W.cols
  have hword' := hstate word hword
  have htake : p.data.name.take 255 = p.data.name :=
    List.take_of_length_le (hp.name_length.trans (by omega))
  obtain ⟨hpidText, hnameText, hstateText⟩ := hp.printable_texts
  have hwordText := hstateText word hword
  let pad₁ := c.call pad (.mvwprintw y 1 (leftJustify 6 (signedText p.pid.toInt)))
  let pad₂ := c.call pad₁ (.mvwprintw y 8 (leftJustify 50 p.data.name))
  let pad₃ := c.call pad₂ (.mvwprintw y 59 (leftJustify 10 word))
  have hrow : (rowCalls locals y p).foldl c.call pad = pad₃ := by
    simp only [rowCalls, htake, hword, Option.getD_some, List.foldl_cons, List.foldl_nil, pad₁,
      pad₂, pad₃]
  have hsame₁ : ∀ y', y' ≠ y → c.SameRow pad pad₁ y' :=
    D.otherRow pad y 1 _ hpidText (by omega)
  have W₁ : Wide c pad₁ := W.of_sameRow (hsame₁ (y + 1) (Nat.succ_ne_self y))
  have hcols₁ := W₁.cols
  have hsame₂ : ∀ y', y' ≠ y → c.SameRow pad₁ pad₂ y' :=
    D.otherRow pad₁ y 8 _ hnameText (by omega)
  have W₂ : Wide c pad₂ := W₁.of_sameRow (hsame₂ (y + 1) (Nat.succ_ne_self y))
  have hcols₂ := W₂.cols
  have hsame₃ : ∀ y', y' ≠ y → c.SameRow pad₂ pad₃ y' :=
    D.otherRow pad₂ y 59 _ hwordText (by omega)
  rw [hrow]
  refine ⟨fun hy => ⟨?_, ?_, ?_⟩,
    fun y' hne => ((hsame₁ y' hne).trans (hsame₂ y' hne)).trans (hsame₃ y' hne)⟩
  · -- Each text ends before the column of the next one.
    have hread : Reads c pad₁ y 1 (leftJustify 6 (signedText p.pid.toInt)) :=
      D.printed pad y 1 _ hpidText (W.rows ▸ hy) (by omega)
    rw [Reads, D.beside pad₂ y 59 _ hwordText (by omega) _ _ (by omega) (.inl (by omega)),
      D.beside pad₁ y 8 _ hnameText (by omega) _ _ (by omega) (.inl (by omega))]
    exact hread
  · have hread : Reads c pad₂ y 8 (leftJustify 50 p.data.name) :=
      D.printed pad₁ y 8 _ hnameText (W₁.rows ▸ hy) (by omega)
    rw [Reads, D.beside pad₂ y 59 _ hwordText (by omega) _ _ (by omega) (.inl (by omega))]
    exact hread
  · intro word' hword'
    obtain rfl : word = word' := Option.some.inj (hword.symm.trans hword')
    exact D.printed pad₂ y 59 _ hwordText (W₂.rows ▸ hy) (by omega)

/-- The rows of a round. -/
theorem rowsCalls_pad (D : c.Documented) (stack : ℕ → Locals) (y : ℕ) {ps : List Process}
    (hps : ∀ p ∈ ps, Plain p) (W : Wide c pad) :
    (∀ i (hi : i < ps.length), y + i < padRows →
        Shows c ((rowsCalls stack y ps).foldl c.call pad) (y + i) ps[i]) ∧
      ∀ y', y' < y ∨ y + ps.length ≤ y' →
        c.SameRow pad ((rowsCalls stack y ps).foldl c.call pad) y' := by
  induction ps generalizing y pad with
  | nil => exact ⟨fun i hi => absurd hi (Nat.not_lt_zero i), fun y' _ => .refl pad y'⟩
  | cons p ps ih =>
      have hp : Plain p := hps p List.mem_cons_self
      obtain ⟨hshows, hsame⟩ := rowCalls_pad D (stack y) y hp W
      have W₁ : Wide c ((rowCalls (stack y) y p).foldl c.call pad) :=
        W.of_sameRow (hsame (y + 1) (by omega))
      obtain ⟨hshows₂, hsame₂⟩ := ih (y + 1) (fun p' hp' => hps p' (List.mem_cons_of_mem _ hp')) W₁
      rw [rowsCalls, List.foldl_append]
      refine ⟨?_, ?_⟩
      · intro i hi hy
        cases i with
        | zero => exact (hshows hy).of_sameRow hp W₁ (hsame₂ y (.inl (by omega)))
        | succ i =>
            have hrest := hshows₂ i (by simpa using hi) (by omega)
            rwa [show y + 1 + i = y + (i + 1) by omega] at hrest
      · intro y' hy'
        rw [List.length_cons] at hy'
        exact (hsame y' (by omega)).trans (hsame₂ y' (by omega))

/-- The header is drawn in the first two rows. -/
theorem headerCalls_pad (D : c.Documented) (W : Wide c pad) :
    ∀ y', 2 ≤ y' → c.SameRow pad (headerCalls.foldl c.call pad) y' := by
  have hcall : ∀ a ∈ headerCalls, ∀ pad, 73 ≤ c.cols pad →
      ∀ y', 2 ≤ y' → c.SameRow pad (c.call pad a) y' := by
    intro a ha pad hpad
    simp only [headerCalls, List.mem_cons, List.not_mem_nil, or_false] at ha
    rcases ha with rfl | rfl | rfl | rfl | rfl | rfl | rfl
    · exact fun y' hy' =>
        D.otherRow pad 0 1 (leftJustify 6 [80, 73, 68]) rfl (show 1 + 6 ≤ _ by omega) y' (by omega)
    · exact fun y' hy' => D.hline pad 1 1 45 6 (by omega) y' (by omega)
    · exact fun y' hy' =>
        D.otherRow pad 0 8 (leftJustify 50 [78, 97, 109, 101]) rfl (show 8 + 50 ≤ _ by omega) y'
          (by omega)
    · exact fun y' hy' => D.hline pad 1 8 45 50 (by omega) y' (by omega)
    · exact fun y' hy' =>
        D.otherRow pad 0 59 (leftJustify 10 [83, 116, 97, 116, 101]) rfl
          (show 59 + 10 ≤ _ by omega) y' (by omega)
    · exact fun y' hy' => D.hline pad 1 59 45 10 (by omega) y' (by omega)
    · intro y' _
      rw [D.clrtoeol]
      exact .refl pad y'
  have hcols := W.cols
  generalize headerCalls = calls at hcall
  induction calls generalizing pad with
  | nil => exact fun y' _ => .refl pad y'
  | cons a calls ih =>
      have hsame := hcall a List.mem_cons_self pad hcols
      have W₁ : Wide c (c.call pad a) := W.of_sameRow (hsame 2 le_rfl)
      intro y' hy'
      exact (hsame y' hy').trans
        (ih W₁ W₁.cols (fun b hb => hcall b (List.mem_cons_of_mem _ hb)) y' hy')

/-! ## Runs -/

/-- What the rounds so far have left on the pad. -/
structure Layered (c : Curses ω) (pad : ω) (history : List (List Process)) : Prop where
  wide : Wide c pad
  shows : ∀ i p, i + 2 < padRows → Layers.latest history i = some p →
    Plain p ∧ Shows c pad (i + 2) p
  blank : ∀ i, Layers.latest history i = none →
    c.text pad (i + 2) 0 (c.cols pad) = List.replicate (c.cols pad) 32

/-- One round adds a layer. -/
theorem Layered.draw (D : c.Documented) {history : List (List Process)} {v : View} {frame : Frame}
    (L : Layered c pad history) (hplain : ∀ p ∈ v.rows frame, Plain p) :
    Layered c ((v.draw frame).foldl c.call pad) (history ++ [v.rows frame]) := by
  have hsame₁ := headerCalls_pad D L.wide
  have W₁ : Wide c (headerCalls.foldl c.call pad) := L.wide.of_sameRow (hsame₁ 2 le_rfl)
  obtain ⟨hshows, hsame₂⟩ := rowsCalls_pad D frame.stack initialDataRowNum hplain W₁
  have hinit : initialDataRowNum = 2 := rfl
  have hdraw : (v.draw frame).foldl c.call pad =
      (rowsCalls frame.stack initialDataRowNum (v.rows frame)).foldl c.call
        (headerCalls.foldl c.call pad) := by
    simp only [View.draw, View.showCall, List.foldl_append, List.foldl_cons, List.foldl_nil, D.shown]
  rw [hdraw]
  generalize (rowsCalls frame.stack initialDataRowNum (v.rows frame)).foldl c.call
    (headerCalls.foldl c.call pad) = pad₂ at hshows hsame₂
  -- A row behind those of this round stays as it was.
  have hsame : ∀ i, (v.rows frame).length ≤ i → c.SameRow pad pad₂ (i + 2) := by
    intro i hi
    exact (hsame₁ (i + 2) (by omega)).trans (hsame₂ (i + 2) (.inr (by omega)))
  refine ⟨W₁.of_sameRow (hsame₂ 0 (.inl (by omega))), ?_, ?_⟩
  · intro i p hi hlatest
    rcases Nat.lt_or_ge i (v.rows frame).length with hlt | hge
    · rw [Layers.latest_concat_of_lt hlt] at hlatest
      obtain rfl := Option.some.inj hlatest
      have hrow := hshows i hlt (by omega)
      rw [hinit, Nat.add_comm] at hrow
      exact ⟨hplain _ (List.getElem_mem hlt), hrow⟩
    · rw [Layers.latest_concat_of_le hge] at hlatest
      obtain ⟨hp, hrow⟩ := L.shows i p hi hlatest
      exact ⟨hp, hrow.of_sameRow hp L.wide (hsame i hge)⟩
  · intro i hlatest
    have hge : (v.rows frame).length ≤ i :=
      Layers.latest_eq_none.mp hlatest _ (by simp)
    rw [Layers.latest_concat_of_le hge] at hlatest
    have hkeep := hsame i hge
    rw [hkeep.cols, hkeep.text 0 _ (by omega)]
    exact L.blank i hlatest

/-- The rounds of a run. -/
theorem Layered.draws (D : c.Documented) {rounds : List (View × Frame)}
    {history : List (List Process)} (L : Layered c pad history)
    (hplain : ∀ r ∈ rounds, ∀ p ∈ r.1.rows r.2, Plain p) :
    Layered c ((View.draws rounds).foldl c.call pad)
      (history ++ rounds.map fun r => r.1.rows r.2) := by
  induction rounds generalizing pad history with
  | nil => simpa [View.draws] using L
  | cons r rounds ih =>
      have L₁ := L.draw D (hplain r List.mem_cons_self)
      have L₂ := ih L₁ fun r' hr' => hplain r' (List.mem_cons_of_mem _ hr')
      rw [View.draws, List.flatMap_cons, List.foldl_append]
      simpa [View.draws] using L₂

/-- The pad before the first round. -/
theorem startCalls_pad (D : c.Documented) (lines : ℤ) {cols : ℤ} (hcols : 73 ≤ cols) (pad : ω) :
    Layered c ((startCalls lines cols).foldl c.call pad) [] := by
  obtain ⟨hrows, hwidth, hblank⟩ := D.newpad pad padRows cols (by omega)
  have W : Wide c (c.call pad (.newpad padRows cols)) := ⟨hrows, by rw [hwidth]; omega⟩
  have hsame := headerCalls_pad D W
  have hstart : (startCalls lines cols).foldl c.call pad =
      headerCalls.foldl c.call (c.call pad (.newpad padRows cols)) := by
    simp only [startCalls, List.cons_append, List.foldl_cons, List.foldl_append, List.foldl_nil,
      D.shown, D.refresh]
  rw [hstart]
  refine ⟨W.of_sameRow (hsame 2 le_rfl), ?_, ?_⟩
  · intro i p _ hlatest
    cases hlatest
  · intro i _
    have hkeep := hsame (i + 2) (by omega)
    rw [hkeep.cols, hkeep.text 0 _ (by omega), hwidth]
    exact hblank (i + 2) 0 _ (by omega)

/-- The pad after a run holds the layers of its rounds. -/
theorem uiStart_layered (D : c.Documented) (m : Memory) (lines cols : ℤ) (frames : List Frame)
    (pad : ω) {list fuel : ℕ} {h : Heap ℕ} {malloc : Option ℕ}
    (hinit : m.heap.listInit list malloc = some h) (hused : list ∈ m.used)
    (hnames : ∀ frame ∈ frames, ∀ e ∈ frame.dir.getD [], ValidName e.name)
    (hfuel : (frames.map fun frame => (frame.dir.getD []).length).sum < fuel)
    (hcols : 73 ≤ cols)
    (hplain : ∀ r ∈ ((View.start lines cols).run frames).2.1, ∀ p ∈ r.1.rows r.2, Plain p) :
    ∃ s, uiStart list malloc fuel m lines cols frames =
        some (((View.start lines cols).run frames).1, s) ∧
      Layered c (s.calls.foldl c.call pad)
        (((View.start lines cols).run frames).2.1.map fun r => r.1.rows r.2) := by
  obtain ⟨s, hrun, hcalls, -⟩ := uiStart_spec m lines cols frames hinit hused hnames hfuel
  have L := (startCalls_pad D lines hcols pad).draws D hplain
  refine ⟨s, hrun, ?_⟩
  rw [hcalls, List.foldl_append]
  exact L

/-- **What stands on the pad after a run.**  On a terminal of 73 columns or more, and when every
process drawn is plain: row `i + 2` shows the process drawn there by the last round that drew
more than `i` rows, be it of this round or not, and is blank when there was none; only the first
98 processes of a round have a row. -/
theorem uiStart_pad (D : c.Documented) (m : Memory) (lines cols : ℤ) (frames : List Frame)
    (pad : ω) {list fuel : ℕ} {h : Heap ℕ} {malloc : Option ℕ}
    (hinit : m.heap.listInit list malloc = some h) (hused : list ∈ m.used)
    (hnames : ∀ frame ∈ frames, ∀ e ∈ frame.dir.getD [], ValidName e.name)
    (hfuel : (frames.map fun frame => (frame.dir.getD []).length).sum < fuel)
    (hcols : 73 ≤ cols)
    (hplain : ∀ r ∈ ((View.start lines cols).run frames).2.1, ∀ p ∈ r.1.rows r.2, Plain p) :
    ∃ s pad', uiStart list malloc fuel m lines cols frames =
        some (((View.start lines cols).run frames).1, s) ∧
      s.calls.foldl c.call pad = pad' ∧
      ∀ i, i < 98 →
        (∀ p, Layers.latest (((View.start lines cols).run frames).2.1.map fun r => r.1.rows r.2) i =
          some p → Shows c pad' (i + 2) p) ∧
        (Layers.latest (((View.start lines cols).run frames).2.1.map fun r => r.1.rows r.2) i =
          none → c.text pad' (i + 2) 0 (c.cols pad') = List.replicate (c.cols pad') 32) := by
  obtain ⟨s, hrun, L⟩ :=
    uiStart_layered D m lines cols frames pad hinit hused hnames hfuel hcols hplain
  have hrows : padRows = 100 := rfl
  refine ⟨s, _, hrun, rfl, ?_⟩
  intro i hi
  exact ⟨fun p hlatest => (L.shows i p (by omega) hlatest).2, L.blank i⟩

instance : DecidablePred Plain := fun p =>
  decidable_of_iff (p.pid.toNat ≤ 4194304 ∧ p.data.name.length ≤ 50 ∧
      p.data.name.all printable = true ∧ (stateName p.data.state).isSome = true)
    ⟨fun h => ⟨h.1, h.2.1, h.2.2.1, h.2.2.2⟩,
      fun h => ⟨h.pid, h.name_length, h.name_printable, h.state⟩⟩

/-- A library whose pads are rectangles of characters. -/
def grid : Curses (Pad UInt8) where
  call pad
    | .newpad rows cols => Pad.blank rows cols.toNat 32
    | .mvwprintw y x text => pad.addstr y x text
    | .mvwhline y x ch n => pad.hline y x ch n
    | .prefresh _ _ _ _ _ _ => pad
    | .clrtoeol => pad
    | .refresh => pad
  rows := Pad.rows
  cols := Pad.cols
  text := Pad.text

theorem grid_documented : grid.Documented where
  newpad _ _ _ _ := ⟨rfl, rfl, fun _ _ _ _ => by simp [grid, Pad.text, Pad.char, Pad.blank]⟩
  printed _ _ _ _ _ hy hs := Pad.text_addstr hs hy
  beside _ _ _ _ _ hs _ _ hn hdisjoint := Pad.text_addstr_of_disjoint hs hn (.inr hdisjoint)
  otherRow _ _ _ _ _ hs _ hne :=
    ⟨Pad.rows_addstr, Pad.cols_addstr, fun _ _ hn => Pad.text_addstr_of_disjoint hs hn (.inl hne)⟩
  hline _ _ _ _ _ hx _ hne :=
    ⟨Pad.rows_hline, Pad.cols_hline, fun _ _ hn => Pad.text_hline_of_ne hx hn hne⟩
  shown _ _ _ _ _ _ _ := rfl
  clrtoeol _ := rfl
  refresh _ := rfl

/-- After the second round process 7 is gone, and row 5 still shows it. -/
theorem uiStart_pad_two : ∃ s pad,
    uiStart 0 (some 1) 9 ⟨⟨fun _ => some ⟨none, none, none⟩, fun _ => none⟩, fun _ => none, [0]⟩
        24 80 twoFrames = some (true, s) ∧
      s.calls.foldl grid.call (Pad.blank 0 0 0) = pad ∧
      Shows grid pad 2 ⟨8, sleeper, false⟩ ∧ Shows grid pad 5 ⟨7, sleeper, true⟩ := by
  have hread : (⟨fun _ => some ⟨none, none, none⟩, fun _ => none⟩ : Heap ℕ).Readable 0 :=
    Option.some_ne_none _
  obtain ⟨h, hinit, -, -⟩ := Heap.listInit_spec hread 1
  have hplain : ∀ r ∈ ((View.start 24 80).run twoFrames).2.1, ∀ p ∈ r.1.rows r.2, Plain p := by
    decide +kernel
  obtain ⟨s, pad, hrun, hpad, hrows⟩ := uiStart_pad grid_documented
    ⟨⟨fun _ => some ⟨none, none, none⟩, fun _ => none⟩, fun _ => none, [0]⟩ 24 80 twoFrames
    (Pad.blank 0 0 0) hinit List.mem_cons_self twoFrames_names twoFrames_fuel (by decide) hplain
  exact ⟨s, pad, hrun, hpad, (hrows 0 (by decide)).1 _ rfl, (hrows 3 (by decide)).1 _ rfl⟩

end Tui
end Ctm
