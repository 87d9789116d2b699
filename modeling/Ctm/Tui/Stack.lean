import Ctm.Tui.Rows

/-!
# What the stack shows

`process_state` leaves the buffer alone when it has no word for the state, and
`render_process` prints the buffer all the same.  So what a run draws depends on what the
stack happens to hold exactly when it draws such a process.

## Main definitions

* `Frame.forget` — a round without what the stack holds.
* `Blind` — what a run draws does not depend on the stack.
* `blind_iff` — when a run is blind.
-/

namespace Ctm
namespace Tui
open ProcessList

/-- The round with nothing on the stack. -/
def Frame.forget (frame : Frame) : Frame := { frame with stack := fun _ => ⟨0, [], []⟩ }

/-- The round with the same bytes on the stack wherever `process_state` is given its buffer. -/
def Frame.fill (state : List UInt8) (frame : Frame) : Frame :=
  { frame with stack := fun _ => ⟨0, [], state⟩ }

/-- What a run draws does not depend on what the stack holds. -/
def Blind (list : ℕ) (malloc : Option ℕ) (fuel : ℕ) (m : Memory) (lines cols : ℤ)
    (frames : List Frame) : Prop :=
  ∀ frames₁ frames₂ b₁ b₂ s₁ s₂, frames₁.map Frame.forget = frames.map Frame.forget →
    frames₂.map Frame.forget = frames.map Frame.forget →
    uiStart list malloc fuel m lines cols frames₁ = some (b₁, s₁) →
    uiStart list malloc fuel m lines cols frames₂ = some (b₂, s₂) → s₁.calls = s₂.calls

/-- Every process that the run draws has a state with a word. -/
def Worded (rounds : List (View × Frame)) : Prop :=
  ∀ r ∈ rounds, ∀ p ∈ r.1.rows r.2, (stateName p.data.state).isSome = true

variable {v : View} {frames frames' : List Frame} {frame frame' : Frame}

/-! ## Runs that differ in the stack only -/

/-- The round as the stack does not see it. -/
def forgetRound (r : View × Frame) : View × Frame := (r.1, r.2.forget)

theorem next_of_forget (h : frame.forget = frame'.forget) : v.next frame = v.next frame' := by
  simp only [Frame.forget, Frame.mk.injEq] at h
  obtain ⟨hdir, -, hch, hlines, hcols⟩ := h
  simp only [View.next, hdir, hch, hlines, hcols]

/-- The rounds are the same but for the stack. -/
theorem rounds_of_forget (h : frames.map Frame.forget = frames'.map Frame.forget) :
    (v.run frames).2.1.map forgetRound = (v.run frames').2.1.map forgetRound := by
  induction frames generalizing v frames' with
  | nil =>
      obtain rfl := List.map_eq_nil_iff.mp h.symm
      rfl
  | cons frame frames ih =>
      obtain ⟨frame', rest, rfl, hframe, hrest⟩ := List.map_eq_cons_iff.mp h.symm
      have hch : frame.ch = frame'.ch := by
        simp only [Frame.forget, Frame.mk.injEq] at hframe
        exact hframe.2.2.1.symm
      have hnext : v.next frame = v.next frame' := next_of_forget hframe.symm
      simp only [View.run, hch]
      split
      · simp [forgetRound, hframe]
      · simp only [List.map_cons, forgetRound, hframe, hnext]
        exact congrArg _ (ih hrest.symm)

theorem worded_iff {rounds rounds' : List (View × Frame)}
    (h : rounds.map forgetRound = rounds'.map forgetRound) : Worded rounds ↔ Worded rounds' := by
  have hforget : ∀ rounds, Worded rounds ↔ Worded (rounds.map forgetRound) := by
    intro rounds
    simp only [Worded, List.forall_mem_map]
    rfl
  rw [hforget, h, ← hforget]

/-- A row whose state has a word does not show the stack. -/
theorem rowsCalls_of_worded {ps : List Process} {stack stack' : ℕ → Locals} (y : ℕ)
    (h : ∀ p ∈ ps, (stateName p.data.state).isSome = true) :
    rowsCalls stack y ps = rowsCalls stack' y ps := by
  induction ps generalizing y with
  | nil => rfl
  | cons p ps ih =>
      obtain ⟨word, hword⟩ := Option.isSome_iff_exists.mp (h p List.mem_cons_self)
      rw [rowsCalls, rowsCalls, ih (y + 1) fun q hq => h q (List.mem_cons_of_mem _ hq), rowCalls,
        rowCalls, hword]
      rfl

/-- Rounds that draw processes with words only do not show the stack. -/
theorem draws_of_worded {rounds rounds' : List (View × Frame)}
    (h : rounds.map forgetRound = rounds'.map forgetRound) (hworded : Worded rounds) :
    View.draws rounds = View.draws rounds' := by
  have hforget : ∀ rounds, Worded rounds →
      View.draws rounds = View.draws (rounds.map forgetRound) := by
    intro rounds hworded
    rw [View.draws, View.draws, List.flatMap_map]
    refine List.flatMap_congr fun r hr => ?_
    simp only [View.draw, forgetRound]
    rw [rowsCalls_of_worded _ (hworded r hr)]
    rfl
  rw [hforget rounds hworded, h, ← hforget rounds' ((worded_iff h).mp hworded)]

/-! ## A mark on the stack -/

theorem rounds_fill (v : View) (frames : List Frame) (state : List UInt8) :
    (v.run (frames.map (Frame.fill state))).2.1 =
      (v.run frames).2.1.map fun r => (r.1, r.2.fill state) := by
  induction frames generalizing v with
  | nil => rfl
  | cons frame frames ih =>
      have hnext : v.next (frame.fill state) = v.next frame := rfl
      have hch : (frame.fill state).ch = frame.ch := rfl
      simp only [List.map_cons, View.run, hch, hnext]
      split
      · rfl
      · rw [List.map_cons, ih]

/-- A call that prints a text with the byte 1 in front, in the column of the states. -/
def Marked (c : Call) : Prop := ∃ y text, c = .mvwprintw y 59 (1 :: text)

/-- A process without a word shows the mark. -/
theorem exists_marked {ps : List Process} (y : ℕ) {p : Process} (hp : p ∈ ps)
    (hword : stateName p.data.state = none) :
    ∃ c ∈ rowsCalls (fun _ => ⟨0, [], [1]⟩) y ps, Marked c := by
  induction ps generalizing y with
  | nil => cases hp
  | cons q ps ih =>
      rcases List.mem_cons.mp hp with rfl | hp
      · refine ⟨.mvwprintw y 59 (leftJustify 10 [1]), ?_, y, _, rfl⟩
        rw [rowsCalls, rowCalls, hword]
        simp
      · obtain ⟨c, hc, hmarked⟩ := ih (y + 1) hp
        exact ⟨c, List.mem_append_right _ hc, hmarked⟩

/-- Without the mark on the stack no row shows it. -/
theorem not_marked {ps : List Process} (y : ℕ) {c : Call}
    (hc : c ∈ rowsCalls (fun _ => ⟨0, [], [2]⟩) y ps) : ¬ Marked c := by
  induction ps generalizing y with
  | nil => cases hc
  | cons p ps ih =>
      rw [rowsCalls, List.mem_append] at hc
      rcases hc with hc | hc
      · rintro ⟨y', text, rfl⟩
        simp only [rowCalls, List.mem_cons, Call.mvwprintw.injEq, List.not_mem_nil, or_false] at hc
        rcases hc with ⟨-, hcol, -⟩ | ⟨-, hcol, -⟩ | ⟨-, -, htext⟩
        · exact absurd hcol (by decide)
        · exact absurd hcol (by decide)
        · cases hword : stateName p.data.state with
          | none =>
              rw [hword] at htext
              exact absurd (List.cons.inj htext).1 (by decide)
          | some word =>
              have hletters := (of_mem_stateName (Option.mem_def.mpr hword)).2
              rw [hword, Option.getD_some, leftJustify] at htext
              cases word with
              | nil => exact absurd (List.cons.inj htext).1 (by decide)
              | cons letter word =>
                  have hone : (1 : UInt8) = letter := (List.cons.inj htext).1
                  have hletter := (hletters letter List.mem_cons_self).1
                  rw [← hone] at hletter
                  exact absurd hletter (by decide)
      · exact ih (y + 1) hc

/-- Rounds that show no mark draw processes with words only. -/
theorem worded_of_draws {rounds : List (View × Frame)}
    (h : View.draws (rounds.map fun r => (r.1, r.2.fill [1])) =
      View.draws (rounds.map fun r => (r.1, r.2.fill [2]))) : Worded rounds := by
  intro r hr p hp
  by_contra hnone
  rw [Option.not_isSome_iff_eq_none] at hnone
  obtain ⟨c, hc, hmarked⟩ := exists_marked initialDataRowNum hp hnone
  have hdrawn : c ∈ View.draws (rounds.map fun r => (r.1, r.2.fill [1])) := by
    refine List.mem_flatMap.mpr ⟨_, List.mem_map_of_mem hr, ?_⟩
    exact List.mem_append_left _ (List.mem_append_right _ hc)
  rw [h] at hdrawn
  obtain ⟨r', hr', hdraw⟩ := List.mem_flatMap.mp hdrawn
  obtain ⟨r₀, -, rfl⟩ := List.mem_map.mp hr'
  rw [View.draw, List.mem_append, List.mem_append] at hdraw
  obtain ⟨y, text, rfl⟩ := hmarked
  rcases hdraw with (hdraw | hdraw) | hdraw
  · simp [headerCalls, leftJustify] at hdraw
  · exact not_marked _ hdraw ⟨y, text, rfl⟩
  · simp [View.showCall] at hdraw

/-- **When a run is blind.**  What a run draws does not depend on what the stack holds exactly
when every process it draws has one of the states with a word. -/
theorem blind_iff (m : Memory) (lines cols : ℤ) (frames : List Frame) {list fuel : ℕ} {h : Heap ℕ}
    {malloc : Option ℕ} (hinit : m.heap.listInit list malloc = some h) (hused : list ∈ m.used)
    (hnames : ∀ frame ∈ frames, ∀ e ∈ frame.dir.getD [], ValidName e.name)
    (hfuel : (frames.map fun frame => (frame.dir.getD []).length).sum < fuel) :
    Blind list malloc fuel m lines cols frames ↔
      Worded ((View.start lines cols).run frames).2.1 := by
  have hspec : ∀ frames' : List Frame, frames'.map Frame.forget = frames.map Frame.forget →
      ∃ s, uiStart list malloc fuel m lines cols frames' =
          some (((View.start lines cols).run frames').1, s) ∧
        s.calls = startCalls lines cols ++ View.draws ((View.start lines cols).run frames').2.1 := by
    intro frames' hforget
    have hdirs : frames'.map Frame.dir = frames.map Frame.dir := by
      have hmap := congrArg (List.map Frame.dir) hforget
      simpa [Function.comp_def, Frame.forget] using hmap
    have hnames' : ∀ frame ∈ frames', ∀ e ∈ frame.dir.getD [], ValidName e.name := by
      intro frame hframe
      have hdir : frame.dir ∈ frames.map Frame.dir := hdirs ▸ List.mem_map_of_mem hframe
      obtain ⟨frame₀, hframe₀, hsame⟩ := List.mem_map.mp hdir
      exact hsame ▸ hnames frame₀ hframe₀
    have hfuel' : (frames'.map fun frame => (frame.dir.getD []).length).sum < fuel := by
      have hlength : ∀ fs : List Frame, fs.map (fun frame => (frame.dir.getD []).length) =
          (fs.map Frame.dir).map fun dir => (dir.getD []).length := by
        intro fs
        rw [List.map_map]
        rfl
      rwa [hlength, hdirs, ← hlength]
    obtain ⟨s, hrun, hcalls, -⟩ := uiStart_spec m lines cols frames' hinit hused hnames' hfuel'
    exact ⟨s, hrun, hcalls⟩
  constructor
  · intro hblind
    have hsame : ∀ state, (frames.map (Frame.fill state)).map Frame.forget =
        frames.map Frame.forget := by
      intro state
      rw [List.map_map]
      rfl
    obtain ⟨s₁, hrun₁, hcalls₁⟩ := hspec _ (hsame [1])
    obtain ⟨s₂, hrun₂, hcalls₂⟩ := hspec _ (hsame [2])
    have hcalls := hblind _ _ _ _ _ _ (hsame [1]) (hsame [2]) hrun₁ hrun₂
    rw [hcalls₁, hcalls₂, rounds_fill, rounds_fill] at hcalls
    exact worded_of_draws (List.append_cancel_left hcalls)
  · intro hworded frames₁ frames₂ b₁ b₂ s₁ s₂ h₁ h₂ hrun₁ hrun₂
    obtain ⟨s₁', hrun₁', hcalls₁⟩ := hspec frames₁ h₁
    obtain ⟨s₂', hrun₂', hcalls₂⟩ := hspec frames₂ h₂
    obtain ⟨-, rfl⟩ := Prod.mk.inj (Option.some.inj (hrun₁.symm.trans hrun₁'))
    obtain ⟨-, rfl⟩ := Prod.mk.inj (Option.some.inj (hrun₂.symm.trans hrun₂'))
    have hrounds := rounds_of_forget (v := View.start lines cols) (h₁.trans h₂.symm)
    have hworded₁ := (worded_iff (rounds_of_forget (v := View.start lines cols) h₁)).mpr hworded
    rw [hcalls₁, hcalls₂, draws_of_worded hrounds hworded₁]

/-- A process that is stopped by its tracer, with the letter `t`. -/
def tracedFrames : List Frame :=
  [⟨some [⟨[55], .success { sleeper with state := 116 }, true, 1⟩], fun _ => ⟨0, [], []⟩, 0, 24, 80⟩]

/-- A run that is blind, and one that is not. -/
theorem blind_iff_traced :
    Blind 0 (some 1) 9 ⟨⟨fun _ => some ⟨none, none, none⟩, fun _ => none⟩, fun _ => none, [0]⟩
      24 80 twoFrames ∧
    ¬ Blind 0 (some 1) 9 ⟨⟨fun _ => some ⟨none, none, none⟩, fun _ => none⟩, fun _ => none, [0]⟩
      24 80 tracedFrames := by
  have hread : (⟨fun _ => some ⟨none, none, none⟩, fun _ => none⟩ : Heap ℕ).Readable 0 :=
    Option.some_ne_none _
  obtain ⟨h, hinit, -, -⟩ := Heap.listInit_spec hread 1
  have hworded : ∀ r ∈ ((View.start 24 80).run twoFrames).2.1, ∀ p ∈ r.1.rows r.2,
      (stateName p.data.state).isSome = true := by decide +kernel
  have htraced : ¬ ∀ r ∈ ((View.start 24 80).run tracedFrames).2.1, ∀ p ∈ r.1.rows r.2,
      (stateName p.data.state).isSome = true := by decide +kernel
  constructor
  · exact (blind_iff ⟨⟨fun _ => some ⟨none, none, none⟩, fun _ => none⟩, fun _ => none, [0]⟩
      24 80 twoFrames hinit List.mem_cons_self twoFrames_names twoFrames_fuel).mpr hworded
  · intro hblind
    exact htraced ((blind_iff ⟨⟨fun _ => some ⟨none, none, none⟩, fun _ => none⟩, fun _ => none, [0]⟩
      24 80 tracedFrames hinit List.mem_cons_self
      (show ∀ frame ∈ tracedFrames, ∀ e ∈ frame.dir.getD [], ValidName e.name by decide)
      (show (tracedFrames.map fun frame => (frame.dir.getD []).length).sum < 9 by decide)).mp hblind)

end Tui
end Ctm
