import Ctm.Lib.Window
import Ctm.RingBuffer.History
import Ctm.Sampler.Basic

/-!
# What the consumers of a sampler see

A consumer should see only completed captures.  The slot of a capture is taken before
the capture is known to succeed, so a failed capture stays in the ring buffer as if it
were a sample.  A read of window `w` is right while no more than `w` captures were made,
and when the last `w + 1` captures all succeeded; `getValue_completed_iff` shows that it
depends on the bytes a failed capture left behind in every other case.

## Main definitions

* `Event`, `run` — iterations of the sampling thread interleaved with reads.
* `valueOf` — the answer a consumer should get, from the completed captures.
* `SeesCompleted`, `Undisturbed` — a read that gets it, and when every read does.
-/

namespace Ctm
namespace Sampler
variable {s s' : Sampler} {xs : List (List UInt8)} {w : ℕ}
  {processFn : List UInt8 → List UInt8 → ℤ}

/-- An iteration of the sampling thread or a read by a consumer, each under the lock. -/
inductive Event
  | iteration (c : Capture)
  | getValue (window : ℕ)

/-- The capture an iteration made. -/
def Event.capture : Event → Option Capture
  | .iteration c => some c
  | .getValue _ => none

/-- One event. -/
def step (processFn : List UInt8 → List UInt8 → ℤ) (s : Sampler) : Event → Option Sampler
  | .iteration c => (s.iteration c).map fun r => r.2
  | .getValue w => (Sampler.getValue (some s) w (some processFn)).map fun _ => s

/-- An interleaving of iterations and reads. -/
def run (processFn : List UInt8 → List UInt8 → ℤ) (s : Sampler) (es : List Event) :
    Option Sampler := es.foldlM (step processFn) s

/-- The captures of a run, newest first. -/
def captures (es : List Event) : List Capture := (es.filterMap Event.capture).reverse

/-- Which captures of a run succeeded, newest first. -/
def outcomes (es : List Event) : List Bool := (captures es).map Capture.ok

/-- The samples of the successful captures of a run, newest first. -/
def samples (es : List Event) : List (List UInt8) :=
  ((captures es).filter Capture.ok).map Capture.slot

/-- The answer to a read of window `w` when the completed captures are `samples`. -/
def valueOf (processFn : List UInt8 → List UInt8 → ℤ) (samples : List (List UInt8)) (w : ℕ) :
    Value :=
  match Window.pair samples w with
  | some (current, previous) => ⟨processFn current previous, none, some (current, previous)⟩
  | none => ⟨-1, some .EAGAIN, none⟩

/-- After the run, a read of window `w` answers from the completed captures alone: it calls
`process_fn` with the newest sample and the one `w` samples earlier, if there are so many. -/
def SeesCompleted (processFn : List UInt8 → List UInt8 → ℤ) (s : Sampler) (es : List Event)
    (w : ℕ) : Prop :=
  ∃ s', run processFn s es = some s' ∧
    getValue (some s') w (some processFn) = some (valueOf processFn (samples es) w)

/-- At most `w` captures were made, or the last `w + 1` all succeeded. -/
def Undisturbed (outcomes : List Bool) (w : ℕ) : Prop :=
  outcomes.length ≤ w ∨ ∀ ok ∈ outcomes.take (w + 1), ok = true

/-- A sampler fresh from `sampler_create` and `sampler_start`. -/
def Started (itemSize : ℕ) (s : Sampler) : Prop :=
  ∃ intervalMs r s₀ thread, create intervalMs itemSize true r = (some s₀, none) ∧
    (start (some s₀) (.created thread)).2 = some s

/-- A running sampler whose captures left `xs` in their slots, newest first. -/
structure Sampling (s : Sampler) (xs : List (List UInt8)) : Prop where
  running : s.isRunning = true
  capacity : s.ringBuffer.capacity = samplerCapacity
  holds : s.ringBuffer.Holds xs.reverse

theorem Started.sampling {itemSize : ℕ} (h : Started itemSize s) :
    Sampling s [] ∧ s.ringBuffer.itemSize = itemSize := by
  obtain ⟨intervalMs, r, s₀, thread, hcreate, hstart⟩ := h
  obtain ⟨hsize, ringBuffer, hring, rfl⟩ := create_eq_some hcreate
  obtain rfl := Option.some.inj hstart
  have H := RingBuffer.Holds.alloc hring (by decide) (by omega)
  obtain ⟨-, rfl⟩ := RingBuffer.alloc_eq_some hring
  exact ⟨⟨rfl, rfl, H⟩, rfl⟩

theorem Started.itemSize_pos {itemSize : ℕ} (h : Started itemSize s) : 0 < itemSize := by
  obtain ⟨H, hsize⟩ := h.sampling
  rw [← hsize]
  exact H.holds.itemSize_pos

/-- An iteration keeps the bytes its capture left. -/
theorem iteration_spec (H : Sampling s xs) {c : Capture}
    (hc : c.slot.length = s.ringBuffer.itemSize) :
    ∃ s', s.iteration c = some (some c.ok, s') ∧ Sampling s' (c.slot :: xs) ∧
      s'.ringBuffer.itemSize = s.ringBuffer.itemSize := by
  obtain ⟨rb, hwrite, hholds, hcap, hsize⟩ := RingBuffer.write_spec H.holds hc
  refine ⟨{ s with ringBuffer := rb }, ?_, ⟨H.running, hcap.trans H.capacity, ?_⟩, hsize⟩
  · rw [iteration, H.running, hwrite]
    rfl
  · rw [List.reverse_cons]
    exact hholds

/-- Offset `o` of the ring buffer is the `o`-th newest of the captures. -/
theorem peek_sampling (H : Sampling s xs) {o : ℕ} (h : o < min xs.length samplerCapacity) :
    ∃ slot, s.ringBuffer.peek o = some (some slot, none) ∧ s.ringBuffer.item slot = xs[o]? := by
  obtain ⟨slot, hpeek, hitem⟩ := RingBuffer.peek_holds H.holds (o := o)
    (by rw [List.length_reverse, H.capacity]; exact h)
  refine ⟨slot, hpeek, ?_⟩
  rw [hitem, List.length_reverse, List.getElem?_reverse (by omega)]
  congr 1
  omega

/-- A read of a window answers from whatever the last captures left, failed or not. -/
theorem getValue_sampling (processFn : List UInt8 → List UInt8 → ℤ) (H : Sampling s xs)
    (hw : 1 ≤ w) :
    getValue (some s) w (some processFn) = some (if w < samplerCapacity then
      valueOf processFn xs w else ⟨-1, some .EAGAIN, none⟩) := by
  have hempty : ∀ o, min xs.length samplerCapacity ≤ o →
      s.ringBuffer.peek o = some (none, some .EINVAL) := by
    intro o ho
    refine RingBuffer.peek_of_le H.holds.toAdvanced ?_
    rw [List.length_reverse, H.capacity]
    exact ho
  simp only [getValue, if_neg (show w ≠ 0 by omega)]
  by_cases hlt : w < min xs.length samplerCapacity
  · obtain ⟨cur, hcur, hcurItem⟩ := peek_sampling H (show 0 < min xs.length samplerCapacity by omega)
    obtain ⟨prev, hprev, hprevItem⟩ := peek_sampling H hlt
    have hpair : Window.pair xs w = some (xs[0], xs[w]) := by
      rw [Window.pair, List.getElem?_eq_getElem (by omega), List.getElem?_eq_getElem (by omega)]
      rfl
    rw [if_pos (by omega), valueOf, hpair]
    rw [List.getElem?_eq_getElem (by omega)] at hcurItem hprevItem
    simp only [hcur, hprev, hcurItem, hprevItem, Option.bind_eq_bind, Option.bind_some]
  · have hanswer : (if w < samplerCapacity then valueOf processFn xs w
        else ⟨-1, some .EAGAIN, none⟩) = ⟨-1, some .EAGAIN, none⟩ := by
      split
      · rw [valueOf, Window.pair_eq_none (by omega)]
      · rfl
    rw [hanswer, hempty w (by omega)]
    by_cases hzero : xs.length = 0
    · rw [hempty 0 (by omega)]
      rfl
    · obtain ⟨cur, hcur, -⟩ := peek_sampling H
        (show 0 < min xs.length samplerCapacity by rw [samplerCapacity]; omega)
      rw [hcur]
      rfl

/-- Every read answers, and leaves the sampler alone. -/
theorem step_getValue (H : Sampling s xs) (w : ℕ) : step processFn s (.getValue w) = some s := by
  rw [step]
  by_cases hw : w = 0
  · subst hw
    rfl
  · rw [getValue_sampling processFn H (by omega)]
    rfl

/-- Every interleaving runs, and keeps what every capture left in its slot. -/
theorem run_sampling (processFn : List UInt8 → List UInt8 → ℤ) {es : List Event}
    (H : Sampling s xs)
    (hsize : ∀ c ∈ captures es, c.slot.length = s.ringBuffer.itemSize) :
    ∃ s', run processFn s es = some s' ∧ Sampling s' ((captures es).map Capture.slot ++ xs) := by
  induction es generalizing s xs with
  | nil => exact ⟨s, rfl, H⟩
  | cons e es ih =>
      cases e with
      | getValue w =>
          obtain ⟨s', hrun, H'⟩ := ih H hsize
          refine ⟨s', ?_, H'⟩
          rw [run, List.foldlM_cons, step_getValue H w]
          exact hrun
      | iteration c =>
          have hcaptures : captures (.iteration c :: es) = captures es ++ [c] :=
            List.reverse_cons
          rw [hcaptures] at hsize ⊢
          obtain ⟨s₁, h₁, H₁, hsize₁⟩ := iteration_spec H (hsize c (by simp))
          obtain ⟨s', hrun, H'⟩ := ih H₁
            (fun c' hc' => by rw [hsize₁]; exact hsize c' (by simp [hc']))
          refine ⟨s', ?_, ?_⟩
          · rw [run, List.foldlM_cons, step, h₁]
            exact hrun
          · rw [List.map_append, List.append_assoc]
            exact H'

theorem samples_eq_select (es : List Event) :
    samples es = Window.select (outcomes es) ((captures es).map Capture.slot) :=
  (Window.select_map Capture.ok Capture.slot (captures es)).symm

/-- A read sees completed captures when its pair of slots is their newest pair. -/
theorem seesCompleted_iff {itemSize : ℕ} {es : List Event} (hs : Started itemSize s)
    (hw : 1 ≤ w) (hw' : w < samplerCapacity)
    (hsize : ∀ c ∈ captures es, c.slot.length = itemSize) :
    SeesCompleted processFn s es w ↔
      Window.pair (Window.select (outcomes es) ((captures es).map Capture.slot)) w =
        Window.pair ((captures es).map Capture.slot) w := by
  obtain ⟨H, hitem⟩ := hs.sampling
  obtain ⟨s', hrun, H'⟩ := run_sampling processFn H (by rw [hitem]; exact hsize)
  rw [List.append_nil] at H'
  have hanswer := getValue_sampling processFn H' hw
  rw [if_pos hw'] at hanswer
  rw [← samples_eq_select]
  constructor
  · rintro ⟨s'', hrun', hvalue⟩
    obtain rfl := Option.some.inj (hrun.symm.trans hrun')
    have hargs := congrArg Value.args (Option.some.inj (hvalue.symm.trans hanswer))
    have hval : ∀ ys : List (List UInt8), (valueOf processFn ys w).args = Window.pair ys w := by
      intro ys
      rw [valueOf]
      split
      · rename_i h
        exact h.symm
      · rename_i h
        exact h.symm
    rw [hval, hval] at hargs
    exact hargs
  · intro hpair
    refine ⟨s', hrun, ?_⟩
    rw [hanswer, valueOf, valueOf, hpair]

/-- A run whose captures have the given outcomes and leave the given bytes. -/
private def runOf (outcomes : List Bool) (xs : List (List UInt8)) : List Event :=
  ((outcomes.zip xs).map fun r => .iteration ⟨if r.1 then 0 else -1, r.2⟩).reverse

private theorem captures_runOf (outcomes : List Bool) (xs : List (List UInt8)) :
    captures (runOf outcomes xs) =
      (outcomes.zip xs).map fun r => ⟨if r.1 then 0 else -1, r.2⟩ := by
  rw [captures, runOf, ← List.map_reverse, List.filterMap_map]
  change (List.filterMap (some ∘ fun r : Bool × List UInt8 =>
    (⟨if r.1 then 0 else -1, r.2⟩ : Capture)) (outcomes.zip xs).reverse).reverse = _
  rw [List.filterMap_eq_map, ← List.map_reverse, List.reverse_reverse]

private theorem outcomes_runOf {pattern : List Bool} {xs : List (List UInt8)}
    (h : xs.length = pattern.length) : outcomes (runOf pattern xs) = pattern := by
  have hok : (Capture.ok ∘ fun r : Bool × List UInt8 => ⟨if r.1 then 0 else -1, r.2⟩) =
      Prod.fst := by
    funext r
    obtain ⟨ok, x⟩ := r
    cases ok with
    | true => rfl
    | false => rfl
  rw [outcomes, captures_runOf, List.map_map, hok, List.map_fst_zip (by omega)]

private theorem slots_runOf {pattern : List Bool} {xs : List (List UInt8)}
    (h : xs.length = pattern.length) : (captures (runOf pattern xs)).map Capture.slot = xs := by
  rw [captures_runOf, List.map_map]
  exact List.map_snd_zip (by omega)

/-- **Consumers see completed captures exactly when undisturbed.**  For every pattern of
successes and failures: the reads of window `w` after all runs with that pattern answer from
the completed captures if and only if no more than `w` captures were made or the last
`w + 1` succeeded. -/
theorem getValue_completed_iff {itemSize : ℕ} (hs : Started itemSize s) (hw : 1 ≤ w)
    (hw' : w < samplerCapacity) (pattern : List Bool) :
    (∀ es, (∀ c ∈ captures es, c.slot.length = itemSize) → outcomes es = pattern →
      SeesCompleted processFn s es w) ↔ Undisturbed pattern w := by
  constructor
  · intro hall
    by_cases hlen : pattern.length ≤ w
    · exact .inl hlen
    · -- Mark the slot the read takes `w` captures back; a faithful answer finds the mark.
      right
      have hne : List.replicate itemSize (1 : UInt8) ≠ List.replicate itemSize 0 := by
        have hpos := hs.itemSize_pos
        intro heq
        have := (List.replicate_right_inj (by omega)).mp heq
        cases this
      let xs := (List.replicate pattern.length (List.replicate itemSize (0 : UInt8))).set w
        (List.replicate itemSize 1)
      have hxs : xs.length = pattern.length := by simp [xs]
      have hslots : (captures (runOf pattern xs)).map Capture.slot = xs := slots_runOf hxs
      have hsize : ∀ c ∈ captures (runOf pattern xs), c.slot.length = itemSize := by
        intro c hc
        have hmem : c.slot ∈ xs := by
          rw [← hslots]
          exact List.mem_map_of_mem hc
        rcases List.mem_or_eq_of_mem_set hmem with hx | hx
        · rw [List.eq_of_mem_replicate hx, List.length_replicate]
        · rw [hx, List.length_replicate]
      have hpair := (seesCompleted_iff hs hw hw' hsize).mp
        (hall (runOf pattern xs) hsize (outcomes_runOf hxs))
      rw [outcomes_runOf hxs, hslots] at hpair
      have hmark : xs[w]? = some (List.replicate itemSize 1) := by
        rw [List.getElem?_set_self (by simp; omega)]
      obtain ⟨first, hfirst⟩ : ∃ first, xs[0]? = some first :=
        ⟨_, List.getElem?_eq_getElem (by omega)⟩
      have hfound := Window.getElem?_of_pair_eq_some
        (hpair.trans (by rw [Window.pair, hfirst, hmark]; rfl))
      exact (Window.le_of_select_set hne (Nat.le_refl _) hfound).2 rfl
  · intro hundisturbed es hsize hpattern
    rw [seesCompleted_iff hs hw hw' hsize, hpattern]
    refine Window.pair_select ?_ hundisturbed
    rw [← hpattern, outcomes, List.length_map, List.length_map]

/-- A failing capture, two successful ones with a read between them, then a read of window 1. -/
theorem getValue_completed_two : SeesCompleted (fun _ _ => 0)
    ⟨⟨100, 0, List.replicate 100 0, 1, 0⟩, 500, true, some 7, false⟩
    [.iteration ⟨0, [1]⟩, .iteration ⟨-1, [9]⟩, .iteration ⟨0, [2]⟩, .getValue 1,
      .iteration ⟨0, [3]⟩] 1 := by
  have hs : Started 1 ⟨⟨100, 0, List.replicate 100 0, 1, 0⟩, 500, true, some 7, false⟩ :=
    ⟨500, ⟨true, true, true, none⟩, ⟨⟨100, 0, List.replicate 100 0, 1, 0⟩, 500, false, none, false⟩,
      7, rfl, rfl⟩
  exact (getValue_completed_iff hs (by decide) (by decide) [true, true, false, true]).mpr
    (.inr (by decide)) _ (by decide) rfl

/-- After captures of 1 and 2 a failing capture leaves 9 in its slot, and the next read
compares 9 with 2. -/
theorem failed_capture_seen : ¬ ∀ (s : Sampler) (itemSize : ℕ) (es : List Event) (w : ℕ),
    Started itemSize s → (∀ c ∈ captures es, c.slot.length = itemSize) → 1 ≤ w →
      w < samplerCapacity → SeesCompleted (fun _ _ => 0) s es w := by
  intro hall
  let s : Sampler := ⟨⟨100, 0, List.replicate 100 0, 1, 0⟩, 500, true, some 7, false⟩
  let es : List Event := [.iteration ⟨0, [1]⟩, .iteration ⟨0, [2]⟩, .iteration ⟨-1, [9]⟩]
  have hs : Started 1 s := ⟨500, ⟨true, true, true, none⟩,
    ⟨⟨100, 0, List.replicate 100 0, 1, 0⟩, 500, false, none, false⟩, 7, rfl, rfl⟩
  have hread := (seesCompleted_iff hs (by decide) (by decide) (by decide)).mp
    (hall s 1 es 1 hs (by decide) (by decide) (by decide))
  revert hread
  decide

end Sampler
end Ctm
