import Ctm.Lib.Weight
import Ctm.Sampler.Joins

/-!
# A stopped sampler comes to rest

Once `is_running` is cleared and nobody starts the sampler again, each sampling thread leaves its
loop at its next test of the flag, and each call has at most its join, the return from it and the
frees left.  So the steps left are bounded, and the last of them leaves no thread and no call.

## Main definitions

* `threadLeft`, `callLeft` — the steps a thread or a call has left.
* `remaining` — the steps all of them have left.
* `shuts_down` — the bound, and the state at rest.
-/

open Weight

namespace Ctm
namespace Sampler

/-- The steps a thread that finds the flag cleared takes before it has exited. -/
def threadLeft : Option Phase → ℕ
  | none => 0
  | some .leaving => 1
  | some .top => 2
  | some .sleeping => 3
  | some .callback => 4

/-- The steps a call has left. -/
def callLeft : Option Call → ℕ
  | none => 0
  | some ⟨_, .stopped⟩ => 1
  | some ⟨_, .joining _⟩ => 2
  | some ⟨_, .unlocked⟩ => 3

theorem threadLeft_le (phase : Option Phase) : threadLeft phase ≤ 4 := by
  rcases phase with _ | phase
  · exact Nat.zero_le 4
  · cases phase <;> decide

theorem callLeft_le (call : Option Call) : callLeft call ≤ 3 := by
  rcases call with _ | ⟨destroys, wait⟩
  · exact Nat.zero_le 3
  · cases wait <;> simp [callLeft]

theorem threadLeft_ne_zero {phase : Option Phase} : threadLeft phase ≠ 0 ↔ phase ≠ none := by
  rcases phase with _ | phase
  · simp [threadLeft]
  · cases phase <;> simp [threadLeft]

theorem callLeft_ne_zero {call : Option Call} : callLeft call ≠ 0 ↔ call ≠ none := by
  rcases call with _ | ⟨destroys, wait⟩
  · simp [callLeft]
  · cases wait <;> simp [callLeft]

namespace System
variable {s s' : System} {a : Action} {c : Caller} {t : ThreadId}

/-- Finitely many threads and calls. -/
structure Finitary (s : System) : Prop where
  threads : Light threadLeft s.threads
  calls : Light callLeft s.calls

/-- The steps all threads and calls have left. -/
noncomputable def remaining (s : System) : ℕ := total threadLeft s.threads + total callLeft s.calls

/-- A step changes one thread and one call at most. -/
theorem Turn.updates (h : Turn s a s') :
    (∃ t phase, s'.threads = Function.update s.threads t phase) ∧
      ∃ c call, s'.calls = Function.update s.calls c call := by
  have hthreads : ∃ t phase, s.threads = Function.update s.threads t phase :=
    ⟨0, s.threads 0, (Function.update_eq_self ..).symm⟩
  have hcalls : ∃ c call, s.calls = Function.update s.calls c call :=
    ⟨.other 0, s.calls (.other 0), (Function.update_eq_self ..).symm⟩
  cases h with
  | ignored c create hrun => exact ⟨hthreads, hcalls⟩
  | failed c code junk hrun => exact ⟨hthreads, hcalls⟩
  | stopped c hcan =>
      rw [stopBy_threads]
      exact ⟨hthreads, c, _, stopBy_calls c false⟩
  | destroyed n hcan =>
      refine ⟨?_, .other n, _, stopBy_calls (.other n) true⟩
      change ∃ t phase, (s.stopBy (.other n) true).threads = _
      rw [stopBy_threads]
      exact hthreads
  | join c destroys hcall => exact ⟨hthreads, c, _, rfl⟩
  | joined c destroys target hcall hreturns => exact ⟨hthreads, c, _, rfl⟩
  | freed c hcall => exact ⟨hthreads, c, _, rfl⟩
  | started c t hrun hnew => exact ⟨⟨t, _, rfl⟩, hcalls⟩
  | sampled t capture ringBuffer phase htop hrun hwrite hphase => exact ⟨⟨t, _, rfl⟩, hcalls⟩
  | left t capture htop hrun => exact ⟨⟨t, _, rfl⟩, hcalls⟩
  | returned t hphase hcall => exact ⟨⟨t, _, rfl⟩, hcalls⟩
  | woke t hphase => exact ⟨⟨t, _, rfl⟩, hcalls⟩
  | exited t hphase => exact ⟨⟨t, _, rfl⟩, hcalls⟩

theorem Finitary.step (H : Finitary s) (h : Step s a s') : Finitary s' := by
  obtain ⟨⟨t, phase, hthreads⟩, c, call, hcalls⟩ := (turn h).updates
  constructor
  · rw [hthreads]
    exact H.threads.update t phase
  · rw [hcalls]
    exact H.calls.update c call

theorem Initial.finitary (h : Initial s) : Finitary s := by
  obtain ⟨_, _, _, _, _, -, rfl⟩ := h
  constructor
  · simp [Light, threadLeft]
  · simp [Light, callLeft]

theorem Finitary.of_reachable (h : Transition.Reachable Initial Step s) : Finitary s := by
  refine h.invariant Finitary (fun _ hs => hs.finitary) ?_
  intro s a s' H hstep
  exact H.step hstep

/-- The steps left are at most four for each live thread and three for each call. -/
theorem Finitary.remaining_le (H : Finitary s) :
    s.remaining ≤ 4 * {t | s.Alive t}.ncard + 3 * {c | s.calls c ≠ none}.ncard := by
  have hthreads := total_le H.threads threadLeft_le
  have hcalls := total_le H.calls callLeft_le
  simp only [threadLeft_ne_zero] at hthreads
  simp only [callLeft_ne_zero] at hcalls
  exact Nat.add_le_add hthreads hcalls

/-- A thread that goes on leaves that much less. -/
theorem Finitary.remaining_thread (H : Finitary s) {phase : Option Phase}
    (h : threadLeft phase < threadLeft (s.threads t)) :
    (s.setThread t phase).remaining + 1 ≤ s.remaining := by
  have htotal := total_update H.threads t phase
  simp only [remaining, setThread]
  omega

theorem Finitary.remaining_update (H : Finitary s) {call : Option Call}
    (hthreads : s'.threads = s.threads) (hcalls : s'.calls = Function.update s.calls c call) :
    s'.remaining + callLeft (s.calls c) = s.remaining + callLeft call := by
  have htotal := total_update H.calls c call
  rw [remaining, remaining, hthreads, hcalls]
  omega

/-- So does a call that goes on. -/
theorem Finitary.remaining_call (H : Finitary s) {call : Option Call}
    (h : callLeft call < callLeft (s.calls c)) : (s.setCall c call).remaining + 1 ≤ s.remaining := by
  have hupdate : (s.setCall c call).remaining + callLeft (s.calls c) = _ :=
    H.remaining_update rfl rfl
  omega

/-- What a step that begins no call takes off the steps left. -/
def cost (a : Action) : ℕ := if a.opens then 0 else 1

/-- What a call that begins adds to them. -/
def gain (a : Action) : ℕ := if a.opens then 3 else 0

theorem calls_of_canCall (h : s.canCall c = true) : s.calls c = none := by
  simp only [canCall, Bool.and_eq_true, Option.isNone_iff_eq_none] at h
  exact h.1.2

theorem Finitary.remaining_stopBy (H : Finitary s) {destroys : Bool} (hcan : s.canCall c = true)
    (hthreads : s'.threads = s.threads) (hcalls : s'.calls = (s.stopBy c destroys).calls) :
    s'.remaining ≤ s.remaining + 3 := by
  rw [stopBy_calls] at hcalls
  have h := H.remaining_update hthreads hcalls
  rw [calls_of_canCall hcan] at h
  refine (Nat.le_of_eq h).trans ?_
  exact Nat.add_le_add_left (callLeft_le _) _

/-- With the flag cleared every step but a call that begins leaves one step less. -/
theorem Finitary.remaining_step (H : Finitary s) (hrun : s.sampler.isRunning = false)
    (ha : a.starts = false) (h : Step s a s') : s'.remaining + cost a ≤ s.remaining + gain a := by
  cases turn h with
  | ignored c create _ => cases ha
  | failed c code junk _ => cases ha
  | started c t _ hnew => cases ha
  | stopped c hcan => exact H.remaining_stopBy hcan (stopBy_threads c false) rfl
  | destroyed n hcan => exact H.remaining_stopBy hcan (stopBy_threads (.other n) true) rfl
  | join c destroys hcall => exact H.remaining_call (by simp [hcall, callLeft])
  | joined c destroys target hcall hreturns =>
      refine H.remaining_call ?_
      rw [hcall]
      split <;> simp [callLeft]
  | freed c hcall =>
      have hlt : callLeft none < callLeft (s.calls c) := by simp [hcall, callLeft]
      exact H.remaining_call hlt
  | sampled t capture ringBuffer phase htop hrun' hwrite hphase =>
      exact Bool.noConfusion (hrun.symm.trans hrun')
  | left t capture htop _ => exact H.remaining_thread (by rw [htop]; decide)
  | returned t hphase hcall => exact H.remaining_thread (by rw [hphase]; decide)
  | woke t hphase => exact H.remaining_thread (by rw [hphase]; decide)
  | exited t hphase => exact H.remaining_thread (by rw [hphase]; decide)

/-! ## Runs without starts -/

theorem isRunning_step (hrun : s.sampler.isRunning = false) (ha : a.starts = false)
    (h : Step s a s') : s'.sampler.isRunning = false := by
  cases turn h with
  | ignored c create _ => cases ha
  | failed c code junk _ => cases ha
  | started c t _ hnew => cases ha
  | stopped c hcan => exact stopBy_isRunning c false
  | destroyed n hcan => exact stopBy_isRunning (.other n) true
  | _ => exact hrun

theorem sum_cost (as : List Action) : (as.map cost).sum = as.countP fun a => !a.opens := by
  induction as with
  | nil => rfl
  | cons a as ih =>
      rw [List.map_cons, List.sum_cons, List.countP_cons, ih, cost, Nat.add_comm]
      cases a.opens <;> rfl

theorem sum_gain (as : List Action) : (as.map gain).sum = 3 * as.countP Action.opens := by
  induction as with
  | nil => rfl
  | cons a as ih =>
      rw [List.map_cons, List.sum_cons, List.countP_cons, ih, gain, Nat.mul_add, Nat.add_comm]
      cases a.opens <;> rfl

/-- The steps of a run without starts are paid by what is left and by the calls it begins. -/
theorem Finitary.run_le (H : Finitary s) (hrun : s.sampler.isRunning = false) {as : List Action}
    (has : ∀ a ∈ as, a.starts = false) {os : List Unit}
    (hexec : Transition.exec answer s as = some (os, s')) :
    as.countP (fun a => !a.opens) ≤ s.remaining + 3 * as.countP Action.opens := by
  have h := exec_cost (fun s => Finitary s ∧ s.sampler.isRunning = false) remaining
    cost gain ?_ ⟨H, hrun⟩ hexec
  · rw [sum_cost, sum_gain] at h
    omega
  · intro a ha s _ s' hs hanswer
    have hstep := step_of_answer hanswer
    exact ⟨hs.1.remaining_step hs.2 (has a ha) hstep, hs.1.step hstep,
      isRunning_step hs.2 (has a ha) hstep⟩

/-- Nothing a call waits for is another call's beginning. -/
theorem Helps.opens_eq_false (h : Helps s c a) : a.opens = false := by
  induction h with
  | @own c a ha => cases a <;> first | rfl | cases ha
  | @target c t destroys a _ ha => cases a <;> first | rfl | cases ha
  | behind _ _ ih => exact ih

/-- A state in which no step but a new call is possible has no call and no thread. -/
theorem Ordered.at_rest (H : Ordered s) (hrest : ∀ a s', a.opens = false → ¬ Step s a s') :
    (∀ c, s.calls c = none) ∧ ∀ t, ¬ s.Alive t := by
  constructor
  · intro c
    by_contra hcall
    obtain ⟨a, s', hhelps, hstep⟩ := H.exists_call_step hcall
    exact hrest a s' hhelps.opens_eq_false hstep
  · intro t ht
    obtain ⟨a, s', ha, hstep⟩ := H.exists_alive_step ht
    rcases ha with ha | hhelps
    · refine hrest a s' ?_ hstep
      cases a <;> first | rfl | cases ha
    · exact hrest a s' hhelps.opens_eq_false hstep

/-- **A stopped sampler comes to rest.**  With the flag cleared, after a run whose failing starts
leave no older thread named, every run on without starts takes at most four steps for each live
thread and three for each call, in progress or begun on the way.  Where only new calls are
possible, every call has returned and every thread has exited. -/
theorem shuts_down
    (h : Transition.Reachable Initial (Transition.Guarded KeepsName Step) s)
    (hrun : s.sampler.isRunning = false) {as : List Action} (has : ∀ a ∈ as, a.starts = false)
    {os : List Unit} (hexec : Transition.exec answer s as = some (os, s')) :
    as.countP (fun a => !a.opens) ≤
        4 * {t | s.Alive t}.ncard + 3 * ({c | s.calls c ≠ none}.ncard + as.countP Action.opens) ∧
      ((∀ a s'', a.opens = false → ¬ Step s' a s'') →
        (∀ c, s'.calls c = none) ∧ ∀ t, ¬ s'.Alive t) := by
  constructor
  · have H := Finitary.of_reachable h.of_guarded
    have hcost := H.run_le hrun has hexec
    have hleft := H.remaining_le
    omega
  · apply Ordered.at_rest
    refine Ordered.of_reachable (keepsName_of_exec ?_ h hexec)
    intro a ha c code junk hfailed
    have hstarts := has a ha
    rw [hfailed] at hstarts
    cases hstarts

/-- A stop of a sampler in its callback, to the return from its join. -/
theorem shuts_down_stop : ∃ s s' : System, s.Alive 1 ∧ s'.threads 1 = none ∧
    6 ≤ 4 * {t | s.Alive t}.ncard + 3 * ({c | s.calls c ≠ none}.ncard + 0) ∧
      ((∀ a s'', a.opens = false → ¬ Step s' a s'') →
        (∀ c, s'.calls c = none) ∧ ∀ t, ¬ s'.Alive t) := by
  let before : List Action :=
    [.start (.other 0) (.created 1), .iterate 1 ⟨0, [5]⟩, .stop (.other 0)]
  let after : List Action :=
    [.join (.other 0), .callbackReturns 1, .wake 1, .iterate 1 ⟨0, [6]⟩, .exit 1, .joined (.other 0)]
  obtain ⟨os, s, hbefore⟩ : ∃ os s, Transition.exec answer fresh before = some (os, s) :=
    ⟨_, _, rfl⟩
  have hstate : (Transition.exec answer fresh before).map
      (fun r => (r.2.sampler.isRunning, r.2.threads 1)) = some (false, some .callback) := rfl
  have hend : ((Transition.exec answer fresh before).bind fun r =>
      (Transition.exec answer r.2 after).map fun r => r.2.threads 1) = some none := rfl
  rw [hbefore] at hstate hend
  obtain ⟨hrun, hthread⟩ := Prod.mk.inj (Option.some.inj hstate)
  obtain ⟨⟨os', s'⟩, hafter, hgone⟩ := Option.map_eq_some_iff.mp hend
  refine ⟨s, s', ne_of_eq_of_ne hthread (Option.some_ne_none _), hgone,
    shuts_down (keepsName_of_exec ?_ (.init fresh_initial) hbefore) hrun ?_ hafter⟩
  · simp [before]
  · simp [after, Action.starts]

end System
end Sampler
end Ctm
