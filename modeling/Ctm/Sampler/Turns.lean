import Ctm.Sampler.Threads

/-!
# What a step of the sampler tests

`Effect` says what a step can change. A liveness argument also needs what the step tests: where
the thread was, what the flag was, which call goes on.

## Main definitions

* `Action.caller`, `Action.thread`, `Action.starts`, `Action.opens` — whose step it is.
* `Turn` — what a step does, with all that it tests.
-/

namespace Ctm
namespace Sampler

/-- The call a step goes on with. -/
def Action.caller : Action → Option Caller
  | .join c => some c
  | .joined c => some c
  | .free c => some c
  | _ => none

/-- The sampling thread that takes a step outside the calls of its callback. -/
def Action.thread : Action → Option ThreadId
  | .iterate t _ => some t
  | .callbackReturns t => some t
  | .wake t => some t
  | .exit t => some t
  | _ => none

/-- A call of `sampler_start`. -/
def Action.starts : Action → Bool
  | .start _ _ => true
  | _ => false

/-- A call of a sampler function begins. -/
def Action.opens : Action → Bool
  | .start _ _ => true
  | .stop _ => true
  | .destroy _ => true
  | _ => false

theorem iteration_of_stopped {s : Sampler} {capture : Capture} (h : s.isRunning = false) :
    s.iteration capture = some (none, s) := if_pos (by rw [h]; rfl)

theorem iteration_of_running {s : Sampler} {capture : Capture} (h : s.isRunning = true) :
    s.iteration capture = (s.ringBuffer.write capture.slot).bind fun ringBuffer =>
      some (some capture.ok, { s with ringBuffer := ringBuffer }) :=
  if_neg (by rw [h]; decide)

namespace System
variable {s s' : System} {a : Action} {c : Caller} {t t' : ThreadId}

/-- What a step does, with all that it tests. -/
inductive Turn (s : System) : Action → System → Prop
  | ignored (c : Caller) (create : PthreadCreate) : s.sampler.isRunning = true →
      Turn s (.start c create) s
  | failed (c : Caller) (code : Errno) (junk : Option ThreadId) : s.sampler.isRunning = false →
      Turn s (.start c (.failed code junk))
        { s with sampler := { s.sampler with isRunning := false, thread := junk } }
  | started (c : Caller) (t : ThreadId) : s.sampler.isRunning = false → s.threads t = none →
      Turn s (.start c (.created t))
        ({ s with sampler := { s.sampler with isRunning := true, thread := some t } }.setThread t
          (some .top))
  | stopped (c : Caller) : s.canCall c = true → Turn s (.stop c) (s.stopBy c false)
  | destroyed (n : ℕ) : s.canCall (.other n) = true →
      Turn s (.destroy n) { s.stopBy (.other n) true with destroyer := some (.other n) }
  | join (c : Caller) (destroys : Bool) : s.calls c = some ⟨destroys, .unlocked⟩ →
      Turn s (.join c) (s.setCall c (some ⟨destroys, .joining s.sampler.thread⟩))
  | joined (c : Caller) (destroys : Bool) (target : Option ThreadId) :
      s.calls c = some ⟨destroys, .joining target⟩ → s.joinReturns c target = true →
        Turn s (.joined c) (s.afterStop c ⟨destroys, .joining target⟩)
  | freed (c : Caller) : s.calls c = some ⟨true, .stopped⟩ →
      Turn s (.free c) { s.setCall c none with freed := true }
  | sampled (t : ThreadId) (capture : Capture) (ringBuffer : RingBuffer) (phase : Phase) :
      s.threads t = some .top → s.sampler.isRunning = true →
        s.sampler.ringBuffer.write capture.slot = some ringBuffer → phase ≠ .leaving →
          Turn s (.iterate t capture)
            ({ s with sampler := { s.sampler with ringBuffer := ringBuffer } }.setThread t
              (some phase))
  | left (t : ThreadId) (capture : Capture) : s.threads t = some .top →
      s.sampler.isRunning = false → Turn s (.iterate t capture) (s.setThread t (some .leaving))
  | returned (t : ThreadId) : s.threads t = some .callback → s.calls (.sampling t) = none →
      Turn s (.callbackReturns t) (s.setThread t (some .sleeping))
  | woke (t : ThreadId) : s.threads t = some .sleeping →
      Turn s (.wake t) (s.setThread t (some .top))
  | exited (t : ThreadId) : s.threads t = some .leaving → Turn s (.exit t) (s.setThread t none)

theorem turn_start {create : PthreadCreate} (h : Step s (.start c create) s') :
    Turn s (.start c create) s' := by
  simp only [Step, next] at h
  split at h
  · cases hrun : s.sampler.isRunning with
    | true =>
        rw [startSection_of_running hrun] at h
        obtain rfl := Option.some.inj h
        exact .ignored c create hrun
    | false =>
        rw [startSection_of_not_running hrun] at h
        cases create with
        | failed code junk =>
            obtain rfl := Option.some.inj h
            exact .failed c code junk hrun
        | created t =>
            simp only at h
            split at h
            · rename_i hnew
              obtain rfl := Option.some.inj h
              exact .started c t hrun (Option.isNone_iff_eq_none.mp hnew)
            · cases h
  · cases h

theorem turn_iterate {capture : Capture} (h : Step s (.iterate t capture) s') :
    Turn s (.iterate t capture) s' := by
  simp only [Step, next] at h
  split at h
  · rename_i htop
    cases hrun : s.sampler.isRunning with
    | false =>
        rw [iteration_of_stopped hrun] at h
        obtain rfl := Option.some.inj h
        exact .left t capture htop hrun
    | true =>
        rw [iteration_of_running hrun] at h
        obtain ⟨⟨answer, sampler⟩, hiter, h⟩ := Option.bind_eq_some_iff.mp h
        obtain ⟨ringBuffer, hwrite, hiter⟩ := Option.bind_eq_some_iff.mp hiter
        obtain ⟨rfl, rfl⟩ := Prod.mk.inj (Option.some.inj hiter)
        obtain rfl := Option.some.inj h
        refine .sampled t capture ringBuffer _ htop hrun hwrite ?_
        split
        · exact Phase.noConfusion
        · exact Phase.noConfusion
  · cases h

theorem turn (h : Step s a s') : Turn s a s' := by
  cases a with
  | start c create => exact turn_start h
  | iterate t capture => exact turn_iterate h
  | stop c =>
      simp only [Step, next] at h
      split at h
      · rename_i hcan
        obtain rfl := Option.some.inj h
        exact .stopped c hcan
      · cases h
  | destroy n =>
      simp only [Step, next] at h
      split at h
      · rename_i hcan
        obtain rfl := Option.some.inj h
        exact .destroyed n hcan
      · cases h
  | join c =>
      simp only [Step, next] at h
      split at h
      · rename_i destroys hcall
        obtain rfl := Option.some.inj h
        exact .join c destroys hcall
      · cases h
  | joined c =>
      simp only [Step, next] at h
      split at h
      · rename_i destroys target hcall
        split at h
        · rename_i hreturns
          obtain rfl := Option.some.inj h
          exact .joined c destroys target hcall hreturns
        · cases h
      · cases h
  | free c =>
      simp only [Step, next] at h
      split at h
      · rename_i hcall
        obtain rfl := Option.some.inj h
        exact .freed c hcall
      · cases h
  | callbackReturns t =>
      simp only [Step, next] at h
      split at h
      · rename_i hphase hcall
        obtain rfl := Option.some.inj h
        exact .returned t hphase hcall
      · cases h
  | wake t =>
      simp only [Step, next] at h
      split at h
      · rename_i hphase
        obtain rfl := Option.some.inj h
        exact .woke t hphase
      · cases h
  | exit t =>
      simp only [Step, next] at h
      split at h
      · rename_i hphase
        obtain rfl := Option.some.inj h
        exact .exited t hphase
      · cases h

end System
end Sampler
end Ctm
