import Mathlib.Logic.Function.Basic
import Ctm.Lib.Transition
import Ctm.Sampler.Basic

/-!
# A sampler and its threads

The system of one sampler, its sampling threads, and the threads that call
`sampler_start`, `sampler_stop` and `sampler_destroy`.  Every section under
`sampler->lock`, every thread exit, every call of `pthread_join` and every return from
it is one step.  The join happens outside the lock, and reads `sampler->thread` there.

## Main definitions

* `Phase` — where a live sampling thread is in `sampler_thread_fn`.
* `Call` — where a call of `sampler_stop` or `sampler_destroy` is.
* `System`, `next`, `Step` — the states and the steps.
* `Effect` — everything a step can do.
-/

namespace Ctm
namespace Sampler

/-- Where a live sampling thread is in `sampler_thread_fn`. -/
inductive Phase
  /-- About to take the lock. -/
  | top
  /-- In `on_captured`. -/
  | callback
  /-- In `ctm_sleep_ms`. -/
  | sleeping
  /-- Out of the loop, not yet exited. -/
  | leaving
deriving DecidableEq, Repr

/-- A thread that calls sampler functions: a sampling thread in its callback, or any other. -/
inductive Caller
  | sampling (t : ThreadId)
  | other (n : ℕ)
deriving DecidableEq, Repr

/-- Where a call is after the locked section of `sampler_stop`. -/
inductive Wait
  /-- About to call `pthread_join`. -/
  | unlocked
  /-- In `pthread_join` of the thread `sampler->thread` named. -/
  | joining (target : Option ThreadId)
  /-- Past the join, or without one; only `sampler_destroy` goes on from here. -/
  | stopped
deriving DecidableEq, Repr

/-- A call of `sampler_stop`, or of `sampler_destroy`, which begins with one. -/
structure Call where
  destroys : Bool
  wait : Wait
deriving DecidableEq, Repr

/-- The system. -/
structure System where
  sampler : Sampler
  /-- The live sampling threads. -/
  threads : ThreadId → Option Phase
  /-- The calls in progress. -/
  calls : Caller → Option Call
  /-- The caller of `sampler_destroy`; no sampler function is called after it. -/
  destroyer : Option Caller
  /-- The ring buffer and the sampler are freed. -/
  freed : Bool

/-- The steps. -/
inductive Action
  | start (c : Caller) (create : PthreadCreate)
  | stop (c : Caller)
  | destroy (n : ℕ)
  | join (c : Caller)
  | joined (c : Caller)
  | free (c : Caller)
  | iterate (t : ThreadId) (capture : Capture)
  | callbackReturns (t : ThreadId)
  | wake (t : ThreadId)
  | exit (t : ThreadId)

namespace System

/-- A `sampler_thread_fn` of the sampler. -/
def Alive (s : System) (t : ThreadId) : Prop := s.threads t ≠ none

instance (s : System) (t : ThreadId) : Decidable (s.Alive t) :=
  inferInstanceAs (Decidable (s.threads t ≠ none))

/-- The caller can begin a call of `sampler_start` or `sampler_stop`. -/
def canCall (s : System) (c : Caller) : Bool :=
  s.destroyer.isNone && (s.calls c).isNone &&
    match c with
    | .sampling t => s.threads t == some .callback
    | .other _ => true

/-- `pthread_join` returns: the target has exited, or does not exist, or is the caller
itself (`EDEADLK`). -/
def joinReturns (s : System) (c : Caller) (target : Option ThreadId) : Bool :=
  match target with
  | none => true
  | some t => c == .sampling t || (s.threads t).isNone

/-- A thread goes to another phase, or exits. -/
def setThread (s : System) (t : ThreadId) (phase : Option Phase) : System :=
  { s with threads := Function.update s.threads t phase }

/-- A call goes to another place, or returns. -/
def setCall (s : System) (c : Caller) (call : Option Call) : System :=
  { s with calls := Function.update s.calls c call }

/-- `sampler_stop` is over: the call returns, or `sampler_destroy` goes on. -/
def afterStop (s : System) (c : Caller) (call : Call) : System :=
  s.setCall c (if call.destroys then some ⟨true, .stopped⟩ else none)

/-- The locked section of `sampler_stop`, in a call of it or of `sampler_destroy`. -/
def stopBy (s : System) (c : Caller) (destroys : Bool) : System :=
  let r := s.sampler.stopSection
  let s' := { s with sampler := r.2 }
  if r.1 then s'.setCall c (some ⟨destroys, .unlocked⟩) else s'.afterStop c ⟨destroys, .unlocked⟩

/-- One step, where it is possible. -/
def next (s : System) : Action → Option System
  | .start c create =>
      if s.canCall c then
        match s.sampler.startSection create with
        | (_, none, sampler) => some { s with sampler := sampler }
        | (_, some t, sampler) =>
            -- a new thread is not one of the live ones
            if (s.threads t).isNone then
              some ({ s with sampler := sampler }.setThread t (some .top))
            else none
      else none
  | .stop c => if s.canCall c then some (s.stopBy c false) else none
  | .destroy n =>
      if s.canCall (.other n) then
        some { s.stopBy (.other n) true with destroyer := some (.other n) }
      else none
  | .join c =>
      match s.calls c with
      | some ⟨destroys, .unlocked⟩ => some (s.setCall c (some ⟨destroys, .joining s.sampler.thread⟩))
      | _ => none
  | .joined c =>
      match s.calls c with
      | some ⟨destroys, .joining target⟩ =>
          if s.joinReturns c target then some (s.afterStop c ⟨destroys, .joining target⟩) else none
      | _ => none
  | .free c =>
      match s.calls c with
      | some ⟨true, .stopped⟩ => some { s.setCall c none with freed := true }
      | _ => none
  | .iterate t capture =>
      match s.threads t with
      | some .top => do
          let (answer, sampler) ← s.sampler.iteration capture
          let s' : System := { s with sampler := sampler }
          match answer with
          | none => some (s'.setThread t (some .leaving))
          | some notify =>
              some (s'.setThread t (some (if notify && sampler.onCaptured then .callback
                else .sleeping)))
      | _ => none
  | .callbackReturns t =>
      match s.threads t, s.calls (.sampling t) with
      | some .callback, none => some (s.setThread t (some .sleeping))
      | _, _ => none
  | .wake t =>
      match s.threads t with
      | some .sleeping => some (s.setThread t (some .top))
      | _ => none
  | .exit t =>
      match s.threads t with
      | some .leaving => some (s.setThread t none)
      | _ => none

/-- A step of the system. -/
def Step (s : System) (a : Action) (s' : System) : Prop := s.next a = some s'

/-- A step that answers nothing, for runs of the system as a machine. -/
def answer (s : System) (a : Action) : Option (Unit × System) := (s.next a).map fun s' => ((), s')

/-- A sampler from `sampler_create`, with or without a subscriber, before any call. -/
def Initial (s : System) : Prop :=
  ∃ intervalMs itemSize r sampler subscriber,
    create intervalMs itemSize true r = (some sampler, none) ∧
      s = ⟨{ sampler with onCaptured := subscriber }, fun _ => none, fun _ => none, none, false⟩

variable {s s' : System} {a : Action} {t t' : ThreadId}

theorem step_of_answer {o : Unit} (h : s.answer a = some (o, s')) : Step s a s' := by
  obtain ⟨s'', hnext, heq⟩ := Option.map_eq_some_iff.mp h
  obtain ⟨-, rfl⟩ := Prod.mk.inj heq
  exact hnext

/-- The machine's runs are runs of the system. -/
theorem reachable_of_exec {as : List Action} {os : List Unit}
    (hs : Transition.Reachable Initial Step s)
    (h : Transition.exec answer s as = some (os, s')) : Transition.Reachable Initial Step s' := by
  refine Transition.exec_reachable ?_ hs h
  intro a _ o _ s s' hanswer
  exact step_of_answer hanswer

theorem Initial.threads (h : Initial s) (t : ThreadId) : ¬ s.Alive t := by
  obtain ⟨_, _, _, _, _, -, rfl⟩ := h
  intro halive
  exact halive rfl

theorem Initial.not_running (h : Initial s) : s.sampler.isRunning = false := by
  obtain ⟨intervalMs, itemSize, r, sampler, subscriber, hcreate, rfl⟩ := h
  exact (create_isRunning hcreate : sampler.isRunning = false)

/-- A sampler just created, of one-byte samples, with a subscriber. -/
def fresh : System :=
  ⟨⟨⟨100, 0, List.replicate 100 0, 1, 0⟩, 500, false, none, true⟩, fun _ => none, fun _ => none,
    none, false⟩

theorem fresh_initial : Initial fresh :=
  ⟨500, 1, ⟨true, true, true, none⟩, ⟨⟨100, 0, List.replicate 100 0, 1, 0⟩, 500, false, none,
    false⟩, true, rfl, rfl⟩

theorem destroyer_of_canCall {c : Caller} (h : s.canCall c = true) : s.destroyer = none := by
  simp only [canCall, Bool.and_eq_true, Option.isNone_iff_eq_none] at h
  exact h.1.1

/-! ## What an update leaves alone -/

@[simp] theorem setThread_sampler (phase : Option Phase) :
    (s.setThread t phase).sampler = s.sampler := rfl

@[simp] theorem setThread_calls (phase : Option Phase) :
    (s.setThread t phase).calls = s.calls := rfl

@[simp] theorem setThread_destroyer (phase : Option Phase) :
    (s.setThread t phase).destroyer = s.destroyer := rfl

@[simp] theorem setThread_freed (phase : Option Phase) :
    (s.setThread t phase).freed = s.freed := rfl

@[simp] theorem setThread_threads_self (phase : Option Phase) :
    (s.setThread t phase).threads t = phase := Function.update_self ..

theorem setThread_threads_of_ne (phase : Option Phase) (h : t' ≠ t) :
    (s.setThread t phase).threads t' = s.threads t' := Function.update_of_ne h ..

@[simp] theorem setCall_sampler (c : Caller) (call : Option Call) :
    (s.setCall c call).sampler = s.sampler := rfl

@[simp] theorem setCall_threads (c : Caller) (call : Option Call) :
    (s.setCall c call).threads = s.threads := rfl

@[simp] theorem setCall_destroyer (c : Caller) (call : Option Call) :
    (s.setCall c call).destroyer = s.destroyer := rfl

@[simp] theorem setCall_freed (c : Caller) (call : Option Call) :
    (s.setCall c call).freed = s.freed := rfl

@[simp] theorem setCall_calls_self {c : Caller} (call : Option Call) :
    (s.setCall c call).calls c = call := Function.update_self ..

theorem setCall_calls_of_ne {c c' : Caller} (call : Option Call) (h : c' ≠ c) :
    (s.setCall c call).calls c' = s.calls c' := Function.update_of_ne h ..

@[simp] theorem afterStop_threads (c : Caller) (call : Call) :
    (s.afterStop c call).threads = s.threads := rfl

@[simp] theorem afterStop_sampler (c : Caller) (call : Call) :
    (s.afterStop c call).sampler = s.sampler := rfl

@[simp] theorem stopBy_threads (c : Caller) (destroys : Bool) :
    (s.stopBy c destroys).threads = s.threads := by
  simp only [stopBy]
  split <;> rfl

@[simp] theorem stopBy_isRunning (c : Caller) (destroys : Bool) :
    (s.stopBy c destroys).sampler.isRunning = false := by
  simp only [stopBy]
  split <;> rfl

@[simp] theorem stopBy_destroyer (c : Caller) (destroys : Bool) :
    (s.stopBy c destroys).destroyer = s.destroyer := by
  simp only [stopBy]
  split <;> rfl

@[simp] theorem stopBy_freed (c : Caller) (destroys : Bool) :
    (s.stopBy c destroys).freed = s.freed := by
  simp only [stopBy]
  split <;> rfl

@[simp] theorem stopBy_thread (c : Caller) (destroys : Bool) :
    (s.stopBy c destroys).sampler.thread = s.sampler.thread := by
  simp only [stopBy]
  split <;> rfl

/-- The locked section of a stop sends its call to the join, or past it. -/
theorem stopBy_calls (c : Caller) (destroys : Bool) :
    (s.stopBy c destroys).calls = Function.update s.calls c
      (if s.sampler.isRunning then some ⟨destroys, .unlocked⟩
        else if destroys then some ⟨true, .stopped⟩ else none) := by
  cases hrun : s.sampler.isRunning with
  | true => simp [stopBy, stopSection, hrun, setCall]
  | false => simp [stopBy, stopSection, hrun, setCall, afterStop]

/-- A call a stop began, or one that was there. -/
theorem stopBy_call {c c' : Caller} {destroys : Bool} {call : Call}
    (h : (s.stopBy c destroys).calls c' = some call) :
    (c' = c ∧ call.destroys = destroys) ∨ s.calls c' = some call := by
  rw [stopBy_calls] at h
  by_cases hcc : c' = c
  · subst hcc
    rw [Function.update_self] at h
    left
    refine ⟨rfl, ?_⟩
    split at h
    · obtain rfl := Option.some.inj h
      rfl
    · split at h
      · rename_i hdestroys
        obtain rfl := Option.some.inj h
        exact hdestroys.symm
      · cases h
  · rw [Function.update_of_ne hcc] at h
    exact .inr h

/-- A thread moved to another phase was alive, and no other thread is affected. -/
theorem alive_of_alive_moved {phase phase' : Phase} (h : s.threads t = some phase)
    (halive : (s.setThread t (some phase')).Alive t') : s.Alive t' := by
  by_cases htt : t' = t
  · subst htt
    intro hnone
    rw [h] at hnone
    cases hnone
  · rw [Alive, setThread_threads_of_ne _ htt] at halive
    exact halive

/-- A thread alive after another exits was alive before. -/
theorem alive_of_alive_exited (halive : (s.setThread t none).Alive t') : s.Alive t' := by
  by_cases htt : t' = t
  · subst htt
    exact absurd (setThread_threads_self _) halive
  · rw [Alive, setThread_threads_of_ne _ htt] at halive
    exact halive

/-! ## The effects of a step -/

/-- Everything a step can do. -/
inductive Effect (s : System) : Action → System → Prop
  | startIgnored (c : Caller) (create : PthreadCreate) : Effect s (.start c create) s
  | startFailed (c : Caller) (code : Errno) (junk : Option ThreadId) :
      s.destroyer = none → Effect s (.start c (.failed code junk))
        { s with sampler := { s.sampler with isRunning := false, thread := junk } }
  | started (c : Caller) (t : ThreadId) :
      s.destroyer = none → s.sampler.isRunning = false → s.threads t = none →
        Effect s (.start c (.created t))
          ({ s with sampler := { s.sampler with isRunning := true, thread := some t } }.setThread t
            (some .top))
  | stopped (c : Caller) : s.destroyer = none → Effect s (.stop c) (s.stopBy c false)
  | destroyed (n : ℕ) : s.destroyer = none →
      Effect s (.destroy n) { s.stopBy (.other n) true with destroyer := some (.other n) }
  | join (c : Caller) (destroys : Bool) : s.calls c = some ⟨destroys, .unlocked⟩ →
      Effect s (.join c) (s.setCall c (some ⟨destroys, .joining s.sampler.thread⟩))
  | joined (c : Caller) (destroys : Bool) (target : Option ThreadId) :
      s.calls c = some ⟨destroys, .joining target⟩ → s.joinReturns c target = true →
        Effect s (.joined c) (s.afterStop c ⟨destroys, .joining target⟩)
  | freed (c : Caller) : s.calls c = some ⟨true, .stopped⟩ →
      Effect s (.free c) { s.setCall c none with freed := true }
  | moved {a : Action} (t : ThreadId) (phase phase' : Phase) (ringBuffer : RingBuffer) :
      s.threads t = some phase → (phase' = .leaving → s.sampler.isRunning = false) →
        Effect s a ({ s with sampler := { s.sampler with ringBuffer := ringBuffer } }.setThread t
          (some phase'))
  | exited (t : ThreadId) : s.threads t = some .leaving → Effect s (.exit t) (s.setThread t none)

/-- An iteration leaves the flag and the name of the thread as they were. -/
theorem iteration_eq_some {sampler sampler' : Sampler} {capture : Capture}
    {answer : Option Bool} (h : sampler.iteration capture = some (answer, sampler')) :
    ∃ ringBuffer, sampler' = { sampler with ringBuffer := ringBuffer } ∧
      (answer = none → sampler.isRunning = false) := by
  rw [iteration] at h
  split at h
  · rename_i hstop
    obtain ⟨-, rfl⟩ := Prod.mk.inj (Option.some.inj h)
    exact ⟨sampler.ringBuffer, rfl, fun _ => by simpa using hstop⟩
  · obtain ⟨ringBuffer, -, h⟩ := Option.bind_eq_some_iff.mp h
    obtain ⟨rfl, rfl⟩ := Prod.mk.inj (Option.some.inj h)
    refine ⟨ringBuffer, rfl, ?_⟩
    intro hnone
    cases hnone

theorem next_start {c : Caller} {create : PthreadCreate}
    (h : s.next (.start c create) = some s') : Effect s (.start c create) s' := by
  simp only [next] at h
  split at h
  · rename_i hcan
    have hdestroyer : s.destroyer = none := destroyer_of_canCall hcan
    cases hrun : s.sampler.isRunning with
    | true =>
        rw [startSection_of_running hrun] at h
        obtain rfl := Option.some.inj h
        exact .startIgnored c create
    | false =>
        rw [startSection_of_not_running hrun] at h
        cases create with
        | failed code junk =>
            obtain rfl := Option.some.inj h
            exact .startFailed c code junk hdestroyer
        | created t =>
            simp only at h
            split at h
            · rename_i hnew
              obtain rfl := Option.some.inj h
              exact .started c t hdestroyer hrun (Option.isNone_iff_eq_none.mp hnew)
            · cases h
  · cases h

theorem next_iterate {t : ThreadId} {capture : Capture}
    (h : s.next (.iterate t capture) = some s') : Effect s (.iterate t capture) s' := by
  simp only [next] at h
  split at h
  · rename_i htop
    obtain ⟨⟨answer, sampler⟩, hiter, h⟩ := Option.bind_eq_some_iff.mp h
    obtain ⟨ringBuffer, rfl, hleave⟩ := iteration_eq_some hiter
    cases answer with
    | none =>
        obtain rfl := Option.some.inj h
        exact .moved t .top .leaving ringBuffer htop (fun _ => hleave rfl)
    | some notify =>
        obtain rfl := Option.some.inj h
        refine .moved t .top _ ringBuffer htop ?_
        intro hphase
        split at hphase
        · cases hphase
        · cases hphase
  · cases h

/-- A step has one of the effects. -/
theorem next_effect (h : s.next a = some s') : Effect s a s' := by
  cases a with
  | start c create => exact next_start h
  | iterate t capture => exact next_iterate h
  | stop c =>
      simp only [next] at h
      split at h
      · rename_i hcan
        obtain rfl := Option.some.inj h
        exact .stopped c (destroyer_of_canCall hcan)
      · cases h
  | destroy n =>
      simp only [next] at h
      split at h
      · rename_i hcan
        obtain rfl := Option.some.inj h
        exact .destroyed n (destroyer_of_canCall hcan)
      · cases h
  | join c =>
      simp only [next] at h
      split at h
      · rename_i destroys hcall
        obtain rfl := Option.some.inj h
        exact .join c destroys hcall
      · cases h
  | joined c =>
      simp only [next] at h
      split at h
      · rename_i destroys target hcall
        split at h
        · rename_i hreturns
          obtain rfl := Option.some.inj h
          exact .joined c destroys target hcall hreturns
        · cases h
      · cases h
  | free c =>
      simp only [next] at h
      split at h
      · rename_i hcall
        obtain rfl := Option.some.inj h
        exact .freed c hcall
      · cases h
  | callbackReturns t =>
      simp only [next] at h
      split at h
      · rename_i hphase _
        obtain rfl := Option.some.inj h
        exact .moved t .callback .sleeping s.sampler.ringBuffer hphase (fun h => by cases h)
      · cases h
  | wake t =>
      simp only [next] at h
      split at h
      · rename_i hphase
        obtain rfl := Option.some.inj h
        exact .moved t .sleeping .top s.sampler.ringBuffer hphase (fun h => by cases h)
      · cases h
  | exit t =>
      simp only [next] at h
      split at h
      · rename_i hphase
        obtain rfl := Option.some.inj h
        exact .exited t hphase
      · cases h

/-- A thread that is alive was alive, or a start has created it. -/
theorem alive_of_step (h : Step s a s') (halive : s'.Alive t) :
    s.Alive t ∨ ∃ c, a = .start c (.created t) := by
  cases next_effect h with
  | startIgnored c create => exact .inl halive
  | startFailed c code junk _ => exact .inl halive
  | started c t' _ _ _ =>
      by_cases htt : t = t'
      · exact .inr ⟨c, by rw [htt]⟩
      · rw [Alive, setThread_threads_of_ne _ htt] at halive
        exact .inl halive
  | stopped c _ => exact .inl (by rwa [Alive, stopBy_threads] at halive)
  | destroyed n _ =>
      change (s.stopBy (.other n) true).Alive t at halive
      exact .inl (by rwa [Alive, stopBy_threads] at halive)
  | join c destroys _ => exact .inl halive
  | joined c destroys target _ _ => exact .inl halive
  | freed c _ => exact .inl halive
  | moved t' phase phase' ringBuffer hphase _ =>
      exact .inl (alive_of_alive_moved (s := { s with sampler := _ }) hphase halive)
  | exited t' _ => exact .inl (alive_of_alive_exited halive)

/-- A thread that is alive after a run was alive before it, or created in it. -/
theorem alive_of_exec {as : List Action} {os : List Unit}
    (h : Transition.exec answer s as = some (os, s')) (halive : s'.Alive t) :
    s.Alive t ∨ ∃ c, .start c (.created t) ∈ as := by
  induction as generalizing s os with
  | nil =>
      obtain ⟨-, rfl⟩ := Prod.mk.inj (Option.some.inj h)
      exact .inl halive
  | cons a as ih =>
      obtain ⟨o, s₁, os', s₂, h₁, h₂, heq⟩ := Transition.exec_cons_eq_some.mp h
      obtain ⟨rfl, rfl⟩ := Prod.mk.inj heq
      rcases ih h₂ with hbefore | ⟨c, hmem⟩
      · rcases alive_of_step (step_of_answer h₁) hbefore with hbefore | ⟨c, rfl⟩
        · exact .inl hbefore
        · exact .inr ⟨c, List.mem_cons_self⟩
      · exact .inr ⟨c, List.mem_cons_of_mem _ hmem⟩

end System
end Sampler
end Ctm
