import Ctm.Sampler.Ranks

/-!
# No circle of joins

`sampler_stop` joins the thread that `sampler->thread` names, from another thread or from the
callback of a sampling thread.  A thread joins only itself, which fails at once, and threads
created after it, so no joins wait for each other in a circle, unless a `pthread_create` has failed
and left the name of an older thread in `sampler->thread`.

## Main definitions

* `Helps` — a step that a call waits for.
* `no_deadlock` — a call in progress, or something it waits for, can take a step.
-/

namespace Ctm
namespace Sampler
namespace System
variable {s s' : System} {a : Action} {c : Caller} {t t' : ThreadId}

/-- The steps a call waits for: its own, those of the thread it joins, and those that a call in
the callback of that thread waits for. -/
inductive Helps (s : System) : Caller → Action → Prop
  | own {c : Caller} {a : Action} : a.caller = some c → Helps s c a
  | target {c : Caller} {t : ThreadId} {destroys : Bool} {a : Action} :
      s.calls c = some ⟨destroys, .joining (some t)⟩ → a.thread = some t → Helps s c a
  | behind {c : Caller} {t : ThreadId} {destroys : Bool} {a : Action} :
      s.calls c = some ⟨destroys, .joining (some t)⟩ → Helps s (.sampling t) a → Helps s c a

/-! ## Something is always possible -/

/-- A thread out of its callback can take its next step. -/
theorem Ordered.thread_step (H : Ordered s) {phase : Phase} (ht : s.threads t = some phase)
    (hcall : s.calls (.sampling t) = none) : ∃ a s', a.thread = some t ∧ Step s a s' := by
  cases phase with
  | top =>
      cases hrun : s.sampler.isRunning with
      | false =>
          refine ⟨.iterate t ⟨0, []⟩, s.setThread t (some .leaving), rfl, ?_⟩
          simp only [Step, next, ht, iteration_of_stopped hrun]
          rfl
      | true =>
          obtain ⟨n, A⟩ := H.ring
          obtain ⟨x, ringBuffer, hwrite⟩ := A.exists_write
          obtain ⟨s', hstep⟩ : ∃ s', Step s (.iterate t ⟨0, x⟩) s' := by
            simp [Step, next, ht, iteration_of_running hrun, hwrite]
          exact ⟨.iterate t ⟨0, x⟩, s', rfl, hstep⟩
  | callback =>
      refine ⟨.callbackReturns t, s.setThread t (some .sleeping), rfl, ?_⟩
      simp only [Step, next, ht, hcall]
  | sleeping =>
      refine ⟨.wake t, s.setThread t (some .top), rfl, ?_⟩
      simp only [Step, next, ht]
  | leaving =>
      refine ⟨.exit t, s.setThread t none, rfl, ?_⟩
      simp only [Step, next, ht]

/-- A call can go on, or waits for a live thread. -/
theorem Ordered.call_step (H : Ordered s) {call : Call} (hcall : s.calls c = some call) :
    (∃ a s', a.caller = some c ∧ Step s a s') ∨
      ∃ t, call.wait = .joining (some t) ∧ s.Alive t ∧ c ≠ .sampling t := by
  obtain ⟨destroys, wait⟩ := call
  cases wait with
  | unlocked =>
      left
      refine ⟨.join c, s.setCall c (some ⟨destroys, .joining s.sampler.thread⟩), rfl, ?_⟩
      simp only [Step, next, hcall]
  | stopped =>
      left
      obtain rfl : destroys = true := H.stopped c _ hcall rfl
      refine ⟨.free c, { s.setCall c none with freed := true }, rfl, ?_⟩
      simp only [Step, next, hcall]
  | joining target =>
      by_cases hreturns : s.joinReturns c target = true
      · left
        refine ⟨.joined c, s.afterStop c ⟨destroys, .joining target⟩, rfl, ?_⟩
        simp only [Step, next, hcall]
        exact if_pos hreturns
      · right
        cases target with
        | none => exact absurd rfl hreturns
        | some t =>
            simp only [joinReturns, Bool.or_eq_true, beq_iff_eq, Option.isNone_iff_eq_none,
              not_or] at hreturns
            exact ⟨t, rfl, hreturns.2, hreturns.1⟩

/-- Whatever a live thread's exit waits for can take a step: induction on how many ranks are
above the thread, since a thread joins only later ones. -/
theorem Ordered.alive_step (H : Ordered s) {rank : ThreadId → ℕ} (R : Ranked s rank) {bound : ℕ}
    (hbound : ∀ t, s.Alive t → rank t < bound) {k : ℕ} (ht : s.Alive t)
    (hk : bound - rank t = k) :
    ∃ a s', (a.thread = some t ∨ Helps s (.sampling t) a) ∧ Step s a s' := by
  induction k using Nat.strong_induction_on generalizing t with
  | _ k ih =>
      obtain ⟨phase, hphase⟩ := Option.ne_none_iff_exists'.mp ht
      cases hcall : s.calls (.sampling t) with
      | none =>
          obtain ⟨a, s', ha, hstep⟩ := H.thread_step hphase hcall
          exact ⟨a, s', .inl ha, hstep⟩
      | some call =>
          rcases H.call_step hcall with ⟨a, s', ha, hstep⟩ | ⟨t', hwait, ht', hne⟩
          · exact ⟨a, s', .inr (.own ha), hstep⟩
          · obtain ⟨destroys, wait⟩ := call
            obtain rfl : wait = .joining (some t') := hwait
            have hlt : rank t < rank t' := by
              rcases R.joins t t' destroys hcall ht' with htt | hlt
              · exact absurd (congrArg Caller.sampling htt.symm) hne
              · exact hlt
            have hlt' := hbound t' ht'
            obtain ⟨a, s', ha, hstep⟩ := ih (bound - rank t') (by omega) ht' rfl
            refine ⟨a, s', .inr ?_, hstep⟩
            rcases ha with ha | ha
            · exact .target hcall ha
            · exact .behind hcall ha

theorem Ordered.exists_alive_step (H : Ordered s) (ht : s.Alive t) :
    ∃ a s', (a.thread = some t ∨ Helps s (.sampling t) a) ∧ Step s a s' := by
  obtain ⟨rank, R⟩ := H.ranked
  obtain ⟨bound, hbound⟩ := R.bounded
  exact H.alive_step R hbound ht rfl

/-- A call in progress, or something it waits for, can take a step. -/
theorem Ordered.exists_call_step (H : Ordered s) (hcall : s.calls c ≠ none) :
    ∃ a s', Helps s c a ∧ Step s a s' := by
  obtain ⟨call, hcall⟩ := Option.ne_none_iff_exists'.mp hcall
  rcases H.call_step hcall with ⟨a, s', ha, hstep⟩ | ⟨t, hwait, ht, -⟩
  · exact ⟨a, s', .own ha, hstep⟩
  · obtain ⟨destroys, wait⟩ := call
    obtain rfl : wait = .joining (some t) := hwait
    obtain ⟨a, s', ha, hstep⟩ := H.exists_alive_step ht
    refine ⟨a, s', ?_, hstep⟩
    rcases ha with ha | ha
    · exact .target hcall ha
    · exact .behind hcall ha

/-- **No joins wait for each other in a circle.**  In every run whose failing starts leave no
older thread named, whatever calls are in progress and whichever threads they join, a call in
progress, or something it waits for, can take its next step. -/
theorem no_deadlock
    (h : Transition.Reachable Initial (Transition.Guarded KeepsName Step) s)
    (hcall : s.calls c ≠ none) : ∃ a s', Helps s c a ∧ Step s a s' :=
  (Ordered.of_reachable h).exists_call_step hcall

/-- A thread stopped in its callback joins one started since, which is in its own callback. -/
theorem no_deadlock_second : ∃ s : System,
    s.calls (.sampling 1) = some ⟨false, .joining (some 2)⟩ ∧
      s.calls (.sampling 2) = some ⟨false, .unlocked⟩ ∧
        ∃ a s', Helps s (.sampling 1) a ∧ Step s a s' := by
  let actions : List Action :=
    [.start (.other 0) (.created 1), .iterate 1 ⟨0, [5]⟩, .stop (.sampling 1),
      .start (.other 0) (.created 2), .iterate 2 ⟨0, [6]⟩, .join (.sampling 1), .stop (.sampling 2)]
  obtain ⟨os, s, hrun⟩ : ∃ os s, Transition.exec answer fresh actions = some (os, s) :=
    ⟨_, _, rfl⟩
  have hcalls : (Transition.exec answer fresh actions).map
      (fun r => (r.2.calls (.sampling 1), r.2.calls (.sampling 2))) =
      some (some ⟨false, .joining (some 2)⟩, some ⟨false, .unlocked⟩) := rfl
  rw [hrun] at hcalls
  obtain ⟨h₁, h₂⟩ := Prod.mk.inj (Option.some.inj hcalls)
  refine ⟨s, h₁, h₂, no_deadlock (keepsName_of_exec ?_ (.init fresh_initial) hrun) ?_⟩
  · simp [actions]
  · rw [h₁]
    exact Option.some_ne_none _

/-- A call that joins another thread, live and in a callback with its own call, is not helped by
itself or by that thread. -/
theorem not_helped {destroys : Bool} (hcall : s.calls c = some ⟨destroys, .joining (some t)⟩)
    (hne : c ≠ .sampling t) (ht : s.threads t = some .callback)
    (hbusy : s.calls (.sampling t) ≠ none) :
    (∀ a s', a.caller = some c → ¬ Step s a s') ∧ ∀ a s', a.thread = some t → ¬ Step s a s' := by
  constructor
  · intro a s' ha hstep
    cases turn hstep with
    | join c' destroys' hold =>
        obtain rfl := Option.some.inj ha
        rw [hcall] at hold
        cases hold
    | joined c' destroys' target hold hreturns =>
        obtain rfl := Option.some.inj ha
        rw [hcall] at hold
        obtain ⟨-, hwait⟩ := Call.mk.inj (Option.some.inj hold)
        obtain rfl := Wait.joining.inj hwait
        simp [joinReturns, hne, ht] at hreturns
    | freed c' hold =>
        obtain rfl := Option.some.inj ha
        rw [hcall] at hold
        cases hold
    | _ => cases ha
  · intro a s' ha hstep
    cases turn hstep with
    | sampled t' capture ringBuffer phase htop hrun hwrite hphase =>
        obtain rfl := Option.some.inj ha
        rw [ht] at htop
        cases htop
    | left t' capture htop hrun =>
        obtain rfl := Option.some.inj ha
        rw [ht] at htop
        cases htop
    | returned t' hphase hnone =>
        obtain rfl := Option.some.inj ha
        exact hbusy hnone
    | woke t' hphase =>
        obtain rfl := Option.some.inj ha
        rw [ht] at hphase
        cases hphase
    | exited t' hphase =>
        obtain rfl := Option.some.inj ha
        rw [ht] at hphase
        cases hphase
    | _ => cases ha

/-- Two calls that join each other's threads are never helped. -/
theorem not_helped_circle {t₁ t₂ : ThreadId} (hne : t₁ ≠ t₂)
    (h₁ : s.calls (.sampling t₁) = some ⟨false, .joining (some t₂)⟩)
    (h₂ : s.calls (.sampling t₂) = some ⟨false, .joining (some t₁)⟩)
    (ht₁ : s.threads t₁ = some .callback) (ht₂ : s.threads t₂ = some .callback)
    (hhelps : Helps s c a) (hc : c = .sampling t₁ ∨ c = .sampling t₂) : ¬ Step s a s' := by
  have H₁ := not_helped h₁ (fun h => hne (Caller.sampling.inj h)) ht₂ (by simp [h₂])
  have H₂ := not_helped h₂ (fun h => hne (Caller.sampling.inj h).symm) ht₁ (by simp [h₁])
  induction hhelps with
  | own ha =>
      rcases hc with rfl | rfl
      · exact H₁.1 _ s' ha
      · exact H₂.1 _ s' ha
  | target hcall ha =>
      rcases hc with rfl | rfl
      · rw [h₁] at hcall
        cases hcall
        exact H₁.2 _ s' ha
      · rw [h₂] at hcall
        cases hcall
        exact H₂.2 _ s' ha
  | behind hcall _ ih =>
      rcases hc with rfl | rfl
      · rw [h₁] at hcall
        cases hcall
        exact ih (.inr rfl)
      · rw [h₂] at hcall
        cases hcall
        exact ih (.inl rfl)

/-- A failed `pthread_create` that leaves the name of an older thread lets two sampling threads
join each other for ever. -/
theorem joins_circle : ∃ s : System, Transition.Reachable Initial Step s ∧
    s.calls (.sampling 1) ≠ none ∧ ∀ a s', Helps s (.sampling 1) a → ¬ Step s a s' := by
  let actions : List Action :=
    [.start (.other 0) (.created 1), .iterate 1 ⟨0, [5]⟩, .stop (.sampling 1),
      .start (.other 0) (.created 2), .iterate 2 ⟨0, [6]⟩, .join (.sampling 1), .stop (.sampling 2),
      .start (.other 0) (.failed .EAGAIN (some 1)), .join (.sampling 2)]
  obtain ⟨os, s, hrun⟩ : ∃ os s, Transition.exec answer fresh actions = some (os, s) :=
    ⟨_, _, rfl⟩
  have hstate : (Transition.exec answer fresh actions).map
      (fun r => ((r.2.calls (.sampling 1), r.2.calls (.sampling 2)),
        (r.2.threads 1, r.2.threads 2))) =
      some ((some ⟨false, .joining (some 2)⟩, some ⟨false, .joining (some 1)⟩),
        (some .callback, some .callback)) := rfl
  rw [hrun] at hstate
  obtain ⟨hcalls, hthreads⟩ := Prod.mk.inj (Option.some.inj hstate)
  obtain ⟨h₁, h₂⟩ := Prod.mk.inj hcalls
  obtain ⟨ht₁, ht₂⟩ := Prod.mk.inj hthreads
  refine ⟨s, reachable_of_exec (.init fresh_initial) hrun,
    ne_of_eq_of_ne h₁ (Option.some_ne_none _), ?_⟩
  intro a s' hhelps
  exact not_helped_circle (by decide) h₁ h₂ ht₁ ht₂ hhelps (.inl rfl)

end System
end Sampler
end Ctm
