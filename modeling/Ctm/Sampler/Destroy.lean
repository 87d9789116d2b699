import Ctm.Sampler.Threads

/-!
# Destroying a sampler

`sampler_destroy` should not free the sampler under a live sampling thread.  It joins the
thread only when it finds `is_running` set itself, so a stop still in progress, or a stop
made in the callback whose join failed, lets it free the sampler at once while the thread
sleeps or is in its callback.  In the runs where destroy finds no live thread, or a running
one that the sampler names, the property holds.

## Main definitions

* `NoUseAfterFree` — the property.
* `DestroyJoins` — the destroys that keep it.
* `Waited` — the invariant: after destroy began, a live thread is the one it waits for.
-/

namespace Ctm
namespace Sampler
namespace System
variable {s s' : System} {a : Action} {t : ThreadId}

/-- No sampling thread is alive once the sampler is freed. -/
def NoUseAfterFree (s : System) : Prop := s.freed = true → ∀ t, ¬ s.Alive t

/-- A destroy finds `is_running` set whenever a thread is alive, and the sampler names it. -/
def DestroyJoins (s : System) : Action → Prop
  | .destroy _ => ∀ t, s.Alive t → s.sampler.isRunning = true ∧ s.sampler.thread = some t
  | _ => True

/-- The destroyer is about to join the thread, or waits for it. -/
def WaitsFor (s : System) (d : Caller) (t : ThreadId) : Prop :=
  (s.calls d = some ⟨true, .unlocked⟩ ∧ s.sampler.thread = some t) ∨
    s.calls d = some ⟨true, .joining (some t)⟩

/-- Before a destroy nothing is freed; after it began, only its caller destroys, and it
waits for every live thread. -/
structure Waited (s : System) : Prop where
  before : s.destroyer = none →
    s.freed = false ∧ ∀ c call, s.calls c = some call → call.destroys = false
  caller : ∀ d, s.destroyer = some d → ∃ n, d = .other n
  only : ∀ d, s.destroyer = some d →
    ∀ c call, s.calls c = some call → call.destroys = true → c = d
  waits : ∀ d, s.destroyer = some d → ∀ t, s.Alive t → s.freed = false ∧ s.WaitsFor d t

theorem Waited.noUseAfterFree (H : Waited s) : NoUseAfterFree s := by
  intro hfreed t halive
  cases hd : s.destroyer with
  | none => exact Bool.noConfusion ((H.before hd).1.symm.trans hfreed)
  | some d => exact Bool.noConfusion ((H.waits d hd t halive).1.symm.trans hfreed)

/-- A step that leaves the calls and the name alone, and adds no live thread after a
destroy, keeps the invariant. -/
theorem Waited.of_frame (H : Waited s) (hcalls : s'.calls = s.calls)
    (hdestroyer : s'.destroyer = s.destroyer) (hfreed : s'.freed = s.freed)
    (hthread : s.destroyer ≠ none → s'.sampler.thread = s.sampler.thread)
    (halive : s.destroyer ≠ none → ∀ t, s'.Alive t → s.Alive t) : Waited s' where
  before hd := by
    rw [hcalls, hfreed]
    exact H.before (hdestroyer ▸ hd)
  caller d hd := H.caller d (hdestroyer ▸ hd)
  only d hd := by
    rw [hcalls]
    exact H.only d (hdestroyer ▸ hd)
  waits d hd t ht := by
    rw [hdestroyer] at hd
    have hne : s.destroyer ≠ none := by
      rw [hd]
      exact Option.some_ne_none d
    rw [hfreed, WaitsFor, hcalls, hthread hne]
    exact H.waits d hd t (halive hne t ht)

/-- The call of `c` goes on, and stays a stop or a destroy. -/
theorem Waited.setCall (H : Waited s) {c : Caller} {call : Call} {call' : Option Call}
    (hcall : s.calls c = some call) (hkind : ∀ k, call' = some k → k.destroys = call.destroys)
    (hwaits : ∀ t, s.destroyer = some c → s.Alive t → (s.setCall c call').WaitsFor c t) :
    Waited (s.setCall c call') where
  before hd := by
    refine ⟨(H.before hd).1, ?_⟩
    intro c' k hk
    by_cases hcc : c' = c
    · subst hcc
      rw [setCall_calls_self] at hk
      rw [hkind k hk]
      exact (H.before hd).2 c' call hcall
    · rw [setCall_calls_of_ne _ hcc] at hk
      exact (H.before hd).2 c' k hk
  caller d hd := H.caller d hd
  only d hd c' k hk hdestroys := by
    by_cases hcc : c' = c
    · subst hcc
      rw [setCall_calls_self] at hk
      exact H.only d hd c' call hcall ((hkind k hk).symm.trans hdestroys)
    · rw [setCall_calls_of_ne _ hcc] at hk
      exact H.only d hd c' k hk hdestroys
  waits d hd t ht := by
    obtain ⟨hfreed, hw⟩ := H.waits d hd t ht
    refine ⟨hfreed, ?_⟩
    by_cases hdc : d = c
    · subst hdc
      exact hwaits t hd ht
    · rw [WaitsFor, setCall_calls_of_ne _ hdc]
      exact hw

/-- Before a destroy the invariant says only that nothing is freed or destroys. -/
theorem Waited.of_before (hd : s.destroyer = none) (hfreed : s.freed = false)
    (hcalls : ∀ c call, s.calls c = some call → call.destroys = false) : Waited s where
  before _ := ⟨hfreed, hcalls⟩
  caller d h := by
    rw [hd] at h
    cases h
  only d h := by
    rw [hd] at h
    cases h
  waits d h := by
    rw [hd] at h
    cases h

/-- A destroy that finds its thread goes on to wait for it. -/
theorem Waited.destroyed (H : Waited s) {n : ℕ} (hd : s.destroyer = none)
    (hok : DestroyJoins s (.destroy n)) :
    Waited { s.stopBy (.other n) true with destroyer := some (.other n) } where
  before h := by cases h
  caller d h := ⟨n, (Option.some.inj h).symm⟩
  only d h c call hcall hdestroys := by
    rw [← Option.some.inj h]
    rcases stopBy_call hcall with ⟨hc, -⟩ | hcall
    · exact hc
    · exact Bool.noConfusion (((H.before hd).2 c call hcall).symm.trans hdestroys)
  waits d h t ht := by
    obtain rfl := Option.some.inj h
    have halive : s.Alive t := by
      rw [Alive, ← stopBy_threads (s := s) (.other n) true]
      exact ht
    obtain ⟨hrun, hname⟩ := hok t halive
    refine ⟨(stopBy_freed (.other n) true).trans (H.before hd).1, .inl ⟨?_, ?_⟩⟩
    · change (s.stopBy (.other n) true).calls (.other n) = some ⟨true, .unlocked⟩
      rw [stopBy_calls, hrun, Function.update_self]
      rfl
    · exact (stopBy_thread (.other n) true).trans hname

/-- A destroyer past its join waits for nobody, so nobody is alive when it frees. -/
theorem Waited.freed (H : Waited s) {c : Caller} (hcall : s.calls c = some ⟨true, .stopped⟩) :
    Waited { s.setCall c none with freed := true } := by
  have hd : s.destroyer = some c := by
    cases hd : s.destroyer with
    | none => exact Bool.noConfusion ((H.before hd).2 c _ hcall)
    | some d => rw [H.only d hd c _ hcall rfl]
  have hnone : ∀ t, ¬ s.Alive t := by
    intro t ht
    obtain ⟨-, ⟨hunlocked, -⟩ | hjoining⟩ := H.waits c hd t ht
    · rw [hcall] at hunlocked
      cases hunlocked
    · rw [hcall] at hjoining
      cases hjoining
  constructor
  · intro h
    exact absurd (hd.symm.trans h) (Option.some_ne_none c)
  · exact H.caller
  · intro d h c' call hcall' hdestroys
    change (s.setCall c none).calls c' = some call at hcall'
    by_cases hcc : c' = c
    · subst hcc
      rw [setCall_calls_self] at hcall'
      cases hcall'
    · rw [setCall_calls_of_ne _ hcc] at hcall'
      exact H.only d h c' call hcall' hdestroys
  · intro d _ t ht
    exact absurd ht (hnone t)

/-- A step keeps the invariant, when a destroy finds its thread. -/
theorem Waited.step (H : Waited s) (hok : DestroyJoins s a) (h : Step s a s') : Waited s' := by
  cases next_effect h with
  | startIgnored c create => exact H
  | startFailed c code junk hd =>
      exact H.of_frame rfl rfl rfl (fun hne => absurd hd hne) (fun hne => absurd hd hne)
  | started c t hd _ _ =>
      exact H.of_frame rfl rfl rfl (fun hne => absurd hd hne) (fun hne => absurd hd hne)
  | stopped c hd =>
      have hdestroyer : (s.stopBy c false).destroyer = none := (stopBy_destroyer c false).trans hd
      refine .of_before hdestroyer ((stopBy_freed c false).trans (H.before hd).1) ?_
      intro c' call hcall
      rcases stopBy_call hcall with ⟨-, hkind⟩ | hcall
      · exact hkind
      · exact (H.before hd).2 c' call hcall
  | destroyed n hd => exact H.destroyed hd hok
  | join c destroys hcall =>
      refine H.setCall hcall (fun k hk => by obtain rfl := Option.some.inj hk; rfl) ?_
      intro t hd ht
      obtain ⟨-, ⟨hunlocked, hname⟩ | hjoining⟩ := H.waits c hd t ht
      · right
        rw [hcall] at hunlocked
        obtain rfl := congrArg Call.destroys (Option.some.inj hunlocked)
        rw [setCall_calls_self, hname]
      · rw [hcall] at hjoining
        cases hjoining
  | joined c destroys target hcall hreturns =>
      refine H.setCall hcall ?_ ?_
      · intro k hk
        split at hk
        · rename_i hdestroys
          obtain rfl := Option.some.inj hk
          exact hdestroys.symm
        · cases hk
      · -- The join returned, so its target is not alive.
        intro t hd ht
        obtain ⟨n, rfl⟩ := H.caller c hd
        obtain ⟨-, ⟨hunlocked, -⟩ | hjoining⟩ := H.waits _ hd t ht
        · rw [hcall] at hunlocked
          cases hunlocked
        · rw [hcall] at hjoining
          obtain ⟨rfl, hwait⟩ := Call.mk.inj (Option.some.inj hjoining)
          obtain rfl := Wait.joining.inj hwait
          exact absurd (by simpa [joinReturns] using hreturns) ht
  | freed c hcall => exact H.freed hcall
  | moved t phase phase' ringBuffer hphase _ =>
      refine H.of_frame rfl rfl rfl (fun _ => rfl) ?_
      intro _ t' ht'
      exact alive_of_alive_moved (s := { s with sampler := _ }) hphase ht'
  | exited t hphase =>
      exact H.of_frame rfl rfl rfl (fun _ => rfl) (fun _ _ ht' => alive_of_alive_exited ht')

/-- A destroy that finds `is_running` cleared can free the sampler under every live
thread. -/
theorem freed_of_not_running {n : ℕ} (hcan : s.canCall (.other n) = true)
    (hrun : s.sampler.isRunning = false) (ht : s.Alive t) :
    ∃ s₁ s₂, Step s (.destroy n) s₁ ∧ Step s₁ (.free (.other n)) s₂ ∧ s₂.freed = true ∧
      s₂.Alive t := by
  let s₁ : System := { s.stopBy (.other n) true with destroyer := some (.other n) }
  have hcall : s₁.calls (.other n) = some ⟨true, .stopped⟩ := by
    change (s.stopBy (.other n) true).calls (.other n) = _
    rw [stopBy_calls, hrun, Function.update_self]
    rfl
  refine ⟨s₁, { s₁.setCall (.other n) none with freed := true }, if_pos hcan, ?_, rfl, ?_⟩
  · simp only [Step, next, hcall]
  · change (s.stopBy (.other n) true).threads t ≠ none
    rw [stopBy_threads]
    exact ht

/-- **A sampler is not freed under its thread** in every run whose destroy finds
`is_running` set and its live thread named, or no live thread. -/
theorem run_noUseAfterFree
    (h : Transition.Reachable Initial (Transition.Guarded DestroyJoins Step) s) :
    NoUseAfterFree s := by
  have H : Waited s := by
    refine h.invariant Waited ?_ ?_
    · intro s hs
      obtain ⟨_, _, _, _, _, -, rfl⟩ := hs
      exact .of_before rfl rfl (fun _ _ hcall => by cases hcall)
    · intro s a s' H hstep
      exact H.step hstep.1 hstep.2
  exact H.noUseAfterFree

/-- A sampler destroyed while its thread sleeps: the destroy joins the thread, which wakes, finds
`is_running` cleared and exits, and only then frees the sampler. -/
theorem run_noUseAfterFree_joined : ∃ (s s' : System) (os : List Unit),
    s.Alive 1 ∧ s.calls (.other 0) = some ⟨true, .joining (some 1)⟩ ∧
    Transition.exec answer s
      [.wake 1, .iterate 1 ⟨0, [6]⟩, .exit 1, .joined (.other 0), .free (.other 0)] =
        some (os, s') ∧
    s'.freed = true ∧ NoUseAfterFree s' := by
  let before : List Action :=
    [.start (.other 0) (.created 1), .iterate 1 ⟨0, [5]⟩, .callbackReturns 1]
  let after : List Action :=
    [.wake 1, .iterate 1 ⟨0, [6]⟩, .exit 1, .joined (.other 0), .free (.other 0)]
  obtain ⟨os₁, s₁, hrun₁, hrunning⟩ : ∃ os s, Transition.exec answer fresh before = some (os, s) ∧
      s.sampler.isRunning = true ∧ s.sampler.thread = some 1 := ⟨_, _, rfl, rfl, rfl⟩
  obtain ⟨os₂, s₂, hrun₂, hstate⟩ : ∃ os s,
      (Transition.exec answer fresh before).bind (fun r =>
        Transition.exec answer r.2 [.destroy 0, .join (.other 0)]) = some (os, s) ∧
      s.threads 1 = some .sleeping ∧ s.calls (.other 0) = some ⟨true, .joining (some 1)⟩ ∧
      (Transition.exec answer s after).map (fun r => r.2.freed) = some true :=
    ⟨_, _, rfl, rfl, rfl, rfl⟩
  obtain ⟨hthread, hcall, hfreed⟩ := hstate
  obtain ⟨⟨os, s'⟩, hrun, hfreed⟩ := Option.map_eq_some_iff.mp hfreed
  rw [hrun₁] at hrun₂
  refine ⟨s₂, s', os, by rw [Alive, hthread]; exact Option.some_ne_none _, hcall, hrun, hfreed,
    run_noUseAfterFree ?_⟩
  -- Only the destroy has a condition to meet: the one thread is the named one.
  have hone : ∀ t, s₁.Alive t → t = 1 := by
    intro t halive
    rcases alive_of_exec hrun₁ halive with hinit | ⟨c, hmem⟩
    · exact absurd hinit (fresh_initial.threads t)
    · have hstart : c = .other 0 ∧ t = 1 := by simpa [before] using hmem
      exact hstart.2
  have hreach₁ : Transition.Reachable Initial (Transition.Guarded DestroyJoins Step) s₁ :=
    Transition.exec_guarded (fun _ _ _ _ => step_of_answer) (.init fresh_initial) hrun₁
      (Transition.along_of_forall (by simp [before, DestroyJoins]))
  have hreach₂ := Transition.exec_guarded (fun _ _ _ _ => step_of_answer) hreach₁ hrun₂
    ⟨fun t halive => ⟨hrunning.1, hone t halive ▸ hrunning.2⟩,
      fun _ _ _ => ⟨trivial, fun _ _ _ => trivial⟩⟩
  exact Transition.exec_guarded (fun _ _ _ _ => step_of_answer) hreach₂ hrun
    (Transition.along_of_forall (by simp [after, DestroyJoins]))

/-- A stop in the callback cannot join its own thread and returns; the destroy after it finds
`is_running` cleared and frees the sampler with that thread still in its callback. -/
theorem freed_under_thread :
    ¬ ∀ s : System, Transition.Reachable Initial Step s → NoUseAfterFree s := by
  intro hall
  let actions : List Action :=
    [.start (.other 0) (.created 1), .iterate 1 ⟨0, [5]⟩, .stop (.sampling 1), .join (.sampling 1),
      .joined (.sampling 1), .destroy 0, .free (.other 0)]
  obtain ⟨os, s, hrun⟩ : ∃ os s, Transition.exec answer fresh actions = some (os, s) :=
    ⟨_, _, rfl⟩
  have hreach : Transition.Reachable Initial Step s :=
    reachable_of_exec (.init fresh_initial) hrun
  have hstate : (Transition.exec answer fresh actions).map
      (fun r => (r.2.freed, r.2.threads 1)) = some (true, some .callback) := rfl
  rw [hrun] at hstate
  obtain ⟨hfreed, hthread⟩ := Prod.mk.inj (Option.some.inj hstate)
  exact hall s hreach hfreed 1 (by rw [Alive, hthread]; decide)

end System
end Sampler
end Ctm
