import Ctm.Sampler.Threads

/-!
# One sampling thread

A sampler should have one sampling thread at a time, and name it while it runs.  A start
that comes between a stop's unlock and the old thread's next test of the flag breaks
this: it creates a second thread, and turns the flag back on for the first.  In the runs
whose starts create a thread only when none is alive the property holds.

## Main definitions

* `OneThread` — the property.
* `StartsAlone` — the starts that keep it.
-/

namespace Ctm
namespace Sampler
namespace System
variable {s s' : System} {a : Action} {t t' : ThreadId}

/-- At most one thread is alive, and the sampler names it while it runs. -/
structure OneThread (s : System) : Prop where
  unique : ∀ t t', s.Alive t → s.Alive t' → t = t'
  named : s.sampler.isRunning = true → ∃ t, s.sampler.thread = some t ∧ s.Alive t

/-- A start that finds `is_running` cleared and creates a thread does so when no sampling
thread is alive. -/
def StartsAlone (s : System) : Action → Prop
  | .start _ (.created _) => s.sampler.isRunning = false → ∀ t, ¬ s.Alive t
  | _ => True

/-- One thread at most, and the one the sampler names while it runs has not left its loop. -/
structure OneLoop (s : System) : Prop where
  unique : ∀ t t', s.Alive t → s.Alive t' → t = t'
  named : s.sampler.isRunning = true →
    ∃ t phase, s.sampler.thread = some t ∧ s.threads t = some phase ∧ phase ≠ .leaving

theorem OneLoop.oneThread (H : OneLoop s) : OneThread s where
  unique := H.unique
  named hrun := by
    obtain ⟨t, phase, hname, hphase, -⟩ := H.named hrun
    exact ⟨t, hname, by rw [Alive, hphase]; exact Option.some_ne_none _⟩

/-- A sampler that does not run only has to have one thread at most. -/
theorem OneLoop.of_not_running (hrun : s.sampler.isRunning = false)
    (hunique : ∀ t t', s.Alive t → s.Alive t' → t = t') : OneLoop s := by
  refine ⟨hunique, ?_⟩
  intro h
  rw [hrun] at h
  cases h

/-- A step keeps the one thread, when a start creates one only alone. -/
theorem OneLoop.step (H : OneLoop s) (hok : StartsAlone s a) (h : Step s a s') : OneLoop s' := by
  cases next_effect h with
  | startIgnored c create => exact H
  | startFailed c code junk => exact .of_not_running rfl H.unique
  | started c t _ hrun _ =>
      have hnone : ∀ t', s.threads t' = none := fun t' => not_not.mp (hok hrun t')
      constructor
      · -- Only the new thread is alive.
        have honly : ∀ t₁, (({ s with sampler := { s.sampler with
            isRunning := true, thread := some t } } : System).setThread t (some .top)).Alive t₁ →
            t₁ = t := by
          intro t₁ h₁
          by_contra hne
          rw [Alive, setThread_threads_of_ne _ hne] at h₁
          exact h₁ (hnone t₁)
        intro t₁ t₂ h₁ h₂
        rw [honly t₁ h₁, honly t₂ h₂]
      · intro _
        exact ⟨t, .top, rfl, setThread_threads_self _, by decide⟩
  | stopped c _ => exact .of_not_running (stopBy_isRunning c false) (by simpa [Alive] using H.unique)
  | destroyed n _ =>
      exact .of_not_running (stopBy_isRunning (.other n) true) (by simpa [Alive] using H.unique)
  | join c destroys _ => exact ⟨H.unique, H.named⟩
  | joined c destroys target _ _ => exact ⟨H.unique, H.named⟩
  | freed c _ => exact ⟨H.unique, H.named⟩
  | moved t phase phase' ringBuffer hphase hleave =>
      constructor
      · intro t₁ t₂ h₁ h₂
        exact H.unique t₁ t₂ (alive_of_alive_moved (s := { s with sampler := _ }) hphase h₁)
          (alive_of_alive_moved (s := { s with sampler := _ }) hphase h₂)
      · intro hrun
        obtain ⟨t', phase'', hname, hphase'', hne⟩ := H.named hrun
        by_cases htt : t' = t
        · subst htt
          refine ⟨t', phase', hname, setThread_threads_self _, ?_⟩
          intro hleaving
          have := hleave hleaving
          exact Bool.noConfusion (this.symm.trans hrun)
        · exact ⟨t', phase'', hname, (setThread_threads_of_ne _ htt).trans hphase'', hne⟩
  | exited t hphase =>
      constructor
      · intro t₁ t₂ h₁ h₂
        exact H.unique t₁ t₂ (alive_of_alive_exited h₁) (alive_of_alive_exited h₂)
      · intro hrun
        obtain ⟨t', phase, hname, hphase', hne⟩ := H.named hrun
        have htt : t' ≠ t := by
          intro htt
          rw [htt, hphase] at hphase'
          exact hne (Option.some.inj hphase').symm
        exact ⟨t', phase, hname, (setThread_threads_of_ne _ htt).trans hphase', hne⟩

/-- A start that creates a thread adds one that was not alive. -/
theorem threads_of_created {c : Caller} (hrun : s.sampler.isRunning = false)
    (h : Step s (.start c (.created t)) s') :
    s.threads t = none ∧ s'.threads = Function.update s.threads t (some .top) := by
  simp only [Step, next, startSection_of_not_running hrun] at h
  split at h
  · split at h
    · rename_i hnew
      obtain rfl := Option.some.inj h
      exact ⟨Option.isNone_iff_eq_none.mp hnew, rfl⟩
    · cases h
  · cases h

/-- A start that creates a thread keeps the property only when it starts alone. -/
theorem startsAlone_of_oneThread {c : Caller} (h : Step s (.start c (.created t)) s')
    (H : OneThread s') : StartsAlone s (.start c (.created t)) := by
  intro hrun t' halive
  obtain ⟨hnew, hthreads⟩ := threads_of_created hrun h
  have hne : t' ≠ t := by
    intro htt
    rw [htt] at halive
    exact halive hnew
  refine hne (H.unique t' t ?_ ?_)
  · rw [Alive, hthreads, Function.update_of_ne hne]
    exact halive
  · rw [Alive, hthreads, Function.update_self]
    exact Option.some_ne_none _

/-- **A sampler has one sampling thread** in every run whose starts create a thread only
when none is alive. -/
theorem run_oneThread
    (h : Transition.Reachable Initial (Transition.Guarded StartsAlone Step) s) :
    OneThread s := by
  have H : OneLoop s := by
    refine h.invariant OneLoop ?_ ?_
    · intro s hs
      exact .of_not_running hs.not_running (fun t _ h => absurd h (hs.threads t))
    · intro s a s' H hstep
      exact H.step hstep.1 hstep.2
  exact H.oneThread

/-- A start after a stop whose thread has exited: the new thread is the one alive, and named. -/
theorem run_oneThread_restarted : ∃ s : System,
    s.sampler.isRunning = true ∧ s.threads 1 = none ∧ s.Alive 2 ∧ OneThread s := by
  let before : List Action :=
    [.start (.other 0) (.created 1), .iterate 1 ⟨0, [5]⟩, .callbackReturns 1, .stop (.other 0),
      .join (.other 0), .wake 1, .iterate 1 ⟨0, [6]⟩, .exit 1, .joined (.other 0)]
  obtain ⟨os₁, s₁, hrun₁, hexited⟩ : ∃ os s, Transition.exec answer fresh before = some (os, s) ∧
      s.threads 1 = none := ⟨_, _, rfl, rfl⟩
  obtain ⟨os₂, s₂, hrun₂, hrunning, hthread, hthread'⟩ : ∃ os s,
      (Transition.exec answer fresh before).bind (fun r =>
        Transition.exec answer r.2 [.start (.other 1) (.created 2)]) = some (os, s) ∧
      s.sampler.isRunning = true ∧ s.threads 1 = none ∧ s.threads 2 = some .top :=
    ⟨_, _, rfl, rfl, rfl, rfl⟩
  rw [hrun₁] at hrun₂
  refine ⟨s₂, hrunning, hthread, by rw [Alive, hthread']; exact Option.some_ne_none _,
    run_oneThread ?_⟩
  have hnone : ∀ t, ¬ s₁.Alive t := by
    intro t halive
    rcases alive_of_exec hrun₁ halive with hinit | ⟨c, hmem⟩
    · exact absurd hinit (fresh_initial.threads t)
    · have hstart : c = .other 0 ∧ t = 1 := by simpa [before] using hmem
      rw [hstart.2] at halive
      exact halive hexited
  have hreach₁ : Transition.Reachable Initial (Transition.Guarded StartsAlone Step) s₁ :=
    Transition.exec_guarded (fun _ _ _ _ => step_of_answer) (.init fresh_initial) hrun₁
      ⟨fun _ => fresh_initial.threads,
        fun _ _ _ => Transition.along_of_forall (by simp [StartsAlone])⟩
  exact Transition.exec_guarded (fun _ _ _ _ => step_of_answer) hreach₁ hrun₂
    ⟨fun _ => hnone, fun _ _ _ => trivial⟩

/-- A start between a stop's unlock and the old thread's next test of the flag leaves two
threads alive. -/
theorem two_threads : ¬ ∀ s : System, Transition.Reachable Initial Step s → OneThread s := by
  intro hall
  let actions : List Action :=
    [.start (.other 0) (.created 1), .stop (.other 0), .start (.other 1) (.created 2)]
  obtain ⟨os, s, hrun⟩ : ∃ os s, Transition.exec answer fresh actions = some (os, s) :=
    ⟨_, _, rfl⟩
  have hreach : Transition.Reachable Initial Step s :=
    reachable_of_exec (.init fresh_initial) hrun
  have hthreads : (Transition.exec answer fresh actions).map
      (fun r => (r.2.threads 1, r.2.threads 2)) = some (some .top, some .top) := rfl
  rw [hrun] at hthreads
  obtain ⟨h₁, h₂⟩ := Prod.mk.inj (Option.some.inj hthreads)
  have := (hall s hreach).unique 1 2 (by rw [Alive, h₁]; decide) (by rw [Alive, h₂]; decide)
  cases this

end System
end Sampler
end Ctm
