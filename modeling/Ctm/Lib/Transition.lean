import Mathlib.Logic.Relation

/-!
# Runs of a labelled transition relation

A system is an initial-state predicate and a relation `step s e s'` saying that the
event `e` can take `s` to `s'`.  `Reachable` closes the initial states under the
steps; `Run` also keeps the list of events.  The guarded forms admit only steps whose
source state and event satisfy a condition.

Deterministic machines that answer each event are covered by `exec`, whose result is
`none` when some step does not return.

## Main definitions

* `Reachable init step` — the reachable states, with the rule `Reachable.invariant`.
* `Guarded ok step` — the steps allowed by `ok`.
* `Reachable.foldlM` — a run of a partial step function.
* `restrict ok next`, `Reachable.foldlM_restrict` — the same, of the allowed steps.
* `exec step s es` — the answers and final state of a deterministic machine.
* `exec_total`, `exec_reachable`, `exec_guarded`, `exec_lockstep`, `exec_simulates` — the run
  rules for `exec`.
* `Along ok step s es` — a condition on every event of a run, in the state it meets.
-/

namespace Transition

variable {σ ε ο α : Type*}

/-- The states a system can be in. -/
inductive Reachable (init : σ → Prop) (step : σ → ε → σ → Prop) : σ → Prop
  | init {s : σ} : init s → Reachable init step s
  | step {s s' : σ} {e : ε} : Reachable init step s → step s e s' → Reachable init step s'

/-- The steps of `step` taken where `ok` holds of the source state and the event. -/
def Guarded (ok : σ → ε → Prop) (step : σ → ε → σ → Prop) (s : σ) (e : ε) (s' : σ) : Prop :=
  ok s e ∧ step s e s'

section Reachable
variable {init : σ → Prop} {step : σ → ε → σ → Prop}

/-- A predicate that holds initially and is preserved by every step holds of every
reachable state. -/
theorem Reachable.invariant {s : σ} (h : Reachable init step s) (I : σ → Prop)
    (h0 : ∀ s, init s → I s) (hstep : ∀ s e s', I s → step s e s' → I s') : I s := by
  induction h with
  | init hs => exact h0 _ hs
  | step _ hs ih => exact hstep _ _ _ ih hs

/-- Allowing only some steps reaches no new states. -/
theorem Reachable.of_guarded {ok : σ → ε → Prop} {s : σ}
    (h : Reachable init (Guarded ok step) s) : Reachable init step s := by
  induction h with
  | init hs => exact .init hs
  | step _ hs ih => exact ih.step hs.2

/-- Each event taken by a partial step function leads from a reachable state to another. -/
theorem Reachable.foldlM {next : σ → ε → Option σ}
    (hnext : ∀ s e s', next s e = some s' → step s e s') {s s' : σ} (h : Reachable init step s)
    {es : List ε} (hes : es.foldlM next s = some s') : Reachable init step s' := by
  induction es generalizing s with
  | nil =>
      obtain rfl := Option.some.inj hes
      exact h
  | cons e es ih =>
      obtain ⟨s₁, h₁, h₂⟩ := Option.bind_eq_some_iff.mp hes
      exact ih (h.step (hnext s e s₁ h₁)) h₂

/-- A partial step function on the steps `ok` allows. -/
def restrict (ok : σ → ε → Prop) [∀ s e, Decidable (ok s e)] (next : σ → ε → Option σ) (s : σ)
    (e : ε) : Option σ :=
  if ok s e then next s e else none

theorem Reachable.foldlM_restrict {ok : σ → ε → Prop} [∀ s e, Decidable (ok s e)]
    {next : σ → ε → Option σ} (hnext : ∀ s e s', next s e = some s' → step s e s') {s s' : σ}
    (h : Reachable init (Guarded ok step) s) {es : List ε}
    (hes : es.foldlM (restrict ok next) s = some s') : Reachable init (Guarded ok step) s' := by
  refine Reachable.foldlM ?_ h hes
  intro s e s' hs
  rw [restrict] at hs
  split at hs
  · rename_i hok
    exact ⟨hok, hnext s e s' hs⟩
  · cases hs

end Reachable

/-! ## Deterministic machines -/

/-- Feed the events `es` to a machine, collecting its answers. -/
def exec (step : σ → ε → Option (ο × σ)) : σ → List ε → Option (List ο × σ)
  | s, [] => some ([], s)
  | s, e :: es => do
      let (o, s₁) ← step s e
      let (os, s₂) ← exec step s₁ es
      pure (o :: os, s₂)

/-- The answers and final state of a machine that always returns. -/
def specExec (step : α → ε → ο × α) : α → List ε → List ο × α
  | a, [] => ([], a)
  | a, e :: es =>
      let r := step a e
      let rs := specExec step r.2 es
      (r.1 :: rs.1, rs.2)

/-- Each event of the run meets the condition in the state it is taken in. -/
def Along (ok : σ → ε → Prop) (step : σ → ε → Option (ο × σ)) : σ → List ε → Prop
  | _, [] => True
  | s, e :: es => ok s e ∧ ∀ o s', step s e = some (o, s') → Along ok step s' es

instance Along.decidable (ok : σ → ε → Prop) [∀ s e, Decidable (ok s e)]
    (step : σ → ε → Option (ο × σ)) : ∀ s es, Decidable (Along ok step s es)
  | _, [] => inferInstanceAs (Decidable True)
  | s, e :: es =>
      have : ∀ s', Decidable (Along ok step s' es) := fun s' => Along.decidable ok step s' es
      decidable_of_iff (ok s e ∧ ∀ r ∈ step s e, Along ok step r.2 es)
        (and_congr_right fun _ =>
          ⟨fun h o s' hs => h (o, s') hs, fun h r hr => h r.1 r.2 hr⟩)

section Exec
variable {step : σ → ε → Option (ο × σ)} {s : σ} {es : List ε}

@[simp] theorem exec_nil : exec step s [] = some ([], s) := rfl

theorem exec_cons_eq_some {e : ε} {r : List ο × σ} :
    exec step s (e :: es) = some r ↔
      ∃ o s₁ os s₂, step s e = some (o, s₁) ∧ exec step s₁ es = some (os, s₂) ∧
        r = (o :: os, s₂) := by
  simp only [exec, Option.bind_eq_bind, Option.bind_eq_some_iff, Option.pure_def, Prod.exists,
    Option.some.injEq]
  constructor
  · rintro ⟨o, s₁, h₁, os, s₂, h₂, rfl⟩
    exact ⟨o, s₁, os, s₂, h₁, h₂, rfl⟩
  · rintro ⟨o, s₁, os, s₂, h₁, h₂, rfl⟩
    exact ⟨o, s₁, h₁, os, s₂, h₂, rfl⟩

theorem along_cons {ok : σ → ε → Prop} {e : ε} {o : ο} {s' : σ} (h : step s e = some (o, s')) :
    Along ok step s (e :: es) ↔ ok s e ∧ Along ok step s' es := by
  constructor
  · rintro ⟨hok, hrest⟩
    exact ⟨hok, hrest o s' h⟩
  · rintro ⟨hok, hrest⟩
    refine ⟨hok, ?_⟩
    intro o' s'' h'
    obtain ⟨-, rfl⟩ := Prod.mk.inj (Option.some.inj (h.symm.trans h'))
    exact hrest

/-- A condition that the events alone settle. -/
theorem along_of_forall {ok : σ → ε → Prop} (h : ∀ e ∈ es, ∀ s, ok s e) : Along ok step s es := by
  induction es generalizing s with
  | nil => trivial
  | cons e es ih =>
      refine ⟨h e List.mem_cons_self s, ?_⟩
      intro o s' _
      exact ih fun e' he' => h e' (List.mem_cons_of_mem _ he')

/-- A machine whose steps return and keep `I` returns on every list of events. -/
theorem exec_total (I : σ → Prop)
    (hstep : ∀ s e, I s → ∃ o s', step s e = some (o, s') ∧ I s') (hs : I s) (es : List ε) :
    ∃ os s', exec step s es = some (os, s') ∧ I s' := by
  induction es generalizing s with
  | nil => exact ⟨[], s, rfl, hs⟩
  | cons e es ih =>
      obtain ⟨o, s₁, h₁, hI₁⟩ := hstep s e hs
      obtain ⟨os, s₂, h₂, hI₂⟩ := ih hI₁
      exact ⟨o :: os, s₂, exec_cons_eq_some.mpr ⟨o, s₁, os, s₂, h₁, h₂, rfl⟩, hI₂⟩

/-- The states a machine passes through are reachable in every system that allows the
machine's steps on these events with these answers. -/
theorem exec_reachable {init : σ → Prop} {rel : σ → ε → σ → Prop} {os : List ο}
    (hrel : ∀ e ∈ es, ∀ o ∈ os, ∀ s s', step s e = some (o, s') → rel s e s')
    (hs : Reachable init rel s) {s' : σ} (h : exec step s es = some (os, s')) :
    Reachable init rel s' := by
  induction es generalizing s os with
  | nil =>
      obtain ⟨-, rfl⟩ := Prod.mk.inj (Option.some.inj h)
      exact hs
  | cons e es ih =>
      obtain ⟨o, s₁, os', s₂, h₁, h₂, heq⟩ := exec_cons_eq_some.mp h
      obtain ⟨rfl, rfl⟩ := Prod.mk.inj heq
      refine ih (fun e' he' o' ho' => hrel e' (by simp [he']) o' (by simp [ho'])) ?_ h₂
      exact hs.step (hrel e (by simp) o (by simp) _ _ h₁)

/-- A run whose events meet a condition passes through states of the guarded system. -/
theorem exec_guarded {init : σ → Prop} {rel : σ → ε → σ → Prop} {ok : σ → ε → Prop}
    (hrel : ∀ s e o s', step s e = some (o, s') → rel s e s')
    (hs : Reachable init (Guarded ok rel) s) {os : List ο} {s' : σ}
    (h : exec step s es = some (os, s')) (hok : Along ok step s es) :
    Reachable init (Guarded ok rel) s' := by
  induction es generalizing s os with
  | nil =>
      obtain ⟨-, rfl⟩ := Prod.mk.inj (Option.some.inj h)
      exact hs
  | cons e es ih =>
      obtain ⟨o, s₁, os', s₂, h₁, h₂, heq⟩ := exec_cons_eq_some.mp h
      obtain ⟨rfl, rfl⟩ := Prod.mk.inj heq
      obtain ⟨he, hrest⟩ := (along_cons h₁).mp hok
      exact ih (hs.step ⟨he, hrel s e o s₁ h₁⟩) h₂ hrest

/-- **Two machines in lockstep.**  When each step of two related states returns the same
answer and related states, so does every run. -/
theorem exec_lockstep {step' : α → ε → Option (ο × α)} (R : σ → α → Prop)
    (hstep : ∀ e ∈ es, ∀ s a, R s a →
      ∃ o s' a', step s e = some (o, s') ∧ step' a e = some (o, a') ∧ R s' a')
    {a : α} (hR : R s a) :
    ∃ os s' a', exec step s es = some (os, s') ∧ exec step' a es = some (os, a') ∧ R s' a' := by
  induction es generalizing s a with
  | nil => exact ⟨[], s, a, rfl, rfl, hR⟩
  | cons e es ih =>
      obtain ⟨o, s₁, a₁, h₁, h₁', hR₁⟩ := hstep e (by simp) s a hR
      obtain ⟨os, s₂, a₂, h₂, h₂', hR₂⟩ := ih (fun e' he' => hstep e' (by simp [he'])) hR₁
      exact ⟨o :: os, s₂, a₂, exec_cons_eq_some.mpr ⟨o, s₁, os, s₂, h₁, h₂, rfl⟩,
        exec_cons_eq_some.mpr ⟨o, a₁, os, a₂, h₁', h₂', rfl⟩, hR₂⟩

/-- **Simulation along a run.**  When every step whose answer is `good` agrees with the
abstract step through `view` and keeps the relation `R`, so does every run all of whose
answers are good. -/
theorem exec_simulates {ο' : Type*} (R : σ → α → Prop) (good : ο → Prop) (view : ο → ο')
    (astep : α → ε → ο' × α)
    (hstep : ∀ s a e o s', R s a → step s e = some (o, s') → good o →
      view o = (astep a e).1 ∧ R s' (astep a e).2)
    {a : α} {os : List ο} {s' : σ} (hR : R s a) (h : exec step s es = some (os, s'))
    (hgood : ∀ o ∈ os, good o) :
    os.map view = (specExec astep a es).1 ∧ R s' (specExec astep a es).2 := by
  induction es generalizing s a os s' with
  | nil =>
      simp only [exec_nil, Option.some.injEq, Prod.mk.injEq] at h
      obtain ⟨rfl, rfl⟩ := h
      exact ⟨rfl, hR⟩
  | cons e es ih =>
      obtain ⟨o, s₁, os', s₂, h₁, h₂, heq⟩ := exec_cons_eq_some.mp h
      obtain ⟨rfl, rfl⟩ := Prod.mk.inj heq
      obtain ⟨hview, hR₁⟩ := hstep s a e o s₁ hR h₁ (hgood o (by simp))
      obtain ⟨hviews, hR₂⟩ := ih hR₁ h₂ (fun o ho => hgood o (by simp [ho]))
      exact ⟨by simp [specExec, hview, hviews], hR₂⟩

end Exec

end Transition
