import Mathlib.Data.List.Nodup

/-!
# Loops over a list, and their invariants

A `for` loop whose body may fail is `List.foldlM` in `Option`.  The one induction
such loops need is proved here once: an invariant indexed by the part of the list
already processed holds of the final accumulator, and the loop does not fail.

## Main definitions

* `foldlM_invariant` — the loop runs to its end and the invariant holds of the whole list.
* `foldlM_preserves` — the invariant of a loop that has run to its end.
* `foldlM_view` — a loop seen through a view of its accumulator.
-/

namespace Loop

variable {α σ τ : Type*}

/-- **Induction along a loop.**  The body may assume the invariant of the elements
already processed, and that in a list without repetitions its element is a new one. -/
theorem foldlM_invariant {f : σ → α → Option σ} (P : List α → σ → Prop) {l : List α}
    (hl : l.Nodup) {s : σ} (h0 : P [] s)
    (hstep : ∀ done x s, x ∈ l → x ∉ done → P done s →
      ∃ s', f s x = some s' ∧ P (done ++ [x]) s') :
    ∃ s', l.foldlM f s = some s' ∧ P l s' := by
  have key : ∀ (rest done : List α) (s : σ), (done ++ rest).Nodup → rest ⊆ l → P done s →
      ∃ s', rest.foldlM f s = some s' ∧ P (done ++ rest) s' := by
    intro rest
    induction rest with
    | nil => intro done s _ _ h; exact ⟨s, rfl, by simpa using h⟩
    | cons x rest ih =>
        intro done s hnd hsub h
        have hx : x ∉ done := by
          intro hmem
          exact (List.nodup_append.mp hnd).2.2 x hmem x (by simp) rfl
        obtain ⟨s₁, hs₁, h₁⟩ := hstep done x s (hsub (by simp)) hx h
        have hnd' : ((done ++ [x]) ++ rest).Nodup := by simpa using hnd
        obtain ⟨s₂, hs₂, h₂⟩ := ih (done ++ [x]) s₁ hnd' (fun y hy => hsub (by simp [hy])) h₁
        refine ⟨s₂, ?_, by simpa using h₂⟩
        simp [List.foldlM_cons, hs₁, hs₂]
  simpa using key l [] s (by simpa using hl) (fun _ h => h) h0

/-- An invariant of a loop that is known to run to its end. -/
theorem foldlM_preserves {f : σ → α → Option σ} (P : List α → σ → Prop) {l : List α} {s s' : σ}
    (h0 : P [] s)
    (hstep : ∀ done x s s', P done s → f s x = some s' → P (done ++ [x]) s')
    (h : l.foldlM f s = some s') : P l s' := by
  have key : ∀ (rest done : List α) (s : σ), P done s → rest.foldlM f s = some s' →
      P (done ++ rest) s' := by
    intro rest
    induction rest with
    | nil =>
        intro done s hP h
        obtain rfl := Option.some.inj h
        simpa using hP
    | cons x rest ih =>
        intro done s hP h
        obtain ⟨s₁, h₁, h₂⟩ := Option.bind_eq_some_iff.mp h
        simpa using ih (done ++ [x]) s₁ (hstep done x s s₁ hP h₁) h₂
  simpa using key l [] s h0 h

/-- Where each pass commutes with a view of the accumulator, so does the loop. -/
theorem foldlM_view {f : σ → α → Option σ} {g : τ → α → Option τ} (view : σ → τ)
    (hstep : ∀ s x, g (view s) x = (f s x).map view) (l : List α) (s : σ) :
    l.foldlM g (view s) = (l.foldlM f s).map view := by
  induction l generalizing s with
  | nil => rfl
  | cons x l ih =>
      rw [List.foldlM_cons, List.foldlM_cons, hstep]
      cases f s x with
      | none => rfl
      | some s₁ => exact ih s₁

end Loop
