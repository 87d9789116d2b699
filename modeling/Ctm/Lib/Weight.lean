import Mathlib.Algebra.BigOperators.Finprod
import Mathlib.Algebra.Order.BigOperators.Group.Finset
import Mathlib.Data.Set.Card
import Ctm.Lib.Transition

/-!
# The weight of a system of components

A system with one component for each index, all but finitely many of them weightless.  Its weight
is the sum of theirs, so a step that changes one component changes the weight by as much, and a
run whose steps each take some of the weight off is bounded by it.

## Main definitions

* `total w f` — the weight of the components `f`.
* `Light w f` — all but finitely many are weightless.
* `total_update`, `total_le` — how a step changes it, and a bound.
* `exec_cost` — what the steps of a run cost together.
-/

namespace Weight
variable {ι α : Type*} {w : α → ℕ} {f : ι → α}

/-- The weight of all components. -/
noncomputable def total (w : α → ℕ) (f : ι → α) : ℕ := ∑ᶠ i, w (f i)

/-- All but finitely many components weigh nothing. -/
def Light (w : α → ℕ) (f : ι → α) : Prop := {i | w (f i) ≠ 0}.Finite

/-- The weight over any finite set outside which nothing weighs. -/
theorem total_eq_sum {s : Finset ι} (h : ∀ i, w (f i) ≠ 0 → i ∈ s) :
    total w f = ∑ i ∈ s, w (f i) :=
  finsum_eq_sum_of_support_subset _ fun i hi => h i hi

section Update
variable [DecidableEq ι]

theorem Light.update (h : Light w f) (i : ι) (a : α) : Light w (Function.update f i a) := by
  refine (Set.Finite.insert i h).subset ?_
  intro j hj
  by_cases hji : j = i
  · exact .inl hji
  · right
    change w (Function.update f i a j) ≠ 0 at hj
    rwa [Function.update_of_ne hji] at hj

/-- What one component gains, the system gains. -/
theorem total_update (h : Light w f) (i : ι) (a : α) :
    total w (Function.update f i a) + w (f i) = total w f + w a := by
  have hs : ∀ j, w (f j) ≠ 0 → j ∈ insert i h.toFinset := by
    intro j hj
    exact Finset.mem_insert_of_mem (h.mem_toFinset.mpr hj)
  have hs' : ∀ j, w (Function.update f i a j) ≠ 0 → j ∈ insert i h.toFinset := by
    intro j hj
    by_cases hji : j = i
    · simp [hji]
    · rw [Function.update_of_ne hji] at hj
      exact hs j hj
  rw [total_eq_sum hs, total_eq_sum hs', ← Finset.add_sum_erase _ _ (Finset.mem_insert_self i _),
    ← Finset.add_sum_erase _ (fun j => w (f j)) (Finset.mem_insert_self i _),
    Function.update_self]
  have hrest : ∑ j ∈ (insert i h.toFinset).erase i, w (Function.update f i a j) =
      ∑ j ∈ (insert i h.toFinset).erase i, w (f j) := by
    apply Finset.sum_congr rfl
    intro j hj
    rw [Function.update_of_ne (Finset.ne_of_mem_erase hj)]
  omega

end Update

/-- Components of weight at most `k` weigh at most `k` each. -/
theorem total_le (h : Light w f) {k : ℕ} (hk : ∀ a, w a ≤ k) :
    total w f ≤ k * {i | w (f i) ≠ 0}.ncard := by
  rw [total_eq_sum (s := h.toFinset) (fun i hi => h.mem_toFinset.mpr hi),
    Set.ncard_eq_toFinset_card _ h, mul_comm, ← smul_eq_mul]
  exact Finset.sum_le_card_nsmul _ _ k fun i _ => hk (f i)

/-- **What a run costs.**  When the cost of each step is paid by what the measure loses and the
step brings in, so is the cost of a run. -/
theorem exec_cost {σ ε ο : Type*} {step : σ → ε → Option (ο × σ)} {s : σ} {es : List ε}
    (I : σ → Prop) (measure : σ → ℕ) (cost gain : ε → ℕ)
    (hstep : ∀ e ∈ es, ∀ s o s', I s → step s e = some (o, s') →
      measure s' + cost e ≤ measure s + gain e ∧ I s')
    (hs : I s) {os : List ο} {s' : σ} (h : Transition.exec step s es = some (os, s')) :
    measure s' + (es.map cost).sum ≤ measure s + (es.map gain).sum ∧ I s' := by
  induction es generalizing s os with
  | nil =>
      obtain ⟨-, rfl⟩ := Prod.mk.inj (Option.some.inj h)
      exact ⟨Nat.le_refl _, hs⟩
  | cons e es ih =>
      obtain ⟨o, s₁, os', s₂, h₁, h₂, heq⟩ := Transition.exec_cons_eq_some.mp h
      obtain ⟨rfl, rfl⟩ := Prod.mk.inj heq
      obtain ⟨hle, hI⟩ := hstep e (by simp) s o s₁ hs h₁
      obtain ⟨hle', hI'⟩ := ih (fun e' he' => hstep e' (by simp [he'])) hI h₂
      refine ⟨?_, hI'⟩
      simp only [List.map_cons, List.sum_cons]
      omega

end Weight
