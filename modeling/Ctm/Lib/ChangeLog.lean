import Mathlib.Data.Finset.Basic

/-!
# Change logs

A log of what happens to a set of keys.  A faithful log adds only keys that are absent,
and updates or removes only keys that are present.  Replaying it gives the set, and each
key goes through rounds: it is added, updated any number of times, and removed.

## Main definitions

* `Kind`, `Change` — the entries of a log.
* `Faithful s log s'` — the log takes `s` to `s'`, every entry being allowed.
* `Faithful.replay` — replaying without the checks.
* `Lifecycle` — sequences of rounds, the last of which may be cut short.
* `Faithful.lifecycle` — the history of a key.
-/

namespace ChangeLog
variable {K : Type*} [DecidableEq K]

/-- What can happen to a key. -/
inductive Kind
  | added
  | updated
  | removed
deriving DecidableEq, Repr

/-- An entry of a log. -/
structure Change (K : Type*) where
  kind : Kind
  key : K
deriving DecidableEq, Repr

/-- An entry, when it is allowed. -/
def step (s : Finset K) (c : Change K) : Option (Finset K) :=
  match c.kind with
  | .added => if c.key ∈ s then none else some (insert c.key s)
  | .updated => if c.key ∈ s then some s else none
  | .removed => if c.key ∈ s then some (s.erase c.key) else none

/-- An entry, allowed or not. -/
def apply (s : Finset K) (c : Change K) : Finset K :=
  match c.kind with
  | .added => insert c.key s
  | .updated => s
  | .removed => s.erase c.key

/-- The set after a log. -/
def replay (s : Finset K) (log : List (Change K)) : Finset K := log.foldl apply s

/-- The log takes `s` to `s'`, and every entry is allowed. -/
def Faithful (s : Finset K) (log : List (Change K)) (s' : Finset K) : Prop :=
  log.foldlM step s = some s'

/-- What happens to one key. -/
def history (log : List (Change K)) (k : K) : List Kind :=
  (log.filter fun c => c.key = k).map Change.kind

section Faithful
variable {s s₁ s₂ : Finset K} {log log₁ log₂ : List (Change K)} {c : Change K} {k : K}

theorem step_added : step s ⟨.added, k⟩ = some s₁ ↔ k ∉ s ∧ s₁ = insert k s := by
  by_cases hk : k ∈ s
  · simp [step, hk]
  · simp [step, hk, eq_comm]

theorem step_updated : step s ⟨.updated, k⟩ = some s₁ ↔ k ∈ s ∧ s₁ = s := by
  by_cases hk : k ∈ s
  · simp [step, hk, eq_comm]
  · simp [step, hk]

theorem step_removed : step s ⟨.removed, k⟩ = some s₁ ↔ k ∈ s ∧ s₁ = s.erase k := by
  by_cases hk : k ∈ s
  · simp [step, hk, eq_comm]
  · simp [step, hk]

@[simp] theorem faithful_nil : Faithful s [] s₁ ↔ s = s₁ := by
  simp [Faithful]

theorem faithful_cons : Faithful s (c :: log) s₂ ↔ ∃ s₁, step s c = some s₁ ∧ Faithful s₁ log s₂ := by
  simp only [Faithful, List.foldlM_cons, Option.bind_eq_bind, Option.bind_eq_some_iff]

theorem Faithful.append (h₁ : Faithful s log₁ s₁) (h₂ : Faithful s₁ log₂ s₂) :
    Faithful s (log₁ ++ log₂) s₂ := by
  rw [Faithful, List.foldlM_append, h₁]
  exact h₂

/-- A key that is absent is added. -/
theorem faithful_added (hk : k ∉ s) : Faithful s [⟨.added, k⟩] (insert k s) := by
  simp [faithful_cons, step_added, hk]

/-- A key that is present is updated. -/
theorem faithful_updated (hk : k ∈ s) : Faithful s [⟨.updated, k⟩] s := by
  simp [faithful_cons, step_updated, hk]

/-- Distinct keys that are present are removed. -/
theorem faithful_removed {ks : List K} (hnodup : ks.Nodup) (hks : ∀ k ∈ ks, k ∈ s) :
    Faithful s (ks.map fun k => ⟨.removed, k⟩) (s \ ks.toFinset) := by
  induction ks generalizing s with
  | nil => simp
  | cons k ks ih =>
      obtain ⟨hk, hnodup⟩ := List.nodup_cons.mp hnodup
      rw [List.map_cons, faithful_cons]
      refine ⟨s.erase k, step_removed.mpr ⟨hks k List.mem_cons_self, rfl⟩, ?_⟩
      have hset : s \ (k :: ks).toFinset = s.erase k \ ks.toFinset := by
        ext x
        simp only [List.toFinset_cons, Finset.mem_sdiff, Finset.mem_insert, Finset.mem_erase]
        tauto
      rw [hset]
      apply ih hnodup
      intro x hx
      refine Finset.mem_erase.mpr ⟨?_, hks x (List.mem_cons_of_mem _ hx)⟩
      rintro rfl
      exact hk hx

theorem step_eq_apply (h : step s c = some s₁) : apply s c = s₁ := by
  obtain ⟨kind, k⟩ := c
  cases kind with
  | added => exact (step_added.mp h).2.symm
  | updated => exact (step_updated.mp h).2.symm
  | removed => exact (step_removed.mp h).2.symm

/-- An entry leaves the other keys alone. -/
theorem mem_of_step_ne (h : step s c = some s₁) (hk : c.key ≠ k) : k ∈ s₁ ↔ k ∈ s := by
  rw [← step_eq_apply h]
  obtain ⟨kind, k'⟩ := c
  cases kind with
  | added => simp [apply, Ne.symm hk]
  | updated => rfl
  | removed => simp [apply, Ne.symm hk]

/-- Replaying a faithful log gives the set. -/
theorem Faithful.replay (h : Faithful s log s₁) : ChangeLog.replay s log = s₁ := by
  induction log generalizing s with
  | nil => exact faithful_nil.mp h
  | cons c log ih =>
      obtain ⟨s', hstep, h⟩ := faithful_cons.mp h
      rw [ChangeLog.replay, List.foldl_cons, step_eq_apply hstep]
      exact ih h

end Faithful

/-! ## The history of a key -/

/-- Rounds of one `added`, any number of `updated` and one `removed`; the last round may be
cut short. -/
inductive Lifecycle : List Kind → Prop
  | nil : Lifecycle []
  | cut (n : ℕ) : Lifecycle (.added :: List.replicate n .updated)
  | round (n : ℕ) {w : List Kind} : Lifecycle w →
      Lifecycle (.added :: (List.replicate n .updated ++ .removed :: w))

/-- What comes after the `added` of a round. -/
def Open (w : List Kind) : Prop := Lifecycle (.added :: w)

theorem Open.nil : Open [] := .cut 0

theorem Open.removed {w : List Kind} (h : Lifecycle w) : Open (.removed :: w) := .round 0 h

theorem Open.updated {w : List Kind} (h : Open w) : Open (.updated :: w) := by
  cases h with
  | cut n => exact .cut (n + 1)
  | round n h => exact .round (n + 1) h

/-- The entries of a faithful log for one key: rounds while it is absent, the rest of a round
while it is present. -/
theorem Faithful.history {s s' : Finset K} {log : List (Change K)} (h : Faithful s log s')
    (k : K) : (k ∉ s → Lifecycle (ChangeLog.history log k)) ∧
      (k ∈ s → Open (ChangeLog.history log k)) := by
  induction log generalizing s with
  | nil => exact ⟨fun _ => .nil, fun _ => .nil⟩
  | cons c log ih =>
      obtain ⟨s₁, hstep, h⟩ := faithful_cons.mp h
      obtain ⟨hout, hin⟩ := ih h
      by_cases hk : c.key = k
      · obtain ⟨kind, k'⟩ := c
        obtain rfl : k' = k := hk
        have hcons : ChangeLog.history (⟨kind, k'⟩ :: log) k' =
            kind :: ChangeLog.history log k' := by
          simp [ChangeLog.history]
        rw [hcons]
        cases kind with
        | added =>
            obtain ⟨hk, rfl⟩ := step_added.mp hstep
            exact ⟨fun _ => hin (Finset.mem_insert_self _ _), fun hk' => absurd hk' hk⟩
        | updated =>
            obtain ⟨hk, rfl⟩ := step_updated.mp hstep
            exact ⟨fun hk' => absurd hk hk', fun _ => (hin hk).updated⟩
        | removed =>
            obtain ⟨hk, rfl⟩ := step_removed.mp hstep
            exact ⟨fun hk' => absurd hk hk',
              fun _ => .removed (hout (Finset.notMem_erase _ _))⟩
      · have hcons : ChangeLog.history (c :: log) k = ChangeLog.history log k := by
          simp [ChangeLog.history, hk]
        rw [hcons, ← mem_of_step_ne hstep hk]
        exact ⟨hout, hin⟩

/-- Every key of a faithful log goes through rounds. -/
theorem Faithful.lifecycle {s : Finset K} {log : List (Change K)} (h : Faithful ∅ log s) (k : K) :
    Lifecycle (ChangeLog.history log k) :=
  (h.history k).1 (Finset.notMem_empty k)

end ChangeLog
