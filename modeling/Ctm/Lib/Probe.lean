import Mathlib.Data.Finset.Card
import Mathlib.Data.Fintype.Card
import Mathlib.Data.Nat.ModEq

/-!
# Probing a cyclic table

Facts about tables `T : Fin n → β` that are searched by walking cyclically from a
start index.  Nothing here depends on what a slot holds: a search is described by
predicates on indices, and a slot by the predicate telling whether a walk may pass
over it.

A `Chain` is what keeps an entry of an open-addressing table findable: every slot
on the walk from the entry's start index up to its own slot is occupied.

## Main definitions

* `next`, `walk start d` — the cyclic successor, and the index `d` steps on.
* `firstHit p start` — the first index of the walk from `start` satisfying `p`.
* `Chain occ T start i` — every slot of the walk before `i` satisfies `occ`.
* `countSlots p T` — the number of slots satisfying `p`.
-/

namespace Probe

variable {n : ℕ} {β : Type*}

/-! ## Walking -/

/-- The index after `i`, wrapping from the last one to zero. -/
def next (i : Fin n) : Fin n := ⟨(i.val + 1) % n, Nat.mod_lt _ i.pos⟩

/-- The index reached from `start` in `d` steps. -/
def walk (start : Fin n) (d : ℕ) : Fin n := ⟨(start.val + d) % n, Nat.mod_lt _ start.pos⟩

@[simp] theorem walk_zero (start : Fin n) : walk start 0 = start := by
  ext
  simp [walk, Nat.mod_eq_of_lt start.isLt]

@[simp] theorem next_walk (start : Fin n) (d : ℕ) : next (walk start d) = walk start (d + 1) := by
  ext
  simp [next, walk, Nat.add_assoc]

theorem walk_injective {start : Fin n} {d e : ℕ} (hd : d < n) (he : e < n)
    (h : walk start d = walk start e) : d = e := by
  have hs : start.val < n := start.isLt
  have hv : (start.val + d) % n = (start.val + e) % n := congrArg Fin.val h
  have hmod : d ≡ e [MOD n] := Nat.ModEq.add_left_cancel' start.val hv
  exact Nat.ModEq.eq_of_lt_of_lt hmod hd he

/-- A walk of fewer than `n` steps reaches every index. -/
theorem exists_walk (start i : Fin n) : ∃ d < n, walk start d = i := by
  have hs := start.isLt
  have hi := i.isLt
  by_cases h : start.val ≤ i.val
  · refine ⟨i.val - start.val, by omega, ?_⟩
    ext
    simp only [walk]
    rw [show start.val + (i.val - start.val) = i.val by omega, Nat.mod_eq_of_lt hi]
  · refine ⟨n - start.val + i.val, by omega, ?_⟩
    ext
    simp only [walk]
    rw [show start.val + (n - start.val + i.val) = i.val + n by omega,
      Nat.add_mod_right, Nat.mod_eq_of_lt hi]

/-- A walk is back at its start exactly after a full turn. -/
theorem walk_succ_eq_start {start : Fin n} {d : ℕ} (hd : d < n) :
    walk start (d + 1) = start ↔ d + 1 = n := by
  constructor
  · intro h
    by_contra hne
    have hlt : d + 1 < n := by omega
    have := walk_injective hlt start.pos (h.trans (walk_zero start).symm)
    omega
  · intro h
    ext
    simp [walk, h, Nat.mod_eq_of_lt start.isLt]

/-! ## Searching -/

/-- The first index of the walk from `start` that satisfies `p`, if one does. -/
def firstHit (p : Fin n → Bool) (start : Fin n) : Option (Fin n) :=
  ((List.range n).map (walk start)).find? p

theorem firstHit_eq_some_iff {p : Fin n → Bool} {start i : Fin n} :
    firstHit p start = some i ↔
      ∃ d < n, walk start d = i ∧ p i ∧ ∀ e < d, p (walk start e) = false := by
  rw [firstHit, List.find?_map, Option.map_eq_some_iff]
  constructor
  · rintro ⟨d, hd, rfl⟩
    rw [List.find?_range_eq_some] at hd
    obtain ⟨hp, hmem, hbefore⟩ := hd
    exact ⟨d, List.mem_range.mp hmem, rfl, hp, fun e he => by simpa using hbefore e he⟩
  · rintro ⟨d, hd, rfl, hp, hbefore⟩
    refine ⟨d, ?_, rfl⟩
    rw [List.find?_range_eq_some]
    exact ⟨hp, List.mem_range.mpr hd, fun e he => by simpa using hbefore e he⟩

theorem firstHit_eq_none_iff {p : Fin n → Bool} {start : Fin n} :
    firstHit p start = none ↔ ∀ i, p i = false := by
  rw [firstHit, List.find?_eq_none]
  constructor
  · intro h i
    obtain ⟨d, hd, rfl⟩ := exists_walk start i
    simpa using h _ (List.mem_map_of_mem (List.mem_range.mpr hd))
  · intro h i _
    simp [h i]

theorem firstHit_spec {p : Fin n → Bool} {start i : Fin n} (h : firstHit p start = some i) :
    p i := by
  obtain ⟨_, _, _, hp, _⟩ := firstHit_eq_some_iff.mp h
  exact hp

/-- Once the first `d` indices are known to miss, the search goes on from index `d`. -/
theorem firstHit_of_walk {p : Fin n → Bool} {start : Fin n} {d : ℕ} (hd : d < n)
    (hp : p (walk start d)) (hbefore : ∀ e < d, p (walk start e) = false) :
    firstHit p start = some (walk start d) :=
  firstHit_eq_some_iff.mpr ⟨d, hd, rfl, hp, hbefore⟩

theorem firstHit_of_full_turn {p : Fin n → Bool} {start : Fin n}
    (h : ∀ e < n, p (walk start e) = false) : firstHit p start = none := by
  rw [firstHit_eq_none_iff]
  intro i
  obtain ⟨d, hd, rfl⟩ := exists_walk start i
  exact h d hd

/-! ## Chains -/

/-- Every slot on the walk from `start` to `i`, short of `i` itself, satisfies `occ`. -/
def Chain (occ : β → Bool) (T : Fin n → β) (start i : Fin n) : Prop :=
  ∃ d < n, walk start d = i ∧ ∀ e < d, occ (T (walk start e))

/-- Slot `j` lies on the walk from `start` to `i`, short of `i` itself. -/
def OnPath (start i j : Fin n) : Prop :=
  ∃ d < n, walk start d = i ∧ ∃ e < d, walk start e = j

section Chain
variable {occ : β → Bool} {T : Fin n → β} {start i j : Fin n}

/-- Filling a slot breaks no chain. -/
theorem Chain.update (h : Chain occ T start i) {x : β} (hx : occ x) :
    Chain occ (Function.update T j x) start i := by
  obtain ⟨d, hd, hi, hocc⟩ := h
  refine ⟨d, hd, hi, fun e he => ?_⟩
  by_cases hj : walk start e = j
  · simpa [hj] using hx
  · simpa [Function.update_of_ne hj] using hocc e he

/-- Clearing a slot breaks only the chains that pass over it. -/
theorem Chain.update_of_not_onPath (h : Chain occ T start i) (hj : ¬ OnPath start i j) (x : β) :
    Chain occ (Function.update T j x) start i := by
  obtain ⟨d, hd, hi, hocc⟩ := h
  refine ⟨d, hd, hi, fun e he => ?_⟩
  have hne : walk start e ≠ j := fun he' => hj ⟨d, hd, hi, e, he, he'⟩
  simpa [Function.update_of_ne hne] using hocc e he

/-- A search that stops at a missing slot or at a match stops at `i`, when `i` is the
only match and its chain is unbroken. -/
theorem Chain.firstHit (h : Chain occ T start i) {p : Fin n → Bool} (hp : p i)
    (huniq : ∀ j, p j → j = i) :
    firstHit (fun j => !occ (T j) || p j) start = some i := by
  obtain ⟨d, hd, rfl, hocc⟩ := h
  refine firstHit_of_walk hd (by simp [hp]) fun e he => ?_
  have hmiss : p (walk start e) = false := by
    by_contra hc
    have hsame : walk start e = walk start d := huniq _ (by simpa only [Bool.not_eq_false] using hc)
    have := walk_injective (by omega) hd hsame
    omega
  simp [hmiss, hocc e he]

/-- The slot a search for an unoccupied-or-reusable slot stops at ends an unbroken chain. -/
theorem Chain.of_firstHit {p : Fin n → Bool} (h : Probe.firstHit p start = some i)
    (hocc : ∀ j, p j = false → occ (T j)) : Chain occ T start i := by
  obtain ⟨d, hd, hi, -, hbefore⟩ := firstHit_eq_some_iff.mp h
  exact ⟨d, hd, hi, fun e he => hocc _ (hbefore e he)⟩

end Chain

/-! ## Counting slots -/

/-- The number of slots whose content satisfies `p`. -/
def countSlots (p : β → Bool) (T : Fin n → β) : ℕ :=
  (Finset.univ.filter fun i => p (T i)).card

section Count
variable {p : β → Bool} {T : Fin n → β} {i : Fin n} {x : β}

theorem countSlots_const {x : β} (h : p x = false) :
    countSlots p (fun _ : Fin n => x) = 0 := by
  simp [countSlots, h]

/-- Some slot fails `p` when fewer than `n` satisfy it. -/
theorem exists_not_of_countSlots_lt (h : countSlots p T < n) : ∃ i, p (T i) = false := by
  by_contra hall
  have huniv : (Finset.univ.filter fun i => p (T i)) = (Finset.univ : Finset (Fin n)) := by
    rw [Finset.filter_eq_self]
    intro i _
    by_contra hi
    exact hall ⟨i, by simpa using hi⟩
  rw [countSlots, huniv] at h
  simp at h

theorem countSlots_update_same (h : p x = p (T i)) :
    countSlots p (Function.update T i x) = countSlots p T := by
  refine congrArg Finset.card (Finset.filter_congr fun j _ => ?_)
  by_cases hj : j = i
  · subst hj; simp [h]
  · simp [Function.update_of_ne hj]

theorem countSlots_update_add (hx : p x) (h : p (T i) = false) :
    countSlots p (Function.update T i x) = countSlots p T + 1 := by
  have hset : (Finset.univ.filter fun j => p (Function.update T i x j)) =
      insert i (Finset.univ.filter fun j => p (T j)) := by
    ext j
    by_cases hj : j = i
    · subst hj; simp [hx]
    · simp [hj]
  rw [countSlots, hset, Finset.card_insert_of_notMem (by simp [h]), countSlots]

theorem countSlots_update_sub (hx : p x = false) (h : p (T i)) :
    countSlots p (Function.update T i x) + 1 = countSlots p T := by
  have hset : (Finset.univ.filter fun j => p (T j)) =
      insert i (Finset.univ.filter fun j => p (Function.update T i x j)) := by
    ext j
    by_cases hj : j = i
    · subst hj; simp [h]
    · simp [hj]
  rw [countSlots, countSlots, hset, Finset.card_insert_of_notMem (by simp [hx])]

/-- Overwriting one slot changes the number by at most one. -/
theorem countSlots_le_update : countSlots p T ≤ countSlots p (Function.update T i x) + 1 := by
  have hsub : (Finset.univ.filter fun j => p (T j)) ⊆
      insert i (Finset.univ.filter fun j => p (Function.update T i x j)) := by
    intro j hj
    by_cases hji : j = i
    · simp [hji]
    · simpa [Function.update_of_ne hji, hji] using hj
  exact (Finset.card_le_card hsub).trans (Finset.card_insert_le _ _)

/-- Every slot satisfies `p` or does not. -/
theorem countSlots_add_not (p : β → Bool) (T : Fin n → β) :
    countSlots p T + countSlots (fun y => !p y) T = n := by
  have hsplit := Finset.card_filter_add_card_filter_not (s := (Finset.univ : Finset (Fin n)))
    (fun i => p (T i) = true)
  simpa [countSlots] using hsplit

/-- Slots that satisfy `p` satisfy `q` or `r`. -/
theorem countSlots_le_add {q r : β → Bool} (h : ∀ y, p y → q y ∨ r y) :
    countSlots p T ≤ countSlots q T + countSlots r T := by
  have hsub : (Finset.univ.filter fun j => p (T j)) ⊆
      (Finset.univ.filter fun j => q (T j)) ∪ Finset.univ.filter fun j => r (T j) := by
    intro j hj
    simpa using h (T j) (by simpa using hj)
  exact (Finset.card_le_card hsub).trans (Finset.card_union_le _ _)

/-- At most one slot satisfies `p` when two that do are the same. -/
theorem countSlots_le_one (h : ∀ i j, p (T i) → p (T j) → i = j) : countSlots p T ≤ 1 := by
  refine Finset.card_le_one.mpr ?_
  intro i hi j hj
  exact h i j (by simpa using hi) (by simpa using hj)

theorem countSlots_pos : 0 < countSlots p T ↔ ∃ i, p (T i) := by
  rw [countSlots, Finset.card_pos]
  constructor
  · rintro ⟨i, hi⟩
    exact ⟨i, by simpa using hi⟩
  · rintro ⟨i, hi⟩
    exact ⟨i, by simpa using hi⟩

end Count

end Probe
