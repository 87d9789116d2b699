import Ctm.HashMap.Invariant

/-!
# What an iterator yields

A fresh iterator over an unchanging map yields the live entries in slot order.

## Main definitions

* `pairAt`, `pairsFrom` — the key and value pointers of a live slot, and of those from a slot on.
* `iterAll_eq` — a whole iteration, as the live slots in order.
* `mem_iterAll` — what it yields, as a set.
* `iterCalls` — calls in a row, with the pointers of their caller.
* `iterCalls_eq` — what they return.
-/

namespace Ctm

/-- The pair an iterator yields for a slot. -/
def HashEntry.pairAt {K V : Type} (e : HashEntry K V) : Option (K × Option V) :=
  match e.key with
  | some (.block k) => some (k, e.value)
  | _ => none

theorem HashEntry.pairAt_eq_some_iff {K V : Type} {e : HashEntry K V} {k : K} {v : Option V} :
    e.pairAt = some (k, v) ↔ e = ⟨some (.block k), v⟩ := by
  obtain ⟨key, value⟩ := e
  unfold pairAt
  split <;> simp_all

theorem HashEntry.isLive_eq_pairAt {K V : Type} (e : HashEntry K V) :
    e.isLive = e.pairAt.isSome := by
  obtain ⟨key, value⟩ := e
  cases key with
  | none => rfl
  | some p => cases p <;> rfl

namespace HashMap
variable {K V : Type} {m m' : HashMap K V}

/-- The pairs of the slots from `index` on. -/
def pairsFrom (m : HashMap K V) (index : ℕ) : List (K × Option V) :=
  ((List.finRange m.capacity).drop index).filterMap fun i => (m.entries i).pairAt

theorem pairsFrom_capacity : m.pairsFrom m.capacity = [] := by
  rw [pairsFrom, List.drop_eq_nil_of_le (by simp)]
  rfl

theorem pairsFrom_step {index : ℕ} (h : index < m.capacity) :
    m.pairsFrom index = ((m.entries ⟨index, h⟩).pairAt).toList ++ m.pairsFrom (index + 1) := by
  have hdrop : (List.finRange m.capacity).drop index =
      ⟨index, h⟩ :: (List.finRange m.capacity).drop (index + 1) := by
    rw [List.drop_eq_getElem_cons (by simpa using h)]
    simp
  rw [pairsFrom, hdrop, List.filterMap_cons]
  cases (m.entries ⟨index, h⟩).pairAt <;> rfl

/-- The loop of `hash_map_iter_next` stops at the next live slot, or at the end of the
table. -/
private theorem iterLoop_cases : ∀ fuel index, index + fuel = m.capacity →
    (∃ pair index', iterLoop m fuel index = (some pair, index') ∧ index < index' ∧
      index' ≤ m.capacity ∧ m.pairsFrom index = pair :: m.pairsFrom index') ∨
    (iterLoop m fuel index = (none, m.capacity) ∧ m.pairsFrom index = []) := by
  intro fuel
  induction fuel with
  | zero =>
      intro index h
      obtain rfl : index = m.capacity := by omega
      exact .inr ⟨rfl, pairsFrom_capacity⟩
  | succ fuel ih =>
      intro index h
      have hlt : index < m.capacity := by omega
      have hskip : (m.entries ⟨index, hlt⟩).pairAt = none →
          iterLoop m (fuel + 1) index = iterLoop m fuel (index + 1) := by
        intro hnone
        simp only [HashEntry.pairAt] at hnone
        simp only [iterLoop, dif_pos hlt]
        cases hkey : (m.entries ⟨index, hlt⟩).key with
        | none => rfl
        | some p =>
            cases p with
            | block k => simp [hkey] at hnone
            | tombstone => rfl
      cases hpair : (m.entries ⟨index, hlt⟩).pairAt with
      | none =>
          rw [hskip hpair, pairsFrom_step hlt, hpair]
          rcases ih (index + 1) (by omega) with ⟨pair, index', h₁, h₂, h₃, h₄⟩ | ⟨h₁, h₂⟩
          · exact .inl ⟨pair, index', h₁, by omega, h₃, h₄⟩
          · exact .inr ⟨h₁, h₂⟩
      | some pair =>
          obtain ⟨k, v⟩ := pair
          have he := HashEntry.pairAt_eq_some_iff.mp hpair
          refine .inl ⟨(k, v), index + 1, ?_, by omega, by omega, ?_⟩
          · rw [iterLoop, dif_pos hlt, he]
          · rw [pairsFrom_step hlt, hpair]
            rfl

theorem iterFrom_eq : ∀ calls index, m.capacity ≤ index + calls → index ≤ m.capacity →
    iterFrom m calls index = m.pairsFrom index := by
  intro calls
  induction calls with
  | zero =>
      intro index h hle
      obtain rfl : index = m.capacity := by omega
      exact pairsFrom_capacity.symm
  | succ calls ih =>
      intro index h hle
      rw [iterFrom, iterNext]
      rcases iterLoop_cases (m := m) (m.capacity - index) index (by omega) with
        ⟨pair, index', h₁, h₂, h₃, h₄⟩ | ⟨h₁, h₂⟩
      · rw [h₁, h₄]
        simp only [ih index' (by omega) h₃]
      · rw [h₁, h₂]

theorem iterAll_eq_pairsFrom (m : HashMap K V) : iterAll m = m.pairsFrom 0 :=
  iterFrom_eq _ _ (by omega) (by omega)

/-- **A fresh iterator yields the live slots in order**, and then `-1`. -/
theorem iterAll_eq (m : HashMap K V) :
    iterAll m = (List.finRange m.capacity).filterMap fun i => (m.entries i).pairAt := by
  rw [iterAll_eq_pairsFrom, pairsFrom, List.drop_zero]

/-- A pair is yielded when some slot holds it. -/
theorem mem_iterAll {k : K} {v : Option V} :
    (k, v) ∈ iterAll m ↔ ∃ i, m.entries i = ⟨some (.block k), v⟩ := by
  rw [iterAll_eq, List.mem_filterMap]
  simp only [List.mem_finRange, true_and, HashEntry.pairAt_eq_some_iff]

/-- The same live entries are the same pairs. -/
theorem SameEntries.mem_iterAll (S : SameEntries m m') (pair : K × Option V) :
    pair ∈ iterAll m' ↔ pair ∈ iterAll m := by
  obtain ⟨k, v⟩ := pair
  rw [HashMap.mem_iterAll, HashMap.mem_iterAll]
  exact S.entries _ rfl

/-! ## The caller's pointers -/

/-- The index of an iterator, and the `key` and `value` pointers of its caller. -/
structure IterState (K V : Type) where
  index : ℕ
  key : Option K
  value : Option V

/-- `hash_map_iter_next` with arguments that are not NULL: its result, and what it has written. -/
def iterCall (m : HashMap K V) (s : IterState K V) : ℤ × IterState K V :=
  match iterNext m s.index with
  | (some (k, v), index) => (0, ⟨index, some k, v⟩)
  | (none, index) => (-1, { s with index := index })

/-- Calls in a row: the result of each with the pointers it leaves, and the state behind them. -/
def iterCalls (m : HashMap K V) : ℕ → IterState K V →
    List (ℤ × Option K × Option V) × IterState K V
  | 0, s => ([], s)
  | n + 1, s =>
      let (ret, s) := iterCall m s
      let (seen, last) := iterCalls m n s
      ((ret, s.key, s.value) :: seen, last)

theorem iterCalls_succ (m : HashMap K V) (n : ℕ) (s : IterState K V) :
    iterCalls m (n + 1) s =
      (((iterCall m s).1, (iterCall m s).2.key, (iterCall m s).2.value) ::
        (iterCalls m n (iterCall m s).2).1, (iterCalls m n (iterCall m s).2).2) := rfl

/-- What a call that succeeds returns. -/
def yielded (p : K × Option V) : ℤ × Option K × Option V := (0, some p.1, p.2)

/-- The pointers behind some pairs: those of the last. -/
def pointers (pairs : List (K × Option V)) (s : IterState K V) : Option K × Option V :=
  (pairs.getLast?.map fun p => (some p.1, p.2)).getD (s.key, s.value)

/-- A call yields the first pair that is left, or fails, and then every later one does. -/
theorem iterNext_cases (m : HashMap K V) (index : ℕ) :
    (∃ k v index', iterNext m index = (some (k, v), index') ∧
      m.pairsFrom index = (k, v) :: m.pairsFrom index') ∨
    (∃ index', iterNext m index = (none, index') ∧ m.pairsFrom index = [] ∧
      m.pairsFrom index' = []) := by
  by_cases hindex : index ≤ m.capacity
  · rcases iterLoop_cases (m := m) (m.capacity - index) index (by omega) with
      ⟨⟨k, v⟩, index', hnext, -, -, hpairs⟩ | ⟨hnext, hpairs⟩
    · exact .inl ⟨k, v, index', hnext, hpairs⟩
    · exact .inr ⟨m.capacity, hnext, hpairs, pairsFrom_capacity⟩
  · -- The table has shrunk behind the iterator.
    have hpairs : m.pairsFrom index = [] := by
      rw [pairsFrom, List.drop_eq_nil_of_le (by rw [List.length_finRange]; omega)]
      rfl
    have hfuel : m.capacity - index = 0 := by omega
    exact .inr ⟨index, by rw [iterNext, hfuel, iterLoop], hpairs, hpairs⟩

/-- **Calls in a row** yield the pairs that are left, one by one, and then fail without writing
to the pointers. -/
theorem iterCalls_eq (m : HashMap K V) (n : ℕ) (s : IterState K V) :
    (iterCalls m n s).1 = ((m.pairsFrom s.index).take n).map yielded ++
      List.replicate (n - (m.pairsFrom s.index).length) (-1, pointers (m.pairsFrom s.index) s) ∧
    m.pairsFrom (iterCalls m n s).2.index = (m.pairsFrom s.index).drop n := by
  induction n generalizing s with
  | zero => simp [iterCalls]
  | succ n ih =>
      rcases iterNext_cases m s.index with
        ⟨k, v, index, hnext, hpairs⟩ | ⟨index, hnext, hpairs, hend⟩
      · have hcall : iterCall m s = (0, ⟨index, some k, v⟩) := by rw [iterCall, hnext]
        obtain ⟨hseen, hrest⟩ := ih ⟨index, some k, v⟩
        rw [iterCalls_succ, hcall, hpairs]
        refine ⟨?_, hrest⟩
        have hlast : pointers ((k, v) :: m.pairsFrom index) s =
            pointers (m.pairsFrom index) ⟨index, some k, v⟩ := by
          rw [pointers, pointers, List.getLast?_cons]
          cases (m.pairsFrom index).getLast? <;> rfl
        simp only [hseen, hlast, List.take_succ_cons, List.map_cons, List.length_cons,
          Nat.add_sub_add_right]
        rfl
      · have hcall : iterCall m s = (-1, { s with index := index }) := by rw [iterCall, hnext]
        obtain ⟨hseen, hrest⟩ := ih { s with index := index }
        rw [hend] at hseen hrest
        rw [iterCalls_succ, hcall, hpairs]
        refine ⟨?_, by simpa using hrest⟩
        simp only [hseen, List.take_nil, List.map_nil, List.nil_append, List.length_nil,
          Nat.sub_zero, List.replicate_succ]
        rfl

end HashMap
end Ctm
