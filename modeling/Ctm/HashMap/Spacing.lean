import Ctm.HashMap.Refinement

/-!
# The load factor and the spacing of resizes

`hash_map_put` doubles the table when three quarters of it are live, before it knows
whether the put is an update.  `hash_map_remove` halves it when at most a quarter is live
after the removal.  As long as no allocation fails, more than a quarter of every table
above the minimum size stays live, and a table fresh from a resize to `C` slots holds
between `3C/8` and `C/2` entries.  Each put or remove moves the count by at most one, so
the next resize is `C/8` such calls away.

The callbacks are arbitrary: only counts matter here.

## Main definitions

* `Triggers` — the call invokes `hash_map_resize`.
* `Granted` — a call in which no allocation fails.
* `Dense` — the invariant of these runs.
* `Window` — where the count lies some calls after a resize.
* `resize_spacing` — what every run keeps.
-/

namespace Ctm
namespace HashMap
variable {K V : Type} {f : Callbacks K} {m m' : HashMap K V} {a : Allocs} {key : K} {value : V}

/-- The calls that write to the map. -/
def Op.writes : Op K V → ℕ
  | .put _ _ => 1
  | .get _ => 0
  | .remove _ => 1

/-- The number of puts and removes among some calls. -/
def writes (calls : List (Op K V × Allocs)) : ℕ := (calls.map fun c => c.1.writes).sum

@[simp] theorem writes_nil : writes ([] : List (Op K V × Allocs)) = 0 := rfl

@[simp] theorem writes_cons (c : Op K V × Allocs) (calls : List (Op K V × Allocs)) :
    writes (c :: calls) = c.1.writes + writes calls := by simp [writes]

/-- The test `hash_map_remove` makes once its entry is gone. -/
def Sparse (m : HashMap K V) : Prop :=
  minimumCapacity < m.capacity ∧ 0 < m.count ∧ 4 * m.count ≤ m.capacity

instance (m : HashMap K V) : Decidable m.Sparse := inferInstanceAs (Decidable (_ ∧ _ ∧ _))

theorem shrink_of_sparse (h : m.Sparse) :
    shrink f a m = (resize f a m m.shrunkCapacity).map fun r => { r with ret := 1 } := by
  rw [shrink, if_pos (show _ ∧ _ ∧ _ from h)]
  cases resize f a m m.shrunkCapacity <;> rfl

theorem shrink_of_not_sparse (h : ¬ m.Sparse) : shrink f a m = some ⟨1, none, m⟩ := if_neg h

/-- The call invokes `hash_map_resize`. -/
def Triggers (f : Callbacks K) (m : HashMap K V) : Op K V → Prop
  | .put _ _ => 3 * m.capacity ≤ 4 * m.count
  | .get _ => False
  | .remove key => ∃ i, m.findSlot f key = some i ∧ (m.tombstoneAt i).Sparse

/-- A call in which no allocation fails. -/
def Granted (f : Callbacks K) (m : HashMap K V) (c : Op K V × Allocs) (m' : HashMap K V) : Prop :=
  ∃ o, call f m c = some (o, m') ∧ o.errno ≠ some .ENOMEM

theorem Granted.load (h : Granted f m c m') (H : Load m) : Load m' := by
  obtain ⟨o, hcall, -⟩ := h
  exact call_load H hcall

/-- A call whose allocations are granted. -/
theorem Grants.granted (H : Load m) {c : Op K V × Allocs} (hc : Grants m c) {o : Seen V}
    (h : call f m c = some (o, m')) : Granted f m c m' := ⟨o, h, hc.errno_ne H h⟩

/-- A run from the empty map whose allocations are granted. -/
theorem granted_of_exec {calls : List (Op K V × Allocs)} {os : List (Seen V)}
    (h : Transition.exec (call f) empty calls = some (os, m))
    (hgrants : Transition.Along Grants (call f) empty calls) :
    Transition.Reachable (Created f) (Granted f) m :=
  Transition.exec_reachable
    (fun _ _ o ho _ _ hcall => ⟨o, hcall, errno_ne_of_grants Load.empty h hgrants o ho⟩)
    (.init created_empty) h

theorem load_of_granted (h : Transition.Reachable (Created f) (Granted f) m) : Load m := by
  refine h.invariant Load ?_ fun _ _ _ H hstep => hstep.load H
  rintro s ⟨keySize, valueSize, mallocMap, a, hs⟩
  rw [create_eq_some hs]
  exact Load.empty

/-! ## What a call does to the sizes -/

/-- The table a put probes is doubled when the load test asks for it. -/
theorem grown_capacity (H : Load m) (hgrow : ¬ growthFails a m) :
    (m.grown f a).capacity = if 3 * m.capacity ≤ 4 * m.count then m.capacity * 2
      else m.capacity := by
  unfold grown
  by_cases hload : 3 * m.capacity ≤ 4 * m.count
  · rw [if_pos hload, if_pos hload, H.double_mod]
    have hlt : m.liveSlots < m.capacity * 2 := by have := H.liveSlots_lt; omega
    rcases resize_cases (f := f) a hlt with ⟨ha, -⟩ | ⟨-, hc, new, hr, -⟩
    · exact absurd ⟨hload, ha⟩ hgrow
    · simp only [hr]
  · rw [if_neg hload, if_neg hload]

/-- After the load test a put keeps the table and adds at most one entry. -/
theorem putEntry_sizes (H : Load m) {r : Result K V} (h : putEntry f a m key value = some r) :
    r.map.capacity = m.capacity ∧ m.count ≤ r.map.count ∧ r.map.count ≤ m.count + 1 := by
  rcases putEntry_ends f H a key value with ⟨i, -, he⟩ | ⟨i, -, hfree, he⟩ | ⟨-, he⟩
  · obtain rfl := Option.some.inj (he.symm.trans h)
    exact ⟨rfl, le_refl _, Nat.le_succ _⟩
  · obtain rfl := Option.some.inj (he.symm.trans h)
    rcases putNew_cases a (firstFree_not_isLive hfree) key value with ⟨-, hn⟩ | ⟨-, e, -, hn⟩
    · rw [hn]
      exact ⟨rfl, Nat.le_succ _, le_refl _⟩
    · rw [hn]
      exact ⟨rfl, le_refl _, Nat.le_succ _⟩
  · cases he.symm.trans h

/-- What a call can do to the capacity and the count. -/
inductive Sizes (f : Callbacks K) (m : HashMap K V) (op : Op K V) (m' : HashMap K V) : Prop
  | kept (quiet : ¬ Triggers f m op) (capacity : m'.capacity = m.capacity)
      (upper : m'.count ≤ m.count + op.writes) (lower : m.count ≤ m'.count + op.writes)
      (dense : m.count ≤ m'.count ∨ ¬ m'.Sparse)
  | grew (triggers : Triggers f m op) (full : 3 * m.capacity ≤ 4 * m.count)
      (capacity : m'.capacity = m.capacity * 2) (lower : m.count ≤ m'.count)
      (upper : m'.count ≤ m.count + 1)
  | shrank (triggers : Triggers f m op) (large : minimumCapacity < m.capacity)
      (sparse : 4 * (m.count - 1) ≤ m.capacity) (capacity : m'.capacity = m.capacity / 2)
      (count : m'.count = m.count - 1)

theorem call_sizes (H : Load m) {c : Op K V × Allocs} (h : Granted f m c m') :
    Sizes f m c.1 m' := by
  obtain ⟨o, hcall, hok⟩ := h
  obtain ⟨op, a⟩ := c
  cases op with
  | get key =>
      rw [call_get] at hcall
      obtain ⟨-, rfl⟩ := Prod.mk.inj (Option.some.inj hcall)
      exact .kept id rfl (le_refl _) (le_refl _) (.inl (le_refl _))
  | put key value =>
      rcases put_cases (f := f) H a key value with ⟨-, hr⟩ | ⟨hgrow, hr⟩
      · rw [call_put hr] at hcall
        obtain ⟨rfl, -⟩ := Prod.mk.inj (Option.some.inj hcall)
        exact absurd rfl hok
      · obtain ⟨r, hput, heq⟩ := Option.bind_eq_some_iff.mp hcall
        obtain ⟨-, rfl⟩ := Prod.mk.inj (Option.some.inj heq)
        obtain ⟨hL, hS, -, -⟩ := grown_spec (f := f) H hgrow
        obtain ⟨hcap, hle, hge⟩ := putEntry_sizes hL (hr.symm.trans hput)
        rw [grown_capacity H hgrow] at hcap
        rw [hS.count] at hle hge
        by_cases hload : 3 * m.capacity ≤ 4 * m.count
        · rw [if_pos hload] at hcap
          exact .grew hload hload hcap hle hge
        · rw [if_neg hload] at hcap
          exact .kept hload hcap hge (by omega) (.inl hle)
  | remove key =>
      rcases remove_cases (f := f) a m key with ⟨i, hi, hr⟩ | ⟨hmiss, hr⟩
      · have hlive := HashEntry.isLive_of_matchesKey (matchesKey_of_findSlot hi)
        have H' := H.tombstoneAt hlive
        by_cases hsparse : (m.tombstoneAt i).Sparse
        · obtain ⟨hshrunk, -, hlt⟩ := H'.half hsparse.1 hsparse.2.2
          rw [shrink_of_sparse hsparse] at hr
          rcases resize_cases (f := f) a (hshrunk ▸ hlt : _ < (m.tombstoneAt i).shrunkCapacity) with
            ⟨-, hres⟩ | ⟨-, hc, new, hres, -⟩
          · rw [hres] at hr
            rw [call_remove hr] at hcall
            obtain ⟨rfl, -⟩ := Prod.mk.inj (Option.some.inj hcall)
            exact absurd rfl hok
          · rw [hres] at hr
            rw [call_remove hr] at hcall
            obtain ⟨-, rfl⟩ := Prod.mk.inj (Option.some.inj hcall)
            exact .shrank ⟨i, hi, hsparse⟩ hsparse.1 hsparse.2.2 hshrunk rfl
        · rw [shrink_of_not_sparse hsparse] at hr
          rw [call_remove hr] at hcall
          obtain ⟨-, rfl⟩ := Prod.mk.inj (Option.some.inj hcall)
          refine .kept ?_ rfl ?_ ?_ (.inr hsparse)
          · rintro ⟨j, hj, hsparse'⟩
            obtain rfl := Option.some.inj (hi.symm.trans hj)
            exact hsparse hsparse'
          · change m.count - 1 ≤ m.count + 1
            omega
          · change m.count ≤ m.count - 1 + 1
            omega
      · rw [call_remove hr] at hcall
        obtain ⟨-, rfl⟩ := Prod.mk.inj (Option.some.inj hcall)
        refine .kept ?_ rfl (Nat.le_succ _) (Nat.le_succ _) (.inl (le_refl _))
        rintro ⟨j, hj, -⟩
        rw [hmiss] at hj
        cases hj

/-- The table changes its size exactly in the calls that invoke `hash_map_resize`. -/
theorem capacity_ne_iff_triggers (H : Load m) {c : Op K V × Allocs} (h : Granted f m c m') :
    m'.capacity ≠ m.capacity ↔ Triggers f m c.1 := by
  have hpos := m.capacity_pos
  cases call_sizes H h with
  | kept quiet capacity _ _ _ => exact iff_of_false (fun hne => hne capacity) quiet
  | grew triggers _ capacity _ _ => exact iff_of_true (by omega) triggers
  | shrank triggers _ _ capacity _ => exact iff_of_true (by omega) triggers

/-! ## The density -/

/-- More than a quarter of a table above the minimum size is live. -/
structure Dense (m : HashMap K V) : Prop extends Load m where
  lt_count : minimumCapacity < m.capacity → m.capacity < 4 * m.count

theorem Dense.empty : Dense (empty : HashMap K V) where
  toLoad := Load.empty
  lt_count h := absurd h (lt_irrefl _)

theorem Dense.call (H : Dense m) {c : Op K V × Allocs} (h : Granted f m c m') : Dense m' where
  toLoad := h.load H.toLoad
  lt_count := by
    intro hlarge
    have hdense := H.lt_count
    simp only [minimumCapacity] at hdense hlarge
    cases call_sizes H.toLoad h with
    | kept _ capacity _ lower dense =>
        rcases dense with hle | hdense'
        · omega
        · have hw : c.1.writes ≤ 1 := by cases c.1 <;> simp [Op.writes]
          by_contra hsparse
          exact hdense' ⟨hlarge, by omega, by omega⟩
    | grew _ full capacity lower _ => omega
    | shrank _ large sparse capacity count =>
        simp only [minimumCapacity] at large
        omega

/-! ## The window -/

/-- `t` puts and removes after a resize to `C` slots, the table still has them and holds
between `3C/8 - t` and `C/2 + t` entries. -/
structure Window (C t : ℕ) (m : HashMap K V) : Prop where
  capacity : m.capacity = C
  lower : 3 * C ≤ 8 * (m.count + t)
  upper : 2 * m.count ≤ C + 2 * t

/-- A resize opens the window: the load is then exactly at the threshold that was reached. -/
theorem window_of_triggers (H : Dense m) {c : Op K V × Allocs} (h : Granted f m c m')
    (ht : Triggers f m c.1) : Window m'.capacity 0 m' := by
  have hle := H.load_le
  have hmin := H.le_capacity
  have hdense := H.lt_count
  obtain ⟨q, hq⟩ := H.four_dvd
  simp only [minimumCapacity] at hmin hdense
  cases call_sizes H.toLoad h with
  | kept quiet _ _ _ _ => exact absurd ht quiet
  | grew _ full capacity lower upper => exact ⟨rfl, by omega, by omega⟩
  | shrank _ large sparse capacity count =>
      simp only [minimumCapacity] at large
      exact ⟨rfl, by omega, by omega⟩

section Window
variable {C t : ℕ}

/-- Inside the window no call within reach of `C/8` invokes `hash_map_resize`. -/
theorem Window.not_triggers (W : Window C t m) {op : Op K V} (ht : 8 * (t + op.writes) < C) :
    ¬ Triggers f m op := by
  obtain ⟨hcap, hlower, hupper⟩ := W
  cases op with
  | get key => exact id
  | put key value =>
      intro (hfull : 3 * m.capacity ≤ 4 * m.count)
      simp only [Op.writes] at ht
      omega
  | remove key =>
      rintro ⟨i, -, -, -, hsparse⟩
      change 4 * (m.count - 1) ≤ m.capacity at hsparse
      simp only [Op.writes] at ht
      omega

/-- One more call. -/
theorem Window.call (W : Window C t m) (H : Load m) {c : Op K V × Allocs}
    (h : Granted f m c m') (ht : 8 * (t + c.1.writes) < C) : Window C (t + c.1.writes) m' := by
  have hquiet := W.not_triggers (f := f) ht
  obtain ⟨hcap, hlower, hupper⟩ := W
  cases call_sizes H h with
  | kept _ capacity upper lower _ => exact ⟨capacity.trans hcap, by omega, by omega⟩
  | grew triggers _ _ _ _ => exact absurd triggers hquiet
  | shrank triggers _ _ _ _ => exact absurd triggers hquiet

/-- A run of calls. -/
theorem Window.run {calls : List (Op K V × Allocs)} {os : List (Seen V)} (W : Window C t m)
    (H : Load m) (hrun : Transition.exec (HashMap.call f) m calls = some (os, m'))
    (hok : ∀ o ∈ os, o.errno ≠ some .ENOMEM) (ht : 8 * (t + writes calls) < C) :
    Window C (t + writes calls) m' := by
  induction calls generalizing m t os with
  | nil =>
      obtain ⟨-, rfl⟩ := Prod.mk.inj (Option.some.inj hrun)
      exact W
  | cons c calls ih =>
      obtain ⟨o, m₁, os', m₂, hcall, hrest, heq⟩ := Transition.exec_cons_eq_some.mp hrun
      obtain ⟨rfl, rfl⟩ := Prod.mk.inj heq
      rw [writes_cons] at ht ⊢
      have hgrant : Granted f m c m₁ := ⟨o, hcall, hok o (by simp)⟩
      rw [← Nat.add_assoc]
      exact ih (W.call H hgrant (by omega)) (hgrant.load H) hrest
        (fun o' ho' => hok o' (by simp [ho'])) (by omega)

end Window

/-- **The load factor and the spacing of resizes.**  In every map reached without a failed
allocation, the capacity is 16 times a power of two, at most three quarters of it are live,
and more than a quarter when it is above 16.  A call that resizes it to `C` slots is followed
by fewer than `C/8` puts and removes only if none of these invokes `hash_map_resize`. -/
theorem resize_spacing (h : Transition.Reachable (Created f) (Granted f) m) :
    (∃ j, m.capacity = 16 * 2 ^ j) ∧ 4 * m.count ≤ 3 * m.capacity ∧
    (16 < m.capacity → m.capacity < 4 * m.count) ∧
    ∀ c m₁ calls os m₂ c', Triggers f m c.1 → Granted f m c m₁ →
      Transition.exec (call f) m₁ calls = some (os, m₂) → (∀ o ∈ os, o.errno ≠ some .ENOMEM) →
      8 * writes (calls ++ [c']) < m₁.capacity → ¬ Triggers f m₂ c'.1 := by
  have H : Dense m := by
    refine h.invariant Dense ?_ fun _ _ _ H hstep => H.call hstep
    rintro s ⟨keySize, valueSize, mallocMap, a, hs⟩
    rw [create_eq_some hs]
    exact Dense.empty
  refine ⟨H.capacity_eq, H.load_le, H.lt_count, ?_⟩
  intro c m₁ calls os m₂ c' htrig hgrant hrun hok hnear
  have hsplit : writes (calls ++ [c']) = writes calls + c'.1.writes := by simp [writes]
  rw [hsplit] at hnear
  have W := (window_of_triggers H hgrant htrig).run (hgrant.load H.toLoad) hrun hok (by omega)
  exact W.not_triggers (by omega)

/-- The thirteenth PID doubles the table to 32 slots; the next call leaves its size alone. -/
theorem resize_spacing_doubled : ∃ m : HashMap { pid : BitVec 32 // pid ≠ 0 } ℕ,
    m.capacity = 32 ∧ ∀ op, ¬ Triggers (intCallbacks 0) m op := by
  let pid (i : Fin 13) : { pid : BitVec 32 // pid ≠ 0 } :=
    ⟨BitVec.ofNat 32 (i + 1), by revert i; decide⟩
  let put (i : Fin 13) : Op { pid : BitVec 32 // pid ≠ 0 } ℕ × Allocs :=
    (.put (pid i) i, ⟨true, true, true⟩)
  let fill := (List.finRange 12).map fun i => put i.castSucc
  have hfill : (Transition.exec (call (intCallbacks 0)) empty fill).map (fun r =>
      (r.2.capacity, r.2.count)) = some (16, 12) := by decide +kernel
  obtain ⟨⟨os, m⟩, hrun, hsizes⟩ := Option.map_eq_some_iff.mp hfill
  obtain ⟨hcap, hcount⟩ := Prod.mk.inj hsizes
  replace hcap : m.capacity = 16 := hcap
  replace hcount : m.count = 12 := hcount
  have hreach := granted_of_exec hrun (by decide +kernel)
  have hlast : (Transition.exec (call (intCallbacks 0)) empty fill).bind (fun r =>
      (call (intCallbacks 0) r.2 (put 12)).map fun p => p.2.capacity) = some 32 := by
    decide +kernel
  rw [hrun, Option.bind_some] at hlast
  obtain ⟨⟨o, m₁⟩, hcall, hcap₁⟩ := Option.map_eq_some_iff.mp hlast
  replace hcap₁ : m₁.capacity = 32 := hcap₁
  have hgrants : Grants m (put 12) := by
    refine ⟨?_, rfl⟩
    rintro ⟨-, htable⟩
    rw [hcap] at htable
    cases htable
  refine ⟨m₁, hcap₁, ?_⟩
  intro op
  refine (resize_spacing hreach).2.2.2 (put 12) m₁ [] [] m₁ (op, ⟨true, true, true⟩) ?_
    (hgrants.granted (load_of_granted hreach) hcall) rfl (by simp) ?_
  · change 3 * m.capacity ≤ 4 * m.count
    rw [hcap, hcount]
  · rw [hcap₁, List.nil_append, writes_cons, writes_nil]
    cases op <;> simp [Op.writes]

end HashMap
end Ctm
