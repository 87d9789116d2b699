import Ctm.HashMap.Complete

/-!
# An open iterator

A program may put and remove while it iterates.  An iterator is an index into the table, so
it is disturbed by a call that invokes `hash_map_resize`; any other call leaves each entry in
its slot.  Without resizes a key is yielded once more at most than it is removed, and a key that
stays in the map is yielded exactly once.

## Main definitions

* `Event`, `iterStep` — the calls of a program with an open iterator.
* `Quiet` — a call that fails no allocation and invokes no resize.
* `InSlot` — where a key is stored.
* `yields`, `removals` — how often a key is yielded, and how often removed.
* `iteration_open` — what the iterator yields.
-/

namespace Ctm
namespace HashMap
variable {K V : Type} {f : Callbacks K} {m m' : HashMap K V} {key : K}

/-- A call of a program with an open iterator. -/
inductive Event (K V : Type)
  | next
  | call (c : Op K V × Allocs)

/-- One call: what it yields, the map, and the index of the iterator. -/
def iterStep (f : Callbacks K) (s : HashMap K V × ℕ) :
    Event K V → Option (Option (K × Option V) × HashMap K V × ℕ)
  | .next =>
      let (pair, index) := iterNext s.1 s.2
      some (pair, s.1, index)
  | .call c => do
      let (_, m) ← call f s.1 c
      pure (none, m, s.2)

/-- The call fails no allocation and invokes no resize. -/
def Quiet (f : Callbacks K) (s : HashMap K V × ℕ) : Event K V → Prop
  | .next => True
  | .call c => ¬ Triggers f s.1 c.1 ∧
      ∀ r ∈ HashMap.call f s.1 c, r.1.errno ≠ some .ENOMEM

instance (f : Callbacks K) (m : HashMap K V) : ∀ op, Decidable (Triggers f m op)
  | .put _ _ => inferInstanceAs (Decidable (_ ≤ _))
  | .get _ => inferInstanceAs (Decidable False)
  | .remove _ => inferInstanceAs (Decidable (∃ _, _ ∧ _ ∧ _ ∧ _))

instance (f : Callbacks K) (s : HashMap K V × ℕ) : ∀ e, Decidable (Quiet f s e)
  | .next => inferInstanceAs (Decidable True)
  | .call _ => inferInstanceAs (Decidable (_ ∧ _))

/-- The call removes the key if it is stored. -/
def Event.removes (f : Callbacks K) (key : K) : Event K V → Bool
  | .call (.remove k, _) => f.compareFunc k (.block key) == 0
  | _ => false

/-- The call puts the key. -/
def Event.puts (f : Callbacks K) (key : K) : Event K V → Bool
  | .call (.put k _, _) => f.compareFunc k (.block key) == 0
  | _ => false

/-- How often the key is removed, by calls that find it. -/
def removals (f : Callbacks K) (key : K) : HashMap K V × ℕ → List (Event K V) → ℕ
  | _, [] => 0
  | s, e :: events =>
      (if e.removes f key && (s.1.findSlot f key).isSome then 1 else 0) +
        (iterStep f s e).elim 0 fun r => removals f key r.2 events

/-- How often the key is yielded. -/
def yields (f : Callbacks K) (key : K) (os : List (Option (K × Option V))) : ℕ :=
  os.countP fun o => o.any fun p => f.compareFunc key (.block p.1) == 0

/-! ## Where a key is stored -/

/-- The key is stored in the slot of this index. -/
def InSlot (f : Callbacks K) (m : HashMap K V) (key : K) (i : ℕ) : Prop :=
  ∃ h : i < m.capacity, (m.entries ⟨i, h⟩).matchesKey f key = true

theorem Findable.inSlot_unique (hf : f.Lawful) (H : Findable f m) {i j : ℕ}
    (hi : InSlot f m key i) (hj : InSlot f m key j) : i = j := by
  obtain ⟨hi, hmatch⟩ := hi
  obtain ⟨hj, hmatch'⟩ := hj
  obtain ⟨k, hk, hcmp⟩ := HashEntry.matchesKey_iff.mp hmatch
  obtain ⟨k', hk', hcmp'⟩ := HashEntry.matchesKey_iff.mp hmatch'
  exact congrArg Fin.val (H.distinct _ _ k k' hk hk' (hf.trans (hf.symm hcmp) hcmp'))

/-- Overwriting a slot leaves the keys of the others. -/
theorem inSlot_setEntry_of_ne {i : Fin m.capacity} {e : HashEntry K V} {j : ℕ} (h : j ≠ i) :
    InSlot f (m.setEntry i e) key j ↔ InSlot f m key j := by
  have hentry : ∀ hj : j < m.capacity, (m.setEntry i e).entries ⟨j, hj⟩ = m.entries ⟨j, hj⟩ :=
    fun hj => Function.update_of_ne (fun heq => h (congrArg Fin.val heq)) _ _
  exact exists_congr fun hj => by rw [hentry hj]

theorem inSlot_setEntry_self {i : Fin m.capacity} {e : HashEntry K V} :
    InSlot f (m.setEntry i e) key i ↔ e.matchesKey f key = true := by
  have hentry : (m.setEntry i e).entries i = e := by
    change Function.update m.entries i e i = e
    exact Function.update_self i e m.entries
  constructor
  · rintro ⟨hi, hmatch⟩
    exact hentry ▸ hmatch
  · intro hmatch
    exact ⟨i.isLt, hentry.symm ▸ hmatch⟩

theorem InSlot.matchesKey {i : Fin m.capacity} (h : InSlot f m key i) :
    (m.entries i).matchesKey f key = true := h.2

/-- **A quiet call leaves the entries in their slots**, but for those it removes and puts. -/
theorem call_slots (hf : f.Lawful) (HL : Load m) {c : Op K V × Allocs}
    (h : Granted f m c m') (hquiet : ¬ Triggers f m c.1) (key : K) (i : ℕ) :
    ((Event.call c).removes f key = false → InSlot f m key i → InSlot f m' key i) ∧
      ((Event.call c).puts f key = false → InSlot f m' key i → InSlot f m key i) := by
  obtain ⟨o, hcall, hok⟩ := h
  obtain ⟨op, a⟩ := c
  cases op with
  | get k =>
      rw [call_get] at hcall
      obtain ⟨-, rfl⟩ := Prod.mk.inj (Option.some.inj hcall)
      exact ⟨fun _ => id, fun _ => id⟩
  | remove k =>
      rcases remove_cases (f := f) a m k with ⟨j, hj, hr⟩ | ⟨-, hr⟩
      · have hsparse : ¬ (m.tombstoneAt j).Sparse := fun hsparse => hquiet ⟨j, hj, hsparse⟩
        rw [shrink_of_not_sparse hsparse] at hr
        rw [call_remove hr] at hcall
        obtain ⟨-, rfl⟩ := Prod.mk.inj (Option.some.inj hcall)
        constructor
        · intro hother hin
          have hne : i ≠ j := by
            rintro rfl
            obtain ⟨k₁, hk₁, hcmp⟩ := HashEntry.matchesKey_iff.mp (matchesKey_of_findSlot hj)
            obtain ⟨k₂, hk₂, hcmp'⟩ := HashEntry.matchesKey_iff.mp hin.matchesKey
            obtain rfl := KeyPtr.block.inj (Option.some.inj (hk₁.symm.trans hk₂))
            exact beq_eq_false_iff_ne.mp hother (hf.trans hcmp (hf.symm hcmp'))
          exact (inSlot_setEntry_of_ne hne).mpr hin
        · intro _ hin
          have hne : i ≠ j := by
            rintro rfl
            exact Bool.false_ne_true (inSlot_setEntry_self.mp hin)
          exact (inSlot_setEntry_of_ne hne).mp hin
      · rw [call_remove hr] at hcall
        obtain ⟨-, rfl⟩ := Prod.mk.inj (Option.some.inj hcall)
        exact ⟨fun _ => id, fun _ => id⟩
  | put k v =>
      rcases put_cases (f := f) HL a k v with ⟨-, hr⟩ | ⟨-, hr⟩
      · rw [call_put hr] at hcall
        obtain ⟨rfl, -⟩ := Prod.mk.inj (Option.some.inj hcall)
        exact absurd rfl hok
      · have hgrown : m.grown f a = m := if_neg hquiet
        rw [hgrown] at hr
        rcases putEntry_cases hf.skipsTombstone HL a k v with ⟨j, -, he⟩ | ⟨j, -, hfree, he⟩
        · rw [call_put (hr.trans he)] at hcall
          obtain ⟨-, rfl⟩ := Prod.mk.inj (Option.some.inj hcall)
          have hsame : InSlot f (m.setEntry j { m.entries j with value := some v }) key i ↔
              InSlot f m key i := by
            by_cases hij : i = j
            · subst hij
              exact inSlot_setEntry_self.trans ⟨fun hmatch => ⟨j.isLt, hmatch⟩, InSlot.matchesKey⟩
            · exact inSlot_setEntry_of_ne hij
          exact ⟨fun _ => hsame.mpr, fun _ => hsame.mp⟩
        · have hdead := firstFree_not_isLive hfree
          rcases putNew_cases a hdead k v with ⟨-, hn⟩ | ⟨-, e, -, hn⟩
          · rw [call_put (hr.trans (he.trans (congrArg some hn)))] at hcall
            obtain ⟨-, rfl⟩ := Prod.mk.inj (Option.some.inj hcall)
            constructor
            · intro _ hin
              have hne : i ≠ j := by
                rintro rfl
                rw [HashEntry.isLive_of_matchesKey hin.matchesKey] at hdead
                exact Bool.noConfusion hdead
              exact (inSlot_setEntry_of_ne hne).mpr hin
            · intro hother hin
              have hne : i ≠ j := by
                rintro rfl
                obtain ⟨k', hk', hcmp⟩ :=
                  HashEntry.matchesKey_iff.mp (inSlot_setEntry_self.mp hin)
                obtain rfl := KeyPtr.block.inj (Option.some.inj hk')
                exact beq_eq_false_iff_ne.mp hother (hf.symm hcmp)
              exact (inSlot_setEntry_of_ne hne).mp hin
          · rw [call_put (hr.trans (he.trans (congrArg some hn)))] at hcall
            obtain ⟨rfl, -⟩ := Prod.mk.inj (Option.some.inj hcall)
            exact absurd rfl hok

/-! ## What the iterator steps over -/

/-- The loop of `hash_map_iter_next` stops behind the next live slot, or behind the table. -/
theorem iterLoop_slot (m : HashMap K V) : ∀ fuel index, m.capacity ≤ index + fuel →
    (∃ k v j, iterLoop m fuel index = (some (k, v), j + 1) ∧ index ≤ j ∧
      (∃ h : j < m.capacity, m.entries ⟨j, h⟩ = ⟨some (.block k), v⟩) ∧
      ∀ key i, index ≤ i → i < j → ¬ InSlot f m key i) ∨
    (∃ index', iterLoop m fuel index = (none, index') ∧ index ≤ index' ∧
      ∀ key i, index ≤ i → ¬ InSlot f m key i) := by
  intro fuel
  induction fuel with
  | zero =>
      intro index hfuel
      refine .inr ⟨index, rfl, le_rfl, ?_⟩
      rintro key i hi ⟨hlt, -⟩
      omega
  | succ fuel ih =>
      intro index hfuel
      rw [iterLoop]
      split
      · rename_i hlt
        -- A slot that is not live is stepped over.
        have hskip : (∀ key, ¬ InSlot f m key index) → (∃ k v j,
            iterLoop m fuel (index + 1) = (some (k, v), j + 1) ∧ index ≤ j ∧
              (∃ h : j < m.capacity, m.entries ⟨j, h⟩ = ⟨some (.block k), v⟩) ∧
              ∀ key i, index ≤ i → i < j → ¬ InSlot f m key i) ∨
            (∃ index', iterLoop m fuel (index + 1) = (none, index') ∧ index ≤ index' ∧
              ∀ key i, index ≤ i → ¬ InSlot f m key i) := by
          intro hfree
          rcases ih (index + 1) (by omega) with ⟨k, v, j, hloop, hle, hentry, hbefore⟩ |
            ⟨index', hloop, hle, hbefore⟩
          · refine .inl ⟨k, v, j, hloop, by omega, hentry, fun key i hi hij => ?_⟩
            rcases Nat.eq_or_lt_of_le hi with rfl | hlt
            · exact hfree key
            · exact hbefore key i hlt hij
          · refine .inr ⟨index', hloop, by omega, fun key i hi => ?_⟩
            rcases Nat.eq_or_lt_of_le hi with rfl | hlt
            · exact hfree key
            · exact hbefore key i hlt
        cases hkey : (m.entries ⟨index, hlt⟩).key with
        | none =>
            refine hskip ?_
            rintro key ⟨hi, hmatch⟩
            obtain ⟨k, hk, -⟩ := HashEntry.matchesKey_iff.mp hmatch
            exact absurd (hk.symm.trans hkey) (Option.some_ne_none _)
        | some p =>
            cases p with
            | tombstone =>
                refine hskip ?_
                rintro key ⟨hi, hmatch⟩
                obtain ⟨k, hk, -⟩ := HashEntry.matchesKey_iff.mp hmatch
                cases hk.symm.trans hkey
            | block k =>
                refine .inl ⟨k, _, index, rfl, le_rfl, ⟨hlt, ?_⟩, fun key i hle hi => by omega⟩
                rw [← hkey]
      · rename_i hle
        refine .inr ⟨index, rfl, le_rfl, ?_⟩
        rintro key i hi ⟨hlt, -⟩
        omega

/-! ## Runs -/

/-- A step of the iterator moves it behind the pair it yields, or leaves nothing to yield. -/
theorem next_cases {index index' : ℕ} {o : Option (K × Option V)}
    (h : iterStep f (m, index) .next = some (o, m', index')) : m' = m ∧
    ((∃ k v j, o = some (k, v) ∧ index' = j + 1 ∧ index ≤ j ∧
      (∀ key, f.compareFunc key (.block k) = 0 ↔ InSlot f m key j) ∧
      ∀ key i, index ≤ i → i < j → ¬ InSlot f m key i) ∨
    (o = none ∧ index ≤ index' ∧ ∀ key i, index ≤ i → ¬ InSlot f m key i)) := by
  replace h : some ((iterNext m index).1, m, (iterNext m index).2) = some (o, m', index') := h
  obtain ⟨ho, hm⟩ := Prod.mk.inj (Option.some.inj h)
  obtain ⟨rfl, hindex⟩ := Prod.mk.inj hm
  refine ⟨rfl, ?_⟩
  rcases iterLoop_slot (f := f) m (m.capacity - index) index (by omega) with
    ⟨k, v, j, hloop, hle, ⟨hj, hentry⟩, hbefore⟩ | ⟨j, hloop, hle, hbefore⟩
  · replace hloop : iterNext m index = (some (k, v), j + 1) := hloop
    rw [hloop] at ho hindex
    refine .inl ⟨k, v, j, ho.symm, hindex.symm, hle, fun key => ?_, hbefore⟩
    constructor
    · intro hcmp
      exact ⟨hj, HashEntry.matchesKey_iff.mpr ⟨k, by rw [hentry], hcmp⟩⟩
    · intro hin
      obtain ⟨hj', hmatch⟩ := hin
      obtain ⟨k', hk', hcmp⟩ := HashEntry.matchesKey_iff.mp hmatch
      rw [hentry] at hk'
      exact KeyPtr.block.inj (Option.some.inj hk') ▸ hcmp
  · replace hloop : iterNext m index = (none, j) := hloop
    rw [hloop] at ho hindex
    exact .inr ⟨ho.symm, hle.trans_eq hindex, hbefore⟩

/-- A quiet call yields nothing and leaves the iterator where it is. -/
theorem call_cases {index index' : ℕ} {c : Op K V × Allocs} {o : Option (K × Option V)}
    (h : iterStep f (m, index) (.call c) = some (o, m', index'))
    (hquiet : Quiet f (m, index) (.call c)) : o = none ∧ index' = index ∧ Granted f m c m' := by
  obtain ⟨⟨seen, m₁⟩, hcall, heq⟩ := Option.bind_eq_some_iff.mp h
  obtain ⟨rfl, hm⟩ := Prod.mk.inj (Option.some.inj heq)
  obtain ⟨rfl, rfl⟩ := Prod.mk.inj hm
  exact ⟨rfl, rfl, seen, hcall, hquiet.2 (seen, m₁) hcall⟩

section Runs
variable {events : List (Event K V)} {os : List (Option (K × Option V))} {index index' : ℕ}

theorem removals_cons {s s' : HashMap K V × ℕ} {e : Event K V} {o : Option (K × Option V)}
    (h : iterStep f s e = some (o, s')) :
    removals f key s (e :: events) =
      (if e.removes f key && (s.1.findSlot f key).isSome then 1 else 0) +
        removals f key s' events := by
  rw [removals, h]
  rfl

/-- A key is yielded at most once ahead of the iterator, and once more for each removal. -/
theorem yields_le (hf : f.Lawful) (h : Transition.Reachable (Created f) (Granted f) m)
    (hrun : Transition.exec (iterStep f) (m, index) events = some (os, m', index'))
    (hquiet : Transition.Along (Quiet f) (iterStep f) (m, index) events) :
    yields f key os ≤ removals f key (m, index) events + 1 ∧
      ((∃ i, InSlot f m key i ∧ i < index) →
        yields f key os ≤ removals f key (m, index) events) := by
  induction events generalizing m os index with
  | nil =>
      obtain ⟨rfl, -⟩ := Prod.mk.inj (Option.some.inj hrun)
      exact ⟨Nat.zero_le _, fun _ => Nat.zero_le _⟩
  | cons e events ih =>
      obtain ⟨o, ⟨m₁, index₁⟩, os', s₂, hstep, hrest, heq⟩ :=
        Transition.exec_cons_eq_some.mp hrun
      obtain ⟨rfl, rfl⟩ := Prod.mk.inj heq
      obtain ⟨hok, halong⟩ := (Transition.along_cons hstep).mp hquiet
      cases e with
      | next =>
          obtain ⟨rfl, hcases⟩ := next_cases hstep
          obtain ⟨hle, hbehind⟩ := ih h hrest halong
          have hremovals : removals f key (m₁, index) (.next :: events) =
              removals f key (m₁, index₁) events := (removals_cons hstep).trans (Nat.zero_add _)
          rw [hremovals]
          rcases hcases with ⟨k, v, j, rfl, rfl, hj, hk, -⟩ | ⟨rfl, hindex, -⟩
          · by_cases hcmp : f.compareFunc key (.block k) = 0
            · -- The key is yielded, and is behind the iterator from now on.
              have hyields : yields f key (some (k, v) :: os') = yields f key os' + 1 :=
                List.countP_cons_of_pos (by simp [hcmp])
              have hslot := (hk key).mp hcmp
              have hrest' := hbehind ⟨j, hslot, Nat.lt_succ_self j⟩
              rw [hyields]
              refine ⟨by omega, ?_⟩
              rintro ⟨i, hin, hi⟩
              have := (findable_of_reachable hf h).2.inSlot_unique hf hin hslot
              omega
            · have hyields : yields f key (some (k, v) :: os') = yields f key os' :=
                List.countP_cons_of_neg (by simp [hcmp])
              rw [hyields]
              refine ⟨hle, ?_⟩
              rintro ⟨i, hin, hi⟩
              exact hbehind ⟨i, hin, by omega⟩
          · have hyields : yields f key (none :: os') = yields f key os' :=
              List.countP_cons_of_neg (by simp)
            rw [hyields]
            refine ⟨hle, ?_⟩
            rintro ⟨i, hin, hi⟩
            exact hbehind ⟨i, hin, by omega⟩
      | call c =>
          obtain ⟨rfl, rfl, hgranted⟩ := call_cases hstep hok
          obtain ⟨hle, hbehind⟩ := ih (h.step hgranted) hrest halong
          have hyields : yields f key (none :: os') = yields f key os' :=
            List.countP_cons_of_neg (by simp)
          rw [hyields, removals_cons hstep]
          refine ⟨by omega, ?_⟩
          rintro ⟨i, hin, hi⟩
          obtain ⟨HL, HF⟩ := findable_of_reachable hf h
          -- The key is stored, so a removal of it finds it.
          have hfound : m.findSlot f key = some ⟨i, hin.1⟩ :=
            (HF.findSlot_eq_some_iff hf).mpr hin.2
          rw [hfound, Option.isSome_some, Bool.and_true]
          cases hremoves : (Event.call c).removes f key with
          | true =>
              rw [if_pos rfl]
              omega
          | false =>
              have hkept := (call_slots hf HL hgranted hok.1 key i).1
              have := hbehind ⟨i, hkept hremoves hin, hi⟩
              omega

/-- A key that is not removed is yielded if it is ahead of the iterator, which steps over every
slot. -/
theorem yields_pos (hf : f.Lawful) (h : Transition.Reachable (Created f) (Granted f) m)
    (hrun : Transition.exec (iterStep f) (m, index) events = some (os, m', index'))
    (hquiet : Transition.Along (Quiet f) (iterStep f) (m, index) events)
    (hkept : removals f key (m, index) events = 0) {i : ℕ} (hin : InSlot f m key i)
    (hle : index ≤ i) (hend : (iterNext m' index').1 = none) : 0 < yields f key os := by
  induction events generalizing m os index with
  | nil =>
      obtain ⟨-, hs⟩ := Prod.mk.inj (Option.some.inj hrun)
      obtain ⟨rfl, rfl⟩ := Prod.mk.inj hs
      have hstep : iterStep f (m, index) .next =
        some ((iterNext m index).1, m, (iterNext m index).2) := rfl
      rcases (next_cases hstep).2 with ⟨k, v, j, ho, -⟩ | ⟨-, -, hnone⟩
      · exact absurd (ho.symm.trans hend) (Option.some_ne_none _)
      · exact absurd hin (hnone key i hle)
  | cons e events ih =>
      obtain ⟨o, ⟨m₁, index₁⟩, os', s₂, hstep, hrest, heq⟩ :=
        Transition.exec_cons_eq_some.mp hrun
      obtain ⟨rfl, rfl⟩ := Prod.mk.inj heq
      obtain ⟨hok, halong⟩ := (Transition.along_cons hstep).mp hquiet
      rw [removals_cons hstep, Nat.add_eq_zero_iff] at hkept
      obtain ⟨hno, hkept'⟩ := hkept
      have htail : 0 < yields f key os' → 0 < yields f key (o :: os') := by
        intro hpos
        rw [yields, List.countP_cons]
        exact Nat.add_pos_left hpos _
      cases e with
      | next =>
          obtain ⟨rfl, hcases⟩ := next_cases hstep
          rcases hcases with ⟨k, v, j, rfl, rfl, hj, hk, hbefore⟩ | ⟨-, -, hnone⟩
          · rcases Nat.lt_trichotomy i j with hlt | rfl | hgt
            · exact absurd hin (hbefore key i hle hlt)
            · have hcmp := (hk key).mpr hin
              exact List.countP_pos_iff.mpr ⟨some (k, v), List.mem_cons_self, by simp [hcmp]⟩
            · exact htail (ih h hrest halong hkept' hin hgt)
          · exact absurd hin (hnone key i hle)
      | call c =>
          obtain ⟨rfl, rfl, hgranted⟩ := call_cases hstep hok
          obtain ⟨HL, HF⟩ := findable_of_reachable hf h
          have hfound : m.findSlot f key = some ⟨i, hin.1⟩ :=
            (HF.findSlot_eq_some_iff hf).mpr hin.2
          have hremoves : (Event.call c).removes f key = false := by
            rw [hfound, Option.isSome_some, Bool.and_true] at hno
            simpa using hno
          have hstays := (call_slots hf HL hgranted hok.1 key i).1
          exact htail (ih (h.step hgranted) hrest halong hkept' (hstays hremoves hin) hle)

/-- A key that is neither stored nor put is not yielded. -/
theorem yields_eq_zero (hf : f.Lawful) (h : Transition.Reachable (Created f) (Granted f) m)
    (hrun : Transition.exec (iterStep f) (m, index) events = some (os, m', index'))
    (hquiet : Transition.Along (Quiet f) (iterStep f) (m, index) events)
    (hput : ∀ e ∈ events, e.puts f key = false) (hout : ∀ i, ¬ InSlot f m key i) :
    yields f key os = 0 := by
  induction events generalizing m os index with
  | nil =>
      obtain ⟨rfl, -⟩ := Prod.mk.inj (Option.some.inj hrun)
      rfl
  | cons e events ih =>
      obtain ⟨o, ⟨m₁, index₁⟩, os', s₂, hstep, hrest, heq⟩ :=
        Transition.exec_cons_eq_some.mp hrun
      obtain ⟨rfl, rfl⟩ := Prod.mk.inj heq
      obtain ⟨hok, halong⟩ := (Transition.along_cons hstep).mp hquiet
      have hput' : ∀ e ∈ events, e.puts f key = false :=
        fun e he => hput e (List.mem_cons_of_mem _ he)
      cases e with
      | next =>
          obtain ⟨rfl, hcases⟩ := next_cases hstep
          refine Eq.trans (List.countP_cons_of_neg ?_) (ih h hrest halong hput' hout)
          rcases hcases with ⟨k, v, j, rfl, -, -, hk, -⟩ | ⟨rfl, -⟩
          · have hcmp : f.compareFunc key (.block k) ≠ 0 := fun hcmp => hout j ((hk key).mp hcmp)
            simp [hcmp]
          · simp
      | call c =>
          obtain ⟨rfl, rfl, hgranted⟩ := call_cases hstep hok
          have hnew := fun i =>
            (call_slots hf (findable_of_reachable hf h).1 hgranted hok.1 key i).2
          refine Eq.trans (List.countP_cons_of_neg (by simp))
            (ih (h.step hgranted) hrest halong hput' ?_)
          intro i hin
          exact hout i (hnew i (hput _ List.mem_cons_self) hin)

end Runs

/-! ## From a fresh iterator -/

/-- A search reads a value exactly of the keys that are stored. -/
theorem get_eq_none_iff_inSlot (hf : f.Lawful) (HL : Load m) (HF : Findable f m) :
    get f m (some key) = some (none, none) ↔ ∀ i, ¬ InSlot f m key i := by
  rw [get_eq]
  cases hs : m.findSlot f key with
  | none =>
      refine iff_of_true rfl ?_
      rintro i ⟨hi, hmatch⟩
      rw [(HF.findSlot_eq_none_iff hf).mp hs ⟨i, hi⟩] at hmatch
      exact Bool.false_ne_true hmatch
  | some i =>
      have hmatch := matchesKey_of_findSlot hs
      obtain ⟨k, hk, -⟩ := HashEntry.matchesKey_iff.mp hmatch
      obtain ⟨v, hv⟩ := HL.valued.block i k hk
      refine iff_of_false ?_ ?_
      · rw [Option.bind_some, hv]
        intro heq
        exact Option.some_ne_none v (congrArg Prod.fst (Option.some.inj heq))
      · intro hnone
        exact hnone i ⟨i.isLt, hmatch⟩

/-- **What an iterator yields while the program puts and removes.**  As long as no call invokes
a resize, a key is yielded at most once more than it is removed; one that is neither stored nor
put is not yielded; and one that is stored and not removed has been yielded once when the
iterator ends. -/
theorem iteration_open (hf : f.Lawful) (h : Transition.Reachable (Created f) (Granted f) m)
    {events : List (Event K V)} {os : List (Option (K × Option V))} {index : ℕ}
    (hrun : Transition.exec (iterStep f) (m, 0) events = some (os, m', index))
    (hquiet : Transition.Along (Quiet f) (iterStep f) (m, 0) events) (key : K) :
    yields f key os ≤ removals f key (m, 0) events + 1 ∧
      (get f m (some key) = some (none, none) → (∀ e ∈ events, e.puts f key = false) →
        yields f key os = 0) ∧
      (get f m (some key) ≠ some (none, none) → removals f key (m, 0) events = 0 →
        (iterNext m' index).1 = none → yields f key os = 1) := by
  obtain ⟨HL, HF⟩ := findable_of_reachable hf h
  have hle : yields f key os ≤ removals f key (m, 0) events + 1 :=
    (yields_le hf h hrun hquiet).1
  refine ⟨hle, ?_, ?_⟩
  · intro habsent hput
    exact yields_eq_zero hf h hrun hquiet hput ((get_eq_none_iff_inSlot hf HL HF).mp habsent)
  · intro hstored hkept hend
    obtain ⟨i, hin⟩ : ∃ i, InSlot f m key i := by
      by_contra hnone
      exact hstored ((get_eq_none_iff_inSlot hf HL HF).mpr (not_exists.mp hnone))
    have hpos := yields_pos hf h hrun hquiet hkept hin (Nat.zero_le i) hend
    omega

/-- A PID is yielded, removed, put into a slot that is still ahead, and yielded again; one that
stays is yielded once. -/
theorem iteration_open_moved :
    ∃ (m m' : HashMap { pid : BitVec 32 // pid ≠ 0 } ℕ) (os : _) (index : ℕ),
      Transition.exec (iterStep (intCallbacks 0)) (m, 0)
        [.next, .call (.remove ⟨32, by decide⟩, ⟨true, true, true⟩),
          .call (.put ⟨16, by decide⟩ 1, ⟨true, true, true⟩),
          .call (.put ⟨32, by decide⟩ 2, ⟨true, true, true⟩), .next, .next] =
        some (os, m', index) ∧
      yields (intCallbacks 0) ⟨32, by decide⟩ os = 2 ∧
      yields (intCallbacks 0) ⟨3, by decide⟩ os = 1 := by
  let calls : List (Op { pid : BitVec 32 // pid ≠ 0 } ℕ × Allocs) :=
    [(.put ⟨32, by decide⟩ 1, ⟨true, true, true⟩), (.put ⟨3, by decide⟩ 3, ⟨true, true, true⟩)]
  let events : List (Event { pid : BitVec 32 // pid ≠ 0 } ℕ) :=
    [.next, .call (.remove ⟨32, by decide⟩, ⟨true, true, true⟩),
      .call (.put ⟨16, by decide⟩ 1, ⟨true, true, true⟩),
      .call (.put ⟨32, by decide⟩ 2, ⟨true, true, true⟩), .next, .next]
  have hcheck : ((Transition.exec (call (intCallbacks 0)) empty calls).bind fun r =>
      (Transition.exec (iterStep (intCallbacks 0)) (r.2, 0) events).map fun q =>
        (decide (Transition.Along (Quiet (intCallbacks 0))
            (iterStep (intCallbacks 0)) (r.2, 0) events),
          decide (get (intCallbacks 0) r.2 (some ⟨3, by decide⟩) = some (none, none)),
          removals (intCallbacks 0) ⟨3, by decide⟩ (r.2, 0) events,
          yields (intCallbacks 0) ⟨32, by decide⟩ q.1, (iterNext q.2.1 q.2.2).1.isNone)) =
      some (true, false, 0, 2, true) := by decide +kernel
  obtain ⟨⟨os, m⟩, hrun, hcheck⟩ := Option.bind_eq_some_iff.mp hcheck
  obtain ⟨⟨os', m', index⟩, hevents, hcheck⟩ := Option.map_eq_some_iff.mp hcheck
  simp only [Prod.mk.injEq, decide_eq_true_eq, decide_eq_false_iff_not,
    Option.isNone_iff_eq_none] at hcheck
  obtain ⟨hquiet, hstored, hkept, htwice, hend⟩ := hcheck
  have hreach := granted_of_exec hrun (by decide +kernel)
  refine ⟨m, m', os', index, hevents, htwice, ?_⟩
  exact (iteration_open (intCallbacks_lawful 0) hreach hevents hquiet ⟨3, by decide⟩).2.2
    hstored hkept hend

end HashMap
end Ctm
