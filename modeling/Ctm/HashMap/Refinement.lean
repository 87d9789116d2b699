import Ctm.HashMap.Invariant
import Ctm.Lib.Transition
import Mathlib.Data.Finmap

/-!
# The hash map refines a finite map

The abstract map is Mathlib's `Finmap` over keys up to `compare_func`.  `Represents` is
the refinement relation: both invariants of the table hold, a search reads what the
abstract map holds, and `count` is the number of abstract keys.

The relation is kept by each change the operations make to a table, then by each call
that suffers no failed allocation, then by every run.

## Main definitions

* `Callbacks.Lawful.Key` — keys up to `compare_func`.
* `lookup` — the value a search reads.
* `Represents` — the refinement relation.
* `Op`, `call`, `specCall` — a call, its effect on the table and on the abstract map.
* `Grants` — the allocations of a call are granted.
* `Created`, `Step` — the system of all runs.
-/

namespace Ctm

/-- Keys that compare equal are the same abstract key. -/
def Callbacks.Lawful.setoid {K : Type} {f : Callbacks K} (hf : f.Lawful) : Setoid K where
  r a b := f.compareFunc a (.block b) = 0
  iseqv := ⟨hf.refl, hf.symm, hf.trans⟩

/-- Keys up to `compare_func`. -/
abbrev Callbacks.Lawful.Key {K : Type} {f : Callbacks K} (hf : f.Lawful) : Type :=
  Quotient hf.setoid

/-- The abstract key a key stands for. -/
def Callbacks.Lawful.key {K : Type} {f : Callbacks K} (hf : f.Lawful) (k : K) : hf.Key :=
  Quotient.mk hf.setoid k

instance {K : Type} {f : Callbacks K} (hf : f.Lawful) : DecidableEq hf.Key :=
  @Quotient.decidableEq K hf.setoid
    fun a b => inferInstanceAs (Decidable (f.compareFunc a (.block b) = 0))

theorem Callbacks.Lawful.key_eq_iff {K : Type} {f : Callbacks K} (hf : f.Lawful) {a b : K} :
    hf.key a = hf.key b ↔ f.compareFunc a (.block b) = 0 :=
  Quotient.eq (r := hf.setoid)

namespace HashMap
variable {K V : Type} {f : Callbacks K} {m m' : HashMap K V}

/-- The value pointer a search for `key` reads. -/
def lookup (f : Callbacks K) (m : HashMap K V) (key : K) : Option V :=
  (m.findSlot f key).bind fun i => (m.entries i).value

/-- The same live entries give the same searches, wherever the entries are stored. -/
theorem SameEntries.lookup_eq (hf : f.Lawful) (S : SameEntries m m') (H : Findable f m)
    (H' : Findable f m') (key : K) : lookup f m' key = lookup f m key := by
  unfold lookup
  cases hs : m.findSlot f key with
  | some i =>
      have hmatch := matchesKey_of_findSlot hs
      obtain ⟨j, hj⟩ := (S.entries _ (HashEntry.isLive_of_matchesKey hmatch)).mpr ⟨i, rfl⟩
      have hs' : m'.findSlot f key = some j :=
        (H'.findSlot_eq_some_iff hf).mpr (by rw [hj]; exact hmatch)
      simp [hs', hj]
  | none =>
      have hmiss := (H.findSlot_eq_none_iff hf).mp hs
      have hs' : m'.findSlot f key = none := by
        rw [H'.findSlot_eq_none_iff hf]
        intro j
        by_contra hj
        rw [Bool.not_eq_false] at hj
        obtain ⟨i, hi⟩ := (S.entries _ (HashEntry.isLive_of_matchesKey hj)).mp ⟨j, rfl⟩
        rw [← hi, hmiss i] at hj
        cases hj
      simp [hs']

/-- Where no slot's test changes, neither does the search. -/
theorem findSlot_congr (hf : f.Lawful) {i : Fin m.capacity} {e : HashEntry K V}
    (H : Findable f m) (H' : Findable f (m.setEntry i e)) (key : K)
    (h : e.matchesKey f key = (m.entries i).matchesKey f key) :
    (m.setEntry i e).findSlot f key = m.findSlot f key := by
  have htest : ∀ j, ((m.setEntry i e).entries j).matchesKey f key =
      (m.entries j).matchesKey f key := by
    intro (j : Fin m.capacity)
    change (Function.update m.entries i e j).matchesKey f key = _
    by_cases hj : j = i
    · subst hj; rw [Function.update_self, h]
    · rw [Function.update_of_ne hj]
  cases hs : m.findSlot f key with
  | some j =>
      exact (H'.findSlot_eq_some_iff hf).mpr
        ((htest j).trans ((H.findSlot_eq_some_iff hf).mp hs))
  | none =>
      refine (H'.findSlot_eq_none_iff hf).mpr ?_
      intro j
      rw [htest]
      exact (H.findSlot_eq_none_iff hf).mp hs j

/-- A search after slot `i` is overwritten: `e` answers for the keys it matches, and the
searches it does not concern read what they read before. -/
theorem lookup_setEntry (hf : f.Lawful) {i : Fin m.capacity} {e : HashEntry K V}
    (H : Findable f m) (H' : Findable f (m.setEntry i e)) (key : K) :
    (e.matchesKey f key = true → lookup f (m.setEntry i e) key = e.value) ∧
    (e.matchesKey f key = false → (m.entries i).matchesKey f key = false →
      lookup f (m.setEntry i e) key = lookup f m key) := by
  constructor
  · intro h
    have hs : (m.setEntry i e).findSlot f key = some i := by
      refine (H'.findSlot_eq_some_iff hf).mpr ?_
      change (Function.update m.entries i e i).matchesKey f key
      rw [Function.update_self]
      exact h
    rw [lookup, hs]
    change (Function.update m.entries i e i).value = e.value
    rw [Function.update_self]
  · intro h hi
    have hs := findSlot_congr hf H H' key (h.trans hi.symm)
    unfold lookup
    rw [hs]
    cases hj : m.findSlot f key with
    | none => rfl
    | some j =>
        have hmatch := (H.findSlot_eq_some_iff hf).mp hj
        have hne : j ≠ i := by
          rintro rfl
          rw [hi] at hmatch
          cases hmatch
        change (Function.update m.entries i e j).value = _
        rw [Function.update_of_ne hne]
        rfl

/-- Searches after the entry of `key` is replaced by a tombstone. -/
theorem lookup_tombstoneAt (hf : f.Lawful) (H : Findable f m) {key : K} {i : Fin m.capacity}
    (hi : m.findSlot f key = some i) :
    (∀ key', f.compareFunc key (.block key') = 0 → lookup f (m.tombstoneAt i) key' = none) ∧
    (∀ key', f.compareFunc key (.block key') ≠ 0 →
      lookup f (m.tombstoneAt i) key' = lookup f m key') := by
  obtain ⟨k, hk, hcmp⟩ := HashEntry.matchesKey_iff.mp (matchesKey_of_findSlot hi)
  have hF := H.tombstoneAt i
  have hF' : Findable f (m.setEntry i ⟨some .tombstone, none⟩) := ⟨hF.distinct, hF.reachable⟩
  constructor
  · intro key' heq
    -- The only slot that matched is now a tombstone.
    have hnone : (m.setEntry i ⟨some .tombstone, none⟩).findSlot f key' = none := by
      rw [hF'.findSlot_eq_none_iff hf]
      intro (j : Fin m.capacity)
      change (Function.update m.entries i _ j).matchesKey f key' = false
      by_cases hj : j = i
      · subst hj; rw [Function.update_self]; rfl
      · rw [Function.update_of_ne hj]
        by_contra h
        obtain ⟨k', hk', hcmp'⟩ := HashEntry.matchesKey_iff.mp (Bool.not_eq_false _ ▸ h)
        have hkk : f.compareFunc k' (.block k) = 0 :=
          hf.trans (hf.symm hcmp') (hf.trans (hf.symm heq) hcmp)
        exact hj (H.distinct j i k' k hk' hk hkk)
    change lookup f (m.setEntry i _) key' = none
    rw [lookup, hnone]
    rfl
  · intro key' hne
    have hno : (m.entries i).matchesKey f key' = false := by
      by_contra h
      obtain ⟨k', hk', hcmp'⟩ := HashEntry.matchesKey_iff.mp (Bool.not_eq_false _ ▸ h)
      obtain rfl : k = k' := by rw [hk] at hk'; cases hk'; rfl
      exact hne (hf.trans hcmp (hf.symm hcmp'))
    exact (lookup_setEntry hf H hF' key').2 rfl hno

/-! ## The refinement relation -/

/-- The table `m` implements the abstract map `d`. -/
structure Represents (hf : f.Lawful) (m : HashMap K V) (d : Finmap fun _ : hf.Key => V) :
    Prop where
  load : Load m
  findable : Findable f m
  lookup_eq : ∀ key, lookup f m key = d.lookup (hf.key key)
  count_eq : m.count = d.keys.card

section Represents
variable {hf : f.Lawful} {d : Finmap fun _ : hf.Key => V}

theorem Represents.empty : Represents hf (empty : HashMap K V) ∅ where
  load := Load.empty
  findable := Findable.empty
  lookup_eq := by
    intro key
    have hnone : (HashMap.empty : HashMap K V).findSlot f key = none :=
      (Findable.empty.findSlot_eq_none_iff hf).mpr fun _ => rfl
    simp [lookup, hnone]
  count_eq := by simp [HashMap.empty]

theorem Represents.sameEntries (R : Represents hf m d) (S : SameEntries m m') (hL : Load m')
    (hF : Findable f m') : Represents hf m' d where
  load := hL
  findable := hF
  lookup_eq := fun key => (S.lookup_eq hf R.findable hF key).trans (R.lookup_eq key)
  count_eq := S.count.trans R.count_eq

/-- The search succeeds exactly on the abstract keys present. -/
theorem Represents.mem_iff (R : Represents hf m d) (key : K) :
    hf.key key ∈ d ↔ ∃ i, m.findSlot f key = some i := by
  rw [← Finmap.lookup_isSome, ← R.lookup_eq, lookup]
  constructor
  · intro h
    cases hs : m.findSlot f key with
    | some i => exact ⟨i, rfl⟩
    | none => simp [hs] at h
  · rintro ⟨i, hi⟩
    obtain ⟨k, hk, -⟩ := HashEntry.matchesKey_iff.mp (matchesKey_of_findSlot hi)
    obtain ⟨v, hv⟩ := R.load.valued.block i k hk
    simp [hi, hv]

/-- Overwriting the value of a present key is abstract insertion. -/
theorem Represents.setValue (R : Represents hf m d) {key : K} {i : Fin m.capacity}
    (hi : m.findSlot f key = some i) (v : V) :
    Represents hf (m.setEntry i { m.entries i with value := some v })
      (d.insert (hf.key key) v) := by
  have hmatch := matchesKey_of_findSlot hi
  obtain ⟨k, hk, hcmp⟩ := HashEntry.matchesKey_iff.mp hmatch
  have hF := R.findable.setValue (HashEntry.isLive_of_matchesKey hmatch) v
  refine ⟨R.load.setValue (HashEntry.isLive_of_matchesKey hmatch) v, hF, ?_, ?_⟩
  · intro key'
    obtain ⟨hhit, hmiss⟩ := lookup_setEntry hf R.findable hF key'
    by_cases heq : hf.key key' = hf.key key
    · have hcmp' := hf.trans (hf.key_eq_iff.mp heq) hcmp
      rw [heq, Finmap.lookup_insert, hhit (HashEntry.matchesKey_iff.mpr ⟨k, hk, hcmp'⟩)]
    · have hno : (m.entries i).matchesKey f key' = false := by
        by_contra h
        rw [Bool.not_eq_false] at h
        obtain ⟨k', hk', hcmp'⟩ := HashEntry.matchesKey_iff.mp h
        obtain rfl : k = k' := by rw [hk] at hk'; cases hk'; rfl
        exact heq (hf.key_eq_iff.mpr (hf.trans hcmp' (hf.symm hcmp)))
      rw [hmiss hno hno, R.lookup_eq, Finmap.lookup_insert_of_ne _ heq]
  · have hkeys : (d.insert (hf.key key) v).keys = d.keys := by
      ext q
      rw [Finmap.mem_keys, Finmap.mem_keys, Finmap.mem_insert]
      constructor
      · rintro (rfl | hq)
        · exact (R.mem_iff key).mpr ⟨i, hi⟩
        · exact hq
      · exact .inr
    rw [hkeys]
    exact R.count_eq

/-- Writing a new entry to the first free slot of its walk is abstract insertion. -/
theorem Represents.insertAt (R : Represents hf m d) {key : K} {i : Fin m.capacity}
    (habsent : m.findSlot f key = none) (hfree : firstFree m.entries (m.home f key) = some i)
    (hroom : 4 * m.count < 3 * m.capacity) (v : V) :
    Represents hf (m.insertAt i key v) (d.insert (hf.key key) v) := by
  have hdead := firstFree_not_isLive hfree
  have hF := R.findable.insertAt hf habsent hfree v
  have hF' : Findable f (m.setEntry i ⟨some (.block key), some v⟩) := ⟨hF.distinct, hF.reachable⟩
  refine ⟨R.load.insertAt hdead hroom key v, hF, ?_, ?_⟩
  · intro key'
    obtain ⟨hhit, hmiss⟩ := lookup_setEntry hf R.findable hF' key'
    change lookup f (m.setEntry i _) key' = _
    by_cases heq : hf.key key' = hf.key key
    · rw [heq, Finmap.lookup_insert]
      exact hhit (HashEntry.matchesKey_iff.mpr ⟨key, rfl, hf.key_eq_iff.mp heq⟩)
    · rw [Finmap.lookup_insert_of_ne _ heq, ← R.lookup_eq]
      refine hmiss ?_ ?_
      · by_contra h
        obtain ⟨k, hk, hcmp⟩ := HashEntry.matchesKey_iff.mp (Bool.not_eq_false _ ▸ h)
        obtain rfl : key = k := by cases hk; rfl
        exact heq (hf.key_eq_iff.mpr hcmp)
      · by_contra h
        rw [HashEntry.isLive_of_matchesKey (Bool.not_eq_false _ ▸ h)] at hdead
        cases hdead
  · have hnew : hf.key key ∉ d.keys := by
      rw [Finmap.mem_keys, R.mem_iff]
      rintro ⟨j, hj⟩
      rw [habsent] at hj
      cases hj
    have hkeys : (d.insert (hf.key key) v).keys = insert (hf.key key) d.keys := by
      ext q
      rw [Finmap.mem_keys, Finmap.mem_insert, Finset.mem_insert, Finmap.mem_keys]
    rw [hkeys, Finset.card_insert_of_notMem hnew, ← R.count_eq]
    rfl

/-- Replacing the entry of a present key by a tombstone is abstract deletion. -/
theorem Represents.tombstoneAt (R : Represents hf m d) {key : K} {i : Fin m.capacity}
    (hi : m.findSlot f key = some i) :
    Represents hf (m.tombstoneAt i) (d.erase (hf.key key)) := by
  obtain ⟨hgone, hkept⟩ := lookup_tombstoneAt hf R.findable hi
  refine ⟨R.load.tombstoneAt (HashEntry.isLive_of_matchesKey (matchesKey_of_findSlot hi)),
    R.findable.tombstoneAt i, ?_, ?_⟩
  · intro key'
    by_cases heq : hf.key key = hf.key key'
    · rw [hgone key' (hf.key_eq_iff.mp heq), ← heq, Finmap.lookup_erase]
    · rw [hkept key' (fun h => heq (hf.key_eq_iff.mpr h)), R.lookup_eq,
        Finmap.lookup_erase_ne (Ne.symm heq)]
  · have hmem : hf.key key ∈ d.keys := by
      rw [Finmap.mem_keys]
      exact (R.mem_iff key).mpr ⟨i, hi⟩
    rw [Finmap.keys_erase, Finset.card_erase_of_mem hmem, ← R.count_eq]
    rfl

end Represents

/-! ## Calls and runs -/

/-- A call of the map's interface. -/
inductive Op (K V : Type)
  | put (key : K) (value : V)
  | get (key : K)
  | remove (key : K)

/-- What the caller is given: a status, or a value pointer that may be NULL. -/
inductive Answer (V : Type)
  | status (ret : ℤ)
  | value (ptr : Option V)
  deriving DecidableEq

/-- What the caller sees of a call: its answer, the `hash_map_count` after it, and the
`errno` it set. -/
structure Seen (V : Type) where
  answer : Answer V
  count : ℕ
  errno : Option Errno

/-- One call, with the outcome of the allocations it may make. -/
def call (f : Callbacks K) (m : HashMap K V) : Op K V × Allocs → Option (Seen V × HashMap K V)
  | (.put key value, a) => do
      let r ← put f a m (some key) (some value)
      pure (⟨.status r.ret, r.map.hashMapCount, r.errno⟩, r.map)
  | (.get key, _) => do
      let r ← get f m (some key)
      pure (⟨.value r.1, m.hashMapCount, r.2⟩, m)
  | (.remove key, a) => do
      let r ← remove f a m (some key)
      pure (⟨.status r.ret, r.map.hashMapCount, r.errno⟩, r.map)

/-- The same call on the abstract map: its answer and the number of keys after it. -/
def specCall (hf : f.Lawful) (d : Finmap fun _ : hf.Key => V) :
    Op K V × Allocs → (Answer V × ℕ) × Finmap fun _ : hf.Key => V
  | (.put key value, _) =>
      let d' := d.insert (hf.key key) value
      ((.status 0, d'.keys.card), d')
  | (.get key, _) => ((.value (d.lookup (hf.key key)), d.keys.card), d)
  | (.remove key, _) =>
      let d' := d.erase (hf.key key)
      ((.status (if hf.key key ∈ d then 1 else 0), d'.keys.card), d')

theorem call_put {a : Allocs} {key : K} {value : V} {r : Result K V}
    (h : put f a m (some key) (some value) = some r) :
    call f m (.put key value, a) =
      some (⟨.status r.ret, r.map.hashMapCount, r.errno⟩, r.map) := by
  simp [call, h]

theorem call_remove {a : Allocs} {key : K} {r : Result K V}
    (h : remove f a m (some key) = some r) :
    call f m ((.remove key : Op K V), a) =
      some (⟨.status r.ret, r.map.hashMapCount, r.errno⟩, r.map) := by
  simp [call, h]

theorem call_get (m : HashMap K V) (a : Allocs) (key : K) :
    call f m (.get key, a) = some (⟨.value (lookup f m key), m.hashMapCount, none⟩, m) := by
  simp [call, get_eq, lookup]

/-- Every call returns and keeps the load, whichever allocation fails, but for a put whose key
`compare_func` takes for `TOMBSTONE`. -/
theorem call_ends (f : Callbacks K) (H : Load m) (c : Op K V × Allocs) :
    (∃ o m', call f m c = some (o, m') ∧ Load m') ∨
      ∃ key value, c.1 = .put key value ∧ f.compareFunc key .tombstone = 0 ∧
        call f m c = none := by
  obtain ⟨op, a⟩ := c
  cases op with
  | get key => exact .inl ⟨_, m, call_get m a key, H⟩
  | remove key =>
      rcases remove_cases (f := f) a m key with ⟨i, hi, hr⟩ | ⟨-, hr⟩
      · have hlive := HashEntry.isLive_of_matchesKey (matchesKey_of_findSlot hi)
        obtain ⟨r, hshrink, -, hL, -, -⟩ := shrink_spec (f := f) (H.tombstoneAt hlive) a
        exact .inl ⟨_, _, call_remove (hr.trans hshrink), hL⟩
      · exact .inl ⟨_, _, call_remove hr, H⟩
  | put key value =>
      rcases put_cases (f := f) H a key value with ⟨-, hr⟩ | ⟨hgrow, hr⟩
      · exact .inl ⟨_, _, call_put hr, H⟩
      · obtain ⟨hL, -, hroom, -⟩ := grown_spec (f := f) H hgrow
        rcases putEntry_ends f hL a key value with ⟨i, hi, he⟩ | ⟨i, -, hfree, he⟩ | ⟨hcmp, he⟩
        · have hlive := HashEntry.isLive_of_matchesKey (matchesKey_of_findSlot hi)
          exact .inl ⟨_, _, call_put (hr.trans he), hL.setValue hlive value⟩
        · have hdead := firstFree_not_isLive hfree
          rcases putNew_cases a hdead key value with ⟨-, hn⟩ | ⟨-, e, hek, hn⟩
          · exact .inl ⟨_, _, call_put (hr.trans (he.trans (congrArg some hn))),
              hL.insertAt hdead hroom key value⟩
          · exact .inl ⟨_, _, call_put (hr.trans (he.trans (congrArg some hn))),
              hL.clear hdead hek⟩
        · exact .inr ⟨key, value, rfl, hcmp, by simp [call, hr, he]⟩

/-- A call that returns keeps the load, whatever the callbacks answer. -/
theorem call_load (H : Load m) {c : Op K V × Allocs} {o : Seen V}
    (h : call f m c = some (o, m')) : Load m' := by
  rcases call_ends f H c with ⟨o', m'', hcall, H'⟩ | ⟨_, _, -, -, hnone⟩
  · obtain ⟨-, rfl⟩ := Prod.mk.inj (Option.some.inj (hcall.symm.trans h))
    exact H'
  · cases hnone.symm.trans h

/-- Every call returns when `compare_func` skips `TOMBSTONE`. -/
theorem call_returns (hf : f.SkipsTombstone) (H : Load m) (c : Op K V × Allocs) :
    ∃ o m', call f m c = some (o, m') ∧ Load m' := by
  rcases call_ends f H c with hreturns | ⟨key, value, -, hcmp, -⟩
  · exact hreturns
  · exact absurd hcmp (hf key)

/-- A call as a step of the system of all runs. -/
def Step (f : Callbacks K) (m : HashMap K V) (c : Op K V × Allocs) (m' : HashMap K V) : Prop :=
  ∃ o, call f m c = some (o, m')

/-- The maps `hash_map_create` returns. -/
def Created (f : Callbacks K) (m : HashMap K V) : Prop :=
  ∃ keySize valueSize mallocMap a, create keySize valueSize (some f) mallocMap a = some m

theorem Seen.errno_ne {os : List (Seen V)} {n : ℕ} (h : os.map Seen.errno = List.replicate n none) :
    ∀ o ∈ os, o.errno ≠ some .ENOMEM := by
  intro o ho
  have hmem : o.errno ∈ os.map Seen.errno := List.mem_map_of_mem ho
  rw [h] at hmem
  rw [List.eq_of_mem_replicate hmem]
  exact nofun

theorem created_empty : Created f (empty : HashMap K V) := ⟨4, 4, true, ⟨true, true, true⟩, rfl⟩

/-- Calls on the empty map lead to a reachable one. -/
theorem reachable_of_exec {calls : List (Op K V × Allocs)} {os : List (Seen V)}
    (h : Transition.exec (call f) empty calls = some (os, m)) :
    Transition.Reachable (Created f) (Step f) m :=
  Transition.exec_reachable (fun _ _ o _ _ _ hcall => ⟨o, hcall⟩) (.init created_empty) h

/-- Every map reached from a created one keeps the load. -/
theorem load_of_reachable (h : Transition.Reachable (Created f) (Step f) m) : Load m := by
  refine h.invariant Load ?_ ?_
  · rintro s ⟨keySize, valueSize, mallocMap, a, hs⟩
    rw [create_eq_some hs]
    exact Load.empty
  · rintro s c s' H ⟨o, hcall⟩
    exact call_load H hcall

/-! ## Runs in which no allocation fails -/

/-- Every allocation the call can make is granted: the larger table of a put and the blocks of
its entry, the smaller table of a remove. -/
def Grants (m : HashMap K V) : Op K V × Allocs → Prop
  | (.put _ _, a) => ¬ growthFails a m ∧ Allocs.entry a = true
  | (.get _, _) => True
  | (.remove _, a) => a.table m.shrunkCapacity = true

instance Grants.decidable (m : HashMap K V) : ∀ c, Decidable (Grants m c)
  | (.put _ _, _) => inferInstanceAs (Decidable (¬ _ ∧ _))
  | (.get _, _) => inferInstanceAs (Decidable True)
  | (.remove _, a) => inferInstanceAs (Decidable (a.table m.shrunkCapacity = true))

/-- A shrink that is granted its table sets no `errno`. -/
theorem shrink_errno (H : Load m) {a : Allocs} (ha : a.table m.shrunkCapacity = true)
    {r : Result K V} (h : shrink f a m = some r) : r.errno = none := by
  unfold shrink at h
  split_ifs at h with hcond
  · obtain ⟨hshrunk, -, hlive⟩ := H.half hcond.1 hcond.2.2
    rcases resize_cases (f := f) a (hshrunk ▸ hlive : m.liveSlots < m.shrunkCapacity) with
      ⟨hrefused, -⟩ | ⟨-, hc, new, hr, -⟩
    · exact Bool.noConfusion (ha.symm.trans hrefused)
    · rw [hr] at h
      obtain rfl := Option.some.inj h
      rfl
  · obtain rfl := Option.some.inj h
    rfl

/-- **A call whose allocations are granted reports no failed one**, whatever the callbacks
answer. -/
theorem Grants.errno_ne (H : Load m) {c : Op K V × Allocs} (hc : Grants m c) {o : Seen V}
    (h : call f m c = some (o, m')) : o.errno ≠ some .ENOMEM := by
  obtain ⟨op, a⟩ := c
  cases op with
  | get key =>
      rw [call_get] at h
      obtain ⟨rfl, -⟩ := Prod.mk.inj (Option.some.inj h)
      exact nofun
  | remove key =>
      rcases remove_cases (f := f) a m key with ⟨i, hi, hr⟩ | ⟨-, hr⟩
      · have hlive := HashEntry.isLive_of_matchesKey (matchesKey_of_findSlot hi)
        obtain ⟨r, hshrink, -⟩ := shrink_spec (f := f) (H.tombstoneAt hlive) a
        rw [call_remove (hr.trans hshrink)] at h
        obtain ⟨rfl, -⟩ := Prod.mk.inj (Option.some.inj h)
        have hnone : r.errno = none := shrink_errno (H.tombstoneAt hlive) hc hshrink
        change r.errno ≠ _
        rw [hnone]
        exact nofun
      · rw [call_remove hr] at h
        obtain ⟨rfl, -⟩ := Prod.mk.inj (Option.some.inj h)
        exact nofun
  | put key value =>
      obtain ⟨hgrow, hentry⟩ := hc
      rcases put_cases (f := f) H a key value with ⟨hfails, -⟩ | ⟨-, hr⟩
      · exact absurd hfails hgrow
      · obtain ⟨hL, -⟩ := grown_spec (f := f) H hgrow
        rcases putEntry_ends f hL a key value with ⟨i, -, he⟩ | ⟨i, -, hfree, he⟩ | ⟨-, he⟩
        · rw [call_put (hr.trans he)] at h
          obtain ⟨rfl, -⟩ := Prod.mk.inj (Option.some.inj h)
          exact nofun
        · rcases putNew_cases a (firstFree_not_isLive hfree) key value with
            ⟨-, hn⟩ | ⟨hrefused, -⟩
          · rw [call_put (hr.trans (he.trans (congrArg some hn)))] at h
            obtain ⟨rfl, -⟩ := Prod.mk.inj (Option.some.inj h)
            exact nofun
          · exact Bool.noConfusion (hentry.symm.trans hrefused)
        · simp [call, hr, he] at h

/-- So does no call of a run whose allocations are granted. -/
theorem errno_ne_of_grants (H : Load m) {calls : List (Op K V × Allocs)} {os : List (Seen V)}
    (h : Transition.exec (call f) m calls = some (os, m'))
    (hgrants : Transition.Along Grants (call f) m calls) : ∀ o ∈ os, o.errno ≠ some .ENOMEM := by
  induction calls generalizing m os with
  | nil =>
      obtain ⟨rfl, -⟩ := Prod.mk.inj (Option.some.inj h)
      exact nofun
  | cons c calls ih =>
      obtain ⟨o, m₁, os', m₂, hcall, hrest, heq⟩ := Transition.exec_cons_eq_some.mp h
      obtain ⟨rfl, rfl⟩ := Prod.mk.inj heq
      obtain ⟨hc, hgrants'⟩ := (Transition.along_cons hcall).mp hgrants
      intro o' ho'
      rcases List.mem_cons.mp ho' with rfl | ho'
      · exact hc.errno_ne H hcall
      · exact ih (call_load H hcall) hrest hgrants' o' ho'

/-- **A call in which no allocation fails acts as the abstract call does.** -/
theorem call_refines {hf : f.Lawful} {d : Finmap fun _ : hf.Key => V} (R : Represents hf m d)
    {c : Op K V × Allocs} {o : Seen V} (h : call f m c = some (o, m'))
    (hok : o.errno ≠ some .ENOMEM) :
    (o.answer, o.count) = (specCall hf d c).1 ∧ Represents hf m' (specCall hf d c).2 := by
  obtain ⟨op, a⟩ := c
  cases op with
  | get key =>
      rw [call_get] at h
      obtain ⟨rfl, rfl⟩ := Prod.mk.inj (Option.some.inj h)
      exact ⟨Prod.ext (congrArg Answer.value (R.lookup_eq key)) R.count_eq, R⟩
  | remove key =>
      rcases remove_cases (f := f) a m key with ⟨i, hi, hr⟩ | ⟨hmiss, hr⟩
      · have hlive := HashEntry.isLive_of_matchesKey (matchesKey_of_findSlot hi)
        obtain ⟨r, hshrink, hret, hL, hS, hF⟩ :=
          shrink_spec (f := f) (R.load.tombstoneAt hlive) a
        rw [call_remove (hr.trans hshrink)] at h
        obtain ⟨rfl, rfl⟩ := Prod.mk.inj (Option.some.inj h)
        have R' := (R.tombstoneAt hi).sameEntries hS hL (hF (R.findable.tombstoneAt i))
        have hmem : hf.key key ∈ d := (R.mem_iff key).mpr ⟨i, hi⟩
        refine ⟨Prod.ext ?_ R'.count_eq, R'⟩
        simp [specCall, hmem, hret]
      · rw [call_remove hr] at h
        obtain ⟨rfl, rfl⟩ := Prod.mk.inj (Option.some.inj h)
        have hmem : hf.key key ∉ d := by
          rw [R.mem_iff]
          rintro ⟨i, hi⟩
          rw [hmiss] at hi
          cases hi
        have hsame : d.erase (hf.key key) = d := by
          refine Finmap.ext_lookup fun q => ?_
          by_cases hq : q = hf.key key
          · rw [hq, Finmap.lookup_erase, Finmap.lookup_eq_none.mpr hmem]
          · rw [Finmap.lookup_erase_ne hq]
        have R' : Represents hf m (d.erase (hf.key key)) := hsame.symm ▸ R
        refine ⟨Prod.ext ?_ R'.count_eq, R'⟩
        simp [specCall, hmem]
  | put key value =>
      rcases put_cases (f := f) R.load a key value with ⟨-, hr⟩ | ⟨hgrow, hr⟩
      · rw [call_put hr] at h
        obtain ⟨rfl, rfl⟩ := Prod.mk.inj (Option.some.inj h)
        exact absurd rfl hok
      · obtain ⟨hL, hS, hroom, hF⟩ := grown_spec (f := f) R.load hgrow
        have R₁ := R.sameEntries hS hL (hF R.findable)
        rcases putEntry_cases hf.skipsTombstone hL a key value with ⟨i, hi, he⟩ | ⟨i, hi, hfree, he⟩
        · rw [call_put (hr.trans he)] at h
          obtain ⟨rfl, rfl⟩ := Prod.mk.inj (Option.some.inj h)
          have R' := R₁.setValue hi value
          exact ⟨Prod.ext rfl R'.count_eq, R'⟩
        · rcases putNew_cases a (firstFree_not_isLive hfree) key value with
            ⟨-, hn⟩ | ⟨-, e, -, hn⟩
          · rw [call_put (hr.trans (he.trans (congrArg some hn)))] at h
            obtain ⟨rfl, rfl⟩ := Prod.mk.inj (Option.some.inj h)
            have R' := R₁.insertAt hi hfree hroom value
            exact ⟨Prod.ext rfl R'.count_eq, R'⟩
          · rw [call_put (hr.trans (he.trans (congrArg some hn)))] at h
            obtain ⟨rfl, rfl⟩ := Prod.mk.inj (Option.some.inj h)
            exact absurd rfl hok

/-- **The hash map refines a finite map.**  Every sequence of calls on a created map
returns, and if the allocations it makes are granted, each answer and each count is that of
the abstract map. -/
theorem run_refines (hf : f.Lawful) {keySize valueSize : ℕ} {mallocMap : Bool} {a : Allocs}
    (hcreate : create keySize valueSize (some f) mallocMap a = some m)
    (calls : List (Op K V × Allocs)) :
    ∃ os m', Transition.exec (call f) m calls = some (os, m') ∧
      (Transition.Along Grants (call f) m calls →
        os.map (fun o => (o.answer, o.count)) =
          (Transition.specExec (specCall hf) ∅ calls).1 ∧
        m'.hashMapCount = (Transition.specExec (specCall hf) ∅ calls).2.keys.card) := by
  rw [create_eq_some hcreate]
  obtain ⟨os, m', hrun, -⟩ :
      ∃ os m', Transition.exec (call f) (empty : HashMap K V) calls = some (os, m') ∧ Load m' :=
    Transition.exec_total Load (fun _ c H => call_returns hf.skipsTombstone H c) Load.empty calls
  refine ⟨os, m', hrun, fun hgrants => ?_⟩
  obtain ⟨hanswers, R⟩ := Transition.exec_simulates (Represents hf)
    (fun o : Seen V => o.errno ≠ some .ENOMEM) (fun o => (o.answer, o.count)) (specCall hf)
    (fun _ _ _ _ _ R h hgood => call_refines R h hgood) Represents.empty hrun
    (errno_ne_of_grants Load.empty hrun hgrants)
  exact ⟨hanswers, R.count_eq⟩

/-- Thirteen PIDs with one home slot, the last of which doubles the table; the first is removed,
and the last is still found. -/
theorem run_refines_colliding :
    let pid (i : Fin 13) : { pid : BitVec 32 // pid ≠ 0 } :=
      ⟨BitVec.ofNat 32 (16 * (i + 1)), by revert i; decide⟩
    ∃ os m', Transition.exec (call (intCallbacks 0)) empty
        ((List.finRange 13).map (fun i => (.put (pid i) i.val, ⟨true, true, true⟩)) ++
          [(.remove (pid 0), ⟨true, true, true⟩), (.get (pid 0), ⟨true, true, true⟩),
            (.get (pid 12), ⟨true, true, true⟩)]) = some (os, m') ∧
      m'.capacity = 32 ∧ m'.hashMapCount = 12 ∧
      (os.drop 13).map Seen.answer = [.status 1, .value none, .value (some 12)] := by
  intro pid
  let calls : List (Op { pid : BitVec 32 // pid ≠ 0 } ℕ × Allocs) :=
    (List.finRange 13).map (fun i => (.put (pid i) i.val, ⟨true, true, true⟩)) ++
      [(.remove (pid 0), ⟨true, true, true⟩), (.get (pid 0), ⟨true, true, true⟩),
        (.get (pid 12), ⟨true, true, true⟩)]
  have hcreate : create 4 4 (some (intCallbacks 0)) true ⟨true, true, true⟩ =
      some (empty : HashMap { pid : BitVec 32 // pid ≠ 0 } ℕ) := rfl
  obtain ⟨os, m', hrun, h⟩ := run_refines (intCallbacks_lawful 0) hcreate calls
  obtain ⟨hanswers, hcount⟩ := h (by decide +kernel)
  have hcapacity : (Transition.exec (call (intCallbacks 0)) empty calls).map
      (fun r => r.2.capacity) = some 32 := by decide +kernel
  rw [hrun] at hcapacity
  refine ⟨os, m', hrun, Option.some.inj hcapacity, hcount.trans (by decide +kernel), ?_⟩
  have hsplit : (os.drop 13).map Seen.answer =
      ((os.map fun o => (o.answer, o.count)).drop 13).map Prod.fst := by
    rw [← List.map_drop, List.map_map]
    rfl
  rw [hsplit, hanswers]
  decide +kernel

end HashMap
end Ctm
