import Ctm.HashMap.Rehash
import Mathlib.Tactic.Ring

/-!
# The invariants of the hash map

Two invariants, kept apart because they need different things.  `Load` speaks of sizes
and counts; every operation keeps it, whatever the callbacks do and whichever
allocation fails.  `Findable` speaks of probe chains; it needs lawful callbacks and can
be lost when an allocation fails.

Each operation has one inversion theorem saying everything a call can do.

## Main definitions

* `Callbacks.Lawful` — the contract of the two callbacks.
* `Load` — the entry count, the load factor and the table size.
* `Findable` — the stored keys are distinct and each is found from its home slot.
* `grown`, `put_cases`, `remove_cases` — what `put` and `remove` can do.
-/

namespace Ctm

/-- The contract of the callbacks: `compare_func(a, b) == 0` is an equivalence on keys,
equal keys hash equally, and no key equals `TOMBSTONE`.  The hash of `TOMBSTONE` is any
number. -/
structure Callbacks.Lawful {K : Type} (f : Callbacks K) : Prop where
  refl : ∀ a, f.compareFunc a (.block a) = 0
  symm : ∀ {a b}, f.compareFunc a (.block b) = 0 → f.compareFunc b (.block a) = 0
  trans : ∀ {a b c}, f.compareFunc a (.block b) = 0 → f.compareFunc b (.block c) = 0 →
    f.compareFunc a (.block c) = 0
  hash_eq : ∀ {a b}, f.compareFunc a (.block b) = 0 →
    f.hashFunc (.block a) = f.hashFunc (.block b)
  skipsTombstone : f.SkipsTombstone

theorem hashCompareInt_eq_zero_iff {a b : BitVec 32} : hashCompareInt a b = 0 ↔ a = b := by
  unfold hashCompareInt
  split_ifs <;> simp_all

/-- The integer callbacks keep the contract. -/
theorem intCallbacks_lawful (junk : BitVec 32) : (intCallbacks junk).Lawful where
  refl _ := hashCompareInt_eq_zero_iff.mpr rfl
  symm h := hashCompareInt_eq_zero_iff.mpr (hashCompareInt_eq_zero_iff.mp h).symm
  trans h h' := hashCompareInt_eq_zero_iff.mpr
    ((hashCompareInt_eq_zero_iff.mp h).trans (hashCompareInt_eq_zero_iff.mp h'))
  hash_eq h := congrArg (fun pid => (hashInt pid).toNat) (hashCompareInt_eq_zero_iff.mp h)
  skipsTombstone a h := a.property (hashCompareInt_eq_zero_iff.mp h)

namespace HashMap
variable {K V : Type} {f : Callbacks K} {m : HashMap K V}

/-- The number of live slots. -/
def liveSlots (m : HashMap K V) : ℕ := Probe.countSlots HashEntry.isLive m.entries

/-! ## Load -/

/-- `count` is the number of live slots, which alone of the occupied ones have a value; at
most three quarters of the table is live; its size is the minimum times a power of two, within
`size_t`. -/
structure Load (m : HashMap K V) : Prop where
  count_eq : m.count = m.liveSlots
  valued : Valued m.entries
  load_le : 4 * m.count ≤ 3 * m.capacity
  capacity_eq : ∃ j, m.capacity = minimumCapacity * 2 ^ j
  bytes_lt : m.capacity * sizeofHashEntry < sizeMod

theorem Load.empty : Load (empty : HashMap K V) where
  count_eq := (Probe.countSlots_const HashEntry.isLive_null).symm
  valued := ⟨fun _ _ hk => (by cases hk), fun _ hk => (by cases hk)⟩
  load_le := by simp [HashMap.empty]
  capacity_eq := ⟨0, by simp [HashMap.empty]⟩
  bytes_lt := by change minimumCapacity * sizeofHashEntry < sizeMod; decide

theorem Load.four_dvd (H : Load m) : 4 ∣ m.capacity := by
  obtain ⟨j, hj⟩ := H.capacity_eq
  rw [hj]
  exact Dvd.dvd.mul_right (by decide) _

theorem Load.le_capacity (H : Load m) : minimumCapacity ≤ m.capacity := by
  obtain ⟨j, hj⟩ := H.capacity_eq
  rw [hj]
  exact Nat.le_mul_of_pos_right _ (Nat.two_pow_pos j)

/-- There is always a slot that is not live. -/
theorem Load.liveSlots_lt (H : Load m) : m.liveSlots < m.capacity := by
  have hpos := m.capacity_pos
  have hle := H.load_le
  rw [← H.count_eq]
  omega

/-- The doubled capacity does not wrap. -/
theorem Load.double_mod (H : Load m) : m.capacity * 2 % sizeMod = m.capacity * 2 := by
  have hlt := H.bytes_lt
  simp only [sizeofHashEntry, sizeMod] at hlt ⊢
  exact Nat.mod_eq_of_lt (by omega)

/-- Overwriting the value of a live entry keeps the load. -/
theorem Load.setValue (H : Load m) {i : Fin m.capacity} (hi : (m.entries i).isLive) (v : V) :
    Load (m.setEntry i { m.entries i with value := some v }) where
  count_eq := by
    have hsame : HashEntry.isLive { m.entries i with value := some v } =
        (m.entries i).isLive := rfl
    exact H.count_eq.trans (Probe.countSlots_update_same hsame).symm
  valued := by
    refine H.valued.update (fun _ _ => ⟨v, rfl⟩) ?_
    intro (htomb : (m.entries i).key = some .tombstone)
    obtain ⟨k, hk⟩ := HashEntry.isLive_iff.mp hi
    cases hk.symm.trans htomb
  load_le := H.load_le
  capacity_eq := H.capacity_eq
  bytes_lt := H.bytes_lt

/-- Writing a new entry to a slot that is not live, when the load test allows one more. -/
theorem Load.insertAt (H : Load m) {i : Fin m.capacity} (hi : (m.entries i).isLive = false)
    (hroom : 4 * m.count < 3 * m.capacity) (k : K) (v : V) : Load (m.insertAt i k v) where
  count_eq := by
    have hadd : (m.insertAt i k v).liveSlots = m.liveSlots + 1 :=
      Probe.countSlots_update_add rfl hi
    rw [hadd, ← H.count_eq]
    rfl
  valued := H.valued.update (fun _ _ => ⟨v, rfl⟩) fun htomb => by cases htomb
  load_le := by
    obtain ⟨q, hq⟩ := H.four_dvd
    change 4 * (m.count + 1) ≤ 3 * m.capacity
    omega
  capacity_eq := H.capacity_eq
  bytes_lt := H.bytes_lt

/-- Writing a NULL key to a slot that is not live. -/
theorem Load.clear (H : Load m) {i : Fin m.capacity} (hi : (m.entries i).isLive = false)
    {e : HashEntry K V} (he : e.key = none) : Load (m.setEntry i e) where
  count_eq := by
    have hdead : e.isLive = (m.entries i).isLive := by rw [hi]; simp [HashEntry.isLive, he]
    exact H.count_eq.trans (Probe.countSlots_update_same hdead).symm
  valued := H.valued.update (fun k hk => by rw [he] at hk; cases hk)
    fun htomb => by rw [he] at htomb; cases htomb
  load_le := H.load_le
  capacity_eq := H.capacity_eq
  bytes_lt := H.bytes_lt

/-- Replacing a live entry by a tombstone. -/
theorem Load.tombstoneAt (H : Load m) {i : Fin m.capacity} (hi : (m.entries i).isLive) :
    Load (m.tombstoneAt i) where
  count_eq := by
    have hsub : (m.tombstoneAt i).liveSlots + 1 = m.liveSlots :=
      Probe.countSlots_update_sub rfl hi
    change m.count - 1 = _
    rw [H.count_eq]
    omega
  valued := H.valued.update (fun k hk => by cases hk) fun _ => rfl
  load_le := by
    have hle := H.load_le
    change 4 * (m.count - 1) ≤ 3 * m.capacity
    omega
  capacity_eq := H.capacity_eq
  bytes_lt := H.bytes_lt

/-- A finished rehash into a table of admissible size. -/
theorem Load.rehashed (H : Load m) {c : ℕ} {hc : 0 < c} {new : Fin c → HashEntry K V}
    (R : RehashInv f m hc (List.finRange m.capacity) new) (hload : 4 * m.count ≤ 3 * c)
    (hcap : ∃ j, c = minimumCapacity * 2 ^ j) (hbytes : c * sizeofHashEntry < sizeMod) :
    Load (⟨c, hc, new, m.count⟩ : HashMap K V) where
  count_eq := H.count_eq.trans R.count_eq.symm
  valued := by
    constructor
    · intro j k hk
      obtain ⟨i, -, hij⟩ := R.origin j (by rw [HashEntry.isOccupied, hk]; rfl)
      obtain ⟨v, hv⟩ := H.valued.block i k (by rw [hij]; exact hk)
      exact ⟨v, by rw [← hv, hij]⟩
    · intro j hk
      obtain ⟨i, -, hij⟩ := R.origin j (by rw [HashEntry.isOccupied, hk]; rfl)
      exact (congrArg HashEntry.value hij).symm.trans
        (H.valued.tombstone i (by rw [hij]; exact hk))
  load_le := hload
  capacity_eq := hcap
  bytes_lt := hbytes

/-! ## Findable -/

/-- The stored keys are pairwise different and every one is found from its home slot. -/
structure Findable (f : Callbacks K) (m : HashMap K V) : Prop where
  distinct : DistinctKeys f m.entries
  reachable : Reachable f m.capacity_pos m.entries

theorem Findable.empty : Findable f (empty : HashMap K V) where
  distinct := by intro i j a b ha; simp [HashMap.empty, HashEntry.null] at ha
  reachable := by intro i k hk; simp [HashMap.empty, HashEntry.null] at hk

theorem Findable.rehashed (hdist : DistinctKeys f m.entries) {c : ℕ} {hc : 0 < c}
    {new : Fin c → HashEntry K V} {count : ℕ}
    (R : RehashInv f m hc (List.finRange m.capacity) new) :
    Findable f (⟨c, hc, new, count⟩ : HashMap K V) :=
  ⟨R.distinct hdist, R.reachable⟩

/-- The search finds the one slot whose key compares equal. -/
theorem Findable.findSlot_eq_some_iff (hf : f.Lawful) (H : Findable f m) {key : K}
    {i : Fin m.capacity} :
    m.findSlot f key = some i ↔ (m.entries i).matchesKey f key := by
  constructor
  · exact matchesKey_of_findSlot
  · intro hi
    obtain ⟨k, hk, hcmp⟩ := HashEntry.matchesKey_iff.mp hi
    have hchain : Probe.Chain HashEntry.isOccupied m.entries (m.home f key) i := by
      rw [home, hf.hash_eq hcmp]
      exact H.reachable i k hk
    have huniq : ∀ j, (m.entries j).matchesKey f key → j = i := by
      intro j hj
      obtain ⟨k', hk', hcmp'⟩ := HashEntry.matchesKey_iff.mp hj
      exact H.distinct j i k' k hk' hk (hf.trans (hf.symm hcmp') hcmp)
    have hhit : Probe.firstHit (m.stopsAt f key) (m.home f key) = some i :=
      hchain.firstHit (p := fun j => (m.entries j).matchesKey f key) hi huniq
    simp [findSlot, hhit, Option.filter, hi]

theorem Findable.findSlot_eq_none_iff (hf : f.Lawful) (H : Findable f m) {key : K} :
    m.findSlot f key = none ↔ ∀ i, (m.entries i).matchesKey f key = false := by
  constructor
  · intro h i
    by_contra hi
    rw [(H.findSlot_eq_some_iff hf).mpr (by simpa using hi)] at h
    cases h
  · intro h
    cases hs : m.findSlot f key with
    | none => rfl
    | some i => have := matchesKey_of_findSlot hs; simp [h i] at this

theorem Findable.setValue (H : Findable f m) {i : Fin m.capacity} (hi : (m.entries i).isLive)
    (v : V) : Findable f (m.setEntry i { m.entries i with value := some v }) where
  distinct := H.distinct.update fun k hk j hj k' hk' =>
    ⟨fun h => hj (H.distinct i j k k' hk hk' h).symm, fun h => hj (H.distinct j i k' k hk' hk h)⟩
  reachable := H.reachable.update (HashEntry.isOccupied_of_isLive hi)
    fun k hk => H.reachable i k hk

theorem Findable.tombstoneAt (H : Findable f m) (i : Fin m.capacity) :
    Findable f (m.tombstoneAt i) where
  distinct := H.distinct.update fun k hk => by cases hk
  reachable := H.reachable.update rfl fun k hk => by cases hk

/-- A new key goes to the first slot of its walk that is not live. -/
theorem Findable.insertAt (hf : f.Lawful) (H : Findable f m) {key : K} {i : Fin m.capacity}
    (habsent : m.findSlot f key = none) (hfree : firstFree m.entries (m.home f key) = some i)
    (v : V) : Findable f (m.insertAt i key v) where
  distinct := by
    refine H.distinct.update ?_
    intro k hk j _ k' hk'
    obtain rfl : key = k := by cases hk; rfl
    have hmiss := (H.findSlot_eq_none_iff hf).mp habsent j
    have hne : f.compareFunc key (.block k') ≠ 0 := by
      intro h
      rw [HashEntry.matchesKey_iff.mpr ⟨k', hk', h⟩] at hmiss
      cases hmiss
    exact ⟨hne, fun h => hne (hf.symm h)⟩
  reachable := by
    refine H.reachable.update rfl ?_
    intro k hk
    obtain rfl : key = k := by cases hk; rfl
    exact firstFree_chain hfree

/-- Clearing slot `i` keeps every walk unbroken when no walk to a stored key passes it. -/
theorem Findable.clear (H : Findable f m) {i : Fin m.capacity} {e : HashEntry K V}
    (he : e.key = none) (hpath : ∀ j k, (m.entries j).key = some (.block k) →
      ¬ Probe.OnPath (m.home f k) j i) : Findable f (m.setEntry i e) where
  distinct := H.distinct.update fun k hk => by rw [he] at hk; cases hk
  reachable := H.reachable.clear he hpath

/-! ## What a call can do -/

/-- The same entries are live, wherever they are stored. -/
structure SameEntries (m m' : HashMap K V) : Prop where
  count : m'.count = m.count
  entries : ∀ e : HashEntry K V, e.isLive → ((∃ j, m'.entries j = e) ↔ ∃ i, m.entries i = e)

theorem SameEntries.refl (m : HashMap K V) : SameEntries m m := ⟨rfl, fun _ _ => Iff.rfl⟩

/-- The table the probing loop of `put` scans: the doubled one if the load test asks for
it and the allocation succeeds. -/
def grown (f : Callbacks K) (a : Allocs) (m : HashMap K V) : HashMap K V :=
  if 3 * m.capacity ≤ 4 * m.count then
    match resize f a m (m.capacity * 2 % sizeMod) with
    | some r => r.map
    | none => m
  else m

/-- The load test asks for a larger table and the allocator refuses it. -/
def growthFails (a : Allocs) (m : HashMap K V) : Prop :=
  3 * m.capacity ≤ 4 * m.count ∧ a.table (m.capacity * 2) = false

instance (a : Allocs) (m : HashMap K V) : Decidable (growthFails a m) :=
  inferInstanceAs (Decidable (_ ∧ _))

/-- Growing keeps the entries and both invariants, and makes room for one more. -/
theorem grown_spec (H : Load m) {a : Allocs} (hgrow : ¬ growthFails a m) :
    Load (m.grown f a) ∧ SameEntries m (m.grown f a) ∧
      4 * (m.grown f a).count < 3 * (m.grown f a).capacity ∧
      (Findable f m → Findable f (m.grown f a)) := by
  unfold grown
  by_cases hload : 3 * m.capacity ≤ 4 * m.count
  · rw [if_pos hload, H.double_mod]
    have hlt : m.liveSlots < m.capacity * 2 := by have := H.liveSlots_lt; omega
    rcases resize_cases (f := f) a hlt with ⟨ha, -⟩ | ⟨ha, hc, new, hr, R⟩
    · exact absurd ⟨hload, ha⟩ hgrow
    · simp only [hr]
      have hle := H.load_le
      have hmin := H.le_capacity
      obtain ⟨j, hj⟩ := H.capacity_eq
      have hbytes : m.capacity * 2 * sizeofHashEntry < sizeMod := by
        simpa [Allocs.table] using (Bool.and_eq_true_iff.mp ha).2
      refine ⟨H.rehashed R (by omega) ⟨j + 1, ?_⟩ hbytes, ⟨rfl, fun e he => R.entries_iff he⟩,
        ?_, fun hF => Findable.rehashed hF.distinct R⟩
      · rw [hj, pow_succ, Nat.mul_assoc]
      · simp only [minimumCapacity] at hmin
        omega
  · rw [if_neg hload]
    exact ⟨H, SameEntries.refl m, by omega, id⟩

/-- `hash_map_put` after the load test updates the slot the search finds, takes the first slot
of the walk that is not live, or has no result: it writes through the NULL value of a tombstone
taken for the key. -/
theorem putEntry_ends (f : Callbacks K) (H : Load m) (a : Allocs) (key : K) (value : V) :
    (∃ i, m.findSlot f key = some i ∧ putEntry f a m key value =
      some ⟨0, none, m.setEntry i { m.entries i with value := some value }⟩) ∨
    (∃ i, m.findSlot f key = none ∧ firstFree m.entries (m.home f key) = some i ∧
      putEntry f a m key value = some (putNew a m i key value)) ∨
    (f.compareFunc key .tombstone = 0 ∧ putEntry f a m key value = none) := by
  obtain ⟨r, hr, hends⟩ := putLoop_ends f m key
  unfold putEntry
  cases r with
  | found i =>
      rcases hends with hagrees | hmistakes
      · obtain ⟨k, hk, -⟩ := HashEntry.matchesKey_iff.mp (matchesKey_of_findSlot hagrees)
        obtain ⟨v, hv⟩ := H.valued.block i k hk
        exact .inl ⟨i, hagrees, by simp [hr, hv]⟩
      · exact .inr (.inr ⟨hmistakes.2, by simp [hr, H.valued.tombstone i hmistakes.1]⟩)
  | absent i ft =>
      obtain ⟨hnone, hslot⟩ := hends.resolve_right id
      obtain ⟨j, hj⟩ := firstFree_isSome H.liveSlots_lt (m.home f key)
      refine .inr (.inl ⟨j, hnone, hj, ?_⟩)
      rw [hj, Option.getD_some] at hslot
      simp [hr, hslot]

/-- `hash_map_put` after the load test updates the slot the search finds, or takes the first
slot of the walk that is not live. -/
theorem putEntry_cases (hf : f.SkipsTombstone) (H : Load m) (a : Allocs) (key : K) (value : V) :
    (∃ i, m.findSlot f key = some i ∧ putEntry f a m key value =
      some ⟨0, none, m.setEntry i { m.entries i with value := some value }⟩) ∨
    (∃ i, m.findSlot f key = none ∧ firstFree m.entries (m.home f key) = some i ∧
      putEntry f a m key value = some (putNew a m i key value)) := by
  rcases putEntry_ends f H a key value with hfound | habsent | ⟨hcmp, -⟩
  · exact .inl hfound
  · exact .inr habsent
  · exact absurd hcmp (hf key)

/-- Both blocks of a new entry are allocated. -/
def Allocs.entry (a : Allocs) : Bool := a.mallocKey && a.mallocValue

/-- A new entry is written, or a failed allocation leaves a NULL key in its slot. -/
theorem putNew_cases (a : Allocs) {i : Fin m.capacity} (hi : (m.entries i).isLive = false)
    (key : K) (value : V) :
    (Allocs.entry a = true ∧ putNew a m i key value = ⟨0, none, m.insertAt i key value⟩) ∨
    (Allocs.entry a = false ∧ ∃ e : HashEntry K V, e.key = none ∧
      putNew a m i key value = ⟨-1, some .ENOMEM, m.setEntry i e⟩) := by
  unfold putNew Allocs.entry
  cases hk : a.mallocKey with
  | false => exact .inr ⟨rfl, { m.entries i with key := none }, rfl, by simp [hi]⟩
  | true =>
      cases hv : a.mallocValue with
      | false => exact .inr ⟨rfl, ⟨none, none⟩, rfl, by simp [hi]⟩
      | true => exact .inl ⟨rfl, by simp⟩

/-- **Everything `hash_map_put` can do** with non-NULL arguments. -/
theorem put_cases (H : Load m) (a : Allocs) (key : K) (value : V) :
    (growthFails a m ∧ put f a m (some key) (some value) = some ⟨-1, some .ENOMEM, m⟩) ∨
    (¬ growthFails a m ∧
      put f a m (some key) (some value) = putEntry f a (m.grown f a) key value) := by
  by_cases hload : 3 * m.capacity ≤ 4 * m.count
  · have hlt : m.liveSlots < m.capacity * 2 := by have := H.liveSlots_lt; omega
    simp only [put, H.double_mod, growthFails, grown, hload, if_true, true_and]
    rcases resize_cases (f := f) a hlt with ⟨ha, hr⟩ | ⟨ha, hc, new, hr, -⟩
    · exact .inl ⟨ha, by simp [hr]⟩
    · exact .inr ⟨by simp [ha], by simp [hr]⟩
  · refine .inr ⟨fun h => hload h.1, ?_⟩
    simp [put, grown, hload]

/-- A table larger than the minimum shrinks to half its size, which its entries fit when it
is sparse. -/
theorem Load.half (H : Load m) (hmin : minimumCapacity < m.capacity)
    (hsparse : 4 * m.count ≤ m.capacity) :
    m.shrunkCapacity = m.capacity / 2 ∧ (∃ j, m.capacity / 2 = minimumCapacity * 2 ^ j) ∧
      m.liveSlots < m.capacity / 2 := by
  obtain ⟨j, hj⟩ := H.capacity_eq
  have hpow : ∃ j', j = j' + 1 := by
    cases j with
    | zero => simp [hj] at hmin
    | succ j' => exact ⟨j', rfl⟩
  obtain ⟨j', rfl⟩ := hpow
  have hhalf : m.capacity / 2 = minimumCapacity * 2 ^ j' := by
    rw [hj, pow_succ, ← Nat.mul_assoc, Nat.mul_div_cancel _ (by decide)]
  refine ⟨?_, ⟨j', hhalf⟩, ?_⟩
  · rw [shrunkCapacity, if_neg]
    rw [hhalf, not_lt]
    exact Nat.le_mul_of_pos_right _ (Nat.two_pow_pos j')
  · rw [← H.count_eq]
    simp only [minimumCapacity] at hmin
    omega

/-- The shrink at the end of `hash_map_remove` returns 1 and keeps the entries and both
invariants; it sets `errno` exactly when its allocation fails. -/
theorem shrink_spec (H : Load m) (a : Allocs) :
    ∃ r, shrink f a m = some r ∧ r.ret = 1 ∧ Load r.map ∧ SameEntries m r.map ∧
      (Findable f m → Findable f r.map) := by
  unfold shrink
  split_ifs with hcond
  · obtain ⟨hmin, -, hsparse⟩ := hcond
    obtain ⟨hshrunk, ⟨j', hhalf⟩, hlive⟩ := H.half hmin hsparse
    have hpos := m.capacity_pos
    rw [hshrunk]
    rcases resize_cases (f := f) a hlive with ⟨-, hr⟩ | ⟨-, hc, new, hr, R⟩
    · exact ⟨_, by rw [hr]; rfl, rfl, H, SameEntries.refl m, id⟩
    · have hbytes : m.capacity / 2 * sizeofHashEntry < sizeMod :=
        lt_of_le_of_lt (Nat.mul_le_mul_right _ (Nat.div_le_self _ _)) H.bytes_lt
      refine ⟨_, by rw [hr]; rfl, rfl, H.rehashed R (by omega) ⟨j', hhalf⟩ hbytes,
        ⟨rfl, fun e he => R.entries_iff he⟩, fun hF => Findable.rehashed hF.distinct R⟩
  · exact ⟨_, rfl, rfl, H, SameEntries.refl m, id⟩

/-- **Everything `hash_map_remove` can do** with a non-NULL key. -/
theorem remove_cases (a : Allocs) (m : HashMap K V) (key : K) :
    (∃ i, m.findSlot f key = some i ∧
      remove f a m (some key) = shrink f a (m.tombstoneAt i)) ∨
    (m.findSlot f key = none ∧ remove f a m (some key) = some ⟨0, none, m⟩) := by
  simp only [remove, find_eq]
  cases m.findSlot f key with
  | some i => exact .inl ⟨i, rfl, rfl⟩
  | none => exact .inr ⟨rfl, rfl⟩

/-- `hash_map_get` reads the slot the search finds. -/
theorem get_eq (m : HashMap K V) (key : K) :
    get f m (some key) = some ((m.findSlot f key).bind fun i => (m.entries i).value, none) := by
  simp only [get, find_eq]
  cases m.findSlot f key <;> rfl

end HashMap
end Ctm
