import Ctm.HashMap.Probing
import Ctm.Lib.Loop
import Mathlib.Data.Fintype.Basic

/-!
# Rehashing

`hash_map_resize` moves every non-NULL entry of a table into a fresh one, tombstones
included.  The loop invariant `RehashInv` speaks of the slots already moved; it holds
whatever the arrangement of the old table, and its conclusions at the end of the loop
are what the other modules use.

## Main definitions

* `DistinctKeys`, `Reachable`, `Valued` — no key is stored twice; every stored key is found
  from its home slot; every stored key has a value, and a tombstone none.
* `RehashInv` — the invariant of the loop over the old slots.
* `rehash_prefix`, `rehash_spec` — the loop ends when the live entries fit, with the
  invariant.
-/

namespace Ctm
namespace HashMap
variable {K V : Type} {c : ℕ}

/-- No two slots hold keys that compare equal. -/
def DistinctKeys (f : Callbacks K) (entries : Fin c → HashEntry K V) : Prop :=
  ∀ i j a b, (entries i).key = some (.block a) → (entries j).key = some (.block b) →
    f.compareFunc a (.block b) = 0 → i = j

/-- The walk from the home slot of every stored key meets no NULL before its slot. -/
def Reachable (f : Callbacks K) (hc : 0 < c) (entries : Fin c → HashEntry K V) : Prop :=
  ∀ i k, (entries i).key = some (.block k) →
    Probe.Chain HashEntry.isOccupied entries (slotOf hc (f.hashFunc (.block k))) i

/-- Every stored key has a value, and a tombstone none. -/
structure Valued (entries : Fin c → HashEntry K V) : Prop where
  block : ∀ i k, (entries i).key = some (.block k) → ∃ v, (entries i).value = some v
  tombstone : ∀ i, (entries i).key = some .tombstone → (entries i).value = none

variable {f : Callbacks K} {m : HashMap K V} {hc : 0 < c}

section Update
variable {T : Fin c → HashEntry K V} {i : Fin c} {e : HashEntry K V}

/-- The keys of an overwritten table. -/
private theorem key_update {j : Fin c} {p : KeyPtr K}
    (h : (Function.update T i e j).key = some p) :
    (j = i ∧ e.key = some p) ∨ (j ≠ i ∧ (T j).key = some p) := by
  by_cases hj : j = i
  · subst hj
    rw [Function.update_self] at h
    exact .inl ⟨rfl, h⟩
  · rw [Function.update_of_ne hj] at h
    exact .inr ⟨hj, h⟩

theorem Valued.update (H : Valued T)
    (he : ∀ k, e.key = some (.block k) → ∃ v, e.value = some v)
    (he' : e.key = some .tombstone → e.value = none) :
    Valued (Function.update T i e) := by
  constructor
  · intro j k hk
    rcases key_update hk with ⟨rfl, hk'⟩ | ⟨hj, hk'⟩
    · rw [Function.update_self]
      exact he k hk'
    · rw [Function.update_of_ne hj]
      exact H.block j k hk'
  · intro j hk
    rcases key_update hk with ⟨rfl, hk'⟩ | ⟨hj, hk'⟩
    · rw [Function.update_self]
      exact he' hk'
    · rw [Function.update_of_ne hj]
      exact H.tombstone j hk'

/-- The entry written must differ from the keys of the other slots. -/
theorem DistinctKeys.update (H : DistinctKeys f T)
    (he : ∀ k, e.key = some (.block k) → ∀ j, j ≠ i → ∀ k', (T j).key = some (.block k') →
      f.compareFunc k (.block k') ≠ 0 ∧ f.compareFunc k' (.block k) ≠ 0) :
    DistinctKeys f (Function.update T i e) := by
  intro j j' a b ha hb hab
  rcases key_update ha with ⟨rfl, ha'⟩ | ⟨hj, ha'⟩ <;>
    rcases key_update hb with ⟨rfl, hb'⟩ | ⟨hj', hb'⟩
  · rfl
  · exact absurd hab (he a ha' j' hj' b hb').1
  · exact absurd hab (he b hb' j hj a ha').2
  · exact H j j' a b ha' hb' hab

/-- The entry written must fill its slot, and end an unbroken walk if it is live. -/
theorem Reachable.update (H : Reachable f hc T) (hocc : e.isOccupied)
    (he : ∀ k, e.key = some (.block k) →
      Probe.Chain HashEntry.isOccupied T (slotOf hc (f.hashFunc (.block k))) i) :
    Reachable f hc (Function.update T i e) := by
  intro j k hk
  rcases key_update hk with ⟨rfl, hk'⟩ | ⟨-, hk'⟩
  · exact (he k hk').update hocc
  · exact (H j k hk').update hocc

/-- Clearing slot `i` keeps every walk unbroken when no walk to a stored key passes it. -/
theorem Reachable.clear (H : Reachable f hc T) (he : e.key = none)
    (hpath : ∀ j k, (T j).key = some (.block k) →
      ¬ Probe.OnPath (slotOf hc (f.hashFunc (.block k))) j i) :
    Reachable f hc (Function.update T i e) := by
  intro j k hk
  rcases key_update hk with ⟨rfl, hk'⟩ | ⟨-, hk'⟩
  · simp [he] at hk'
  · exact (H j k hk').update_of_not_onPath (hpath j k hk') e

end Update

/-- What holds of the new table `new` once the slots in `done` have been moved. -/
structure RehashInv (f : Callbacks K) (m : HashMap K V) (hc : 0 < c)
    (done : List (Fin m.capacity)) (new : Fin c → HashEntry K V) : Prop where
  count : Probe.countSlots HashEntry.isLive new =
    (done.toFinset.filter fun i => (m.entries i).isLive).card
  moved : ∀ i ∈ done, (m.entries i).isLive → ∃ j, new j = m.entries i
  origin : ∀ j, (new j).isOccupied → ∃ i ∈ done, m.entries i = new j
  reachable : Reachable f hc new
  distinct : DistinctKeys f m.entries → DistinctKeys f new

theorem RehashInv.nil : RehashInv f m hc [] (fun _ => .null) where
  count := by rw [Probe.countSlots_const HashEntry.isLive_null]; simp
  moved := by intro i hi; simp at hi
  origin := by intro j hj; cases hj
  reachable := by intro i k hk; simp [HashEntry.null] at hk
  distinct := by intro _ i j a b ha; simp [HashEntry.null] at ha

/-- A NULL slot is skipped. -/
theorem RehashInv.skip {done : List (Fin m.capacity)} {new : Fin c → HashEntry K V}
    (H : RehashInv f m hc done new) {x : Fin m.capacity} (hx : (m.entries x).key = none) :
    RehashInv f m hc (done ++ [x]) new := by
  have hdead : (m.entries x).isLive = false := by simp [HashEntry.isLive, hx]
  refine ⟨?_, ?_, ?_, H.reachable, H.distinct⟩
  · rw [H.count]
    congr 1
    ext i
    simp only [Finset.mem_filter, List.mem_toFinset, List.mem_append, List.mem_singleton]
    constructor
    · rintro ⟨hi, hl⟩; exact ⟨.inl hi, hl⟩
    · rintro ⟨hi | rfl, hl⟩
      · exact ⟨hi, hl⟩
      · simp [hdead] at hl
  · intro i hi hl
    rcases List.mem_append.mp hi with hi | hi
    · exact H.moved i hi hl
    · rw [List.mem_singleton.mp hi, hdead] at hl
      cases hl
  · intro j hj
    obtain ⟨i, hi, hij⟩ := H.origin j hj
    exact ⟨i, by simp [hi], hij⟩

/-- An occupied slot is moved to a slot that is not live and ends an unbroken walk. -/
theorem RehashInv.move {done : List (Fin m.capacity)} {new : Fin c → HashEntry K V}
    (H : RehashInv f m hc done new) {x : Fin m.capacity} (hx : x ∉ done) {key : KeyPtr K}
    (hkey : (m.entries x).key = some key) {index : Fin c}
    (hfree : firstFree new (slotOf hc (f.hashFunc key)) = some index) :
    RehashInv f m hc (done ++ [x]) (Function.update new index (m.entries x)) := by
  have hdead := firstFree_not_isLive hfree
  have hocc : (m.entries x).isOccupied := by simp [HashEntry.isOccupied, hkey]
  have hset : (done ++ [x]).toFinset = insert x done.toFinset := by
    ext i; simp
  -- Nothing live is overwritten, so an old entry moved before is still in its slot.
  have hkeep : ∀ j, (new j).isLive → Function.update new index (m.entries x) j = new j := by
    intro j hj
    refine Function.update_of_ne ?_ _ _
    rintro rfl
    simp [hdead] at hj
  refine ⟨?_, ?_, ?_, ?_, ?_⟩
  · rw [hset, Finset.filter_insert]
    by_cases hl : (m.entries x).isLive
    · rw [if_pos hl, Finset.card_insert_of_notMem (by simp [hx]), ← H.count]
      exact Probe.countSlots_update_add hl hdead
    · rw [if_neg hl, ← H.count]
      exact Probe.countSlots_update_same (by rw [hdead]; simpa using hl)
  · intro i hi hl
    rcases List.mem_append.mp hi with hi | hi
    · obtain ⟨j, hj⟩ := H.moved i hi hl
      exact ⟨j, by rw [hkeep j (by rw [hj]; exact hl), hj]⟩
    · rw [List.mem_singleton.mp hi]
      exact ⟨index, by simp⟩
  · intro j hj
    by_cases hji : j = index
    · subst hji; exact ⟨x, by simp, by simp⟩
    · rw [Function.update_of_ne hji] at hj ⊢
      obtain ⟨i, hi, hij⟩ := H.origin j hj
      exact ⟨i, by simp [hi], hij⟩
  · refine H.reachable.update hocc ?_
    intro k hk
    obtain rfl : key = .block k := Option.some.inj (hkey.symm.trans hk)
    exact firstFree_chain hfree
  · intro hdist
    refine (H.distinct hdist).update ?_
    -- Any other key of the new table was moved from a slot other than `x`.
    intro k hk j _ k' hk'
    obtain ⟨i, hi, hij⟩ := H.origin j (by simp [HashEntry.isOccupied, hk'])
    have hik : (m.entries i).key = some (.block k') := by rw [hij, hk']
    refine ⟨fun h => hx ?_, fun h => hx ?_⟩
    · rw [hdist x i k k' hk hik h]; exact hi
    · rw [← hdist i x k' k hik hk h]; exact hi

/-- Until every slot is moved, a table larger than the number of live entries has a slot
that is not live. -/
theorem RehashInv.countSlots_lt {done : List (Fin m.capacity)} {new : Fin c → HashEntry K V}
    (H : RehashInv f m hc done new)
    (hlt : Probe.countSlots HashEntry.isLive m.entries < c) :
    Probe.countSlots HashEntry.isLive new < c := by
  rw [H.count]
  refine lt_of_le_of_lt (Finset.card_le_card ?_) hlt
  exact Finset.filter_subset_filter _ (Finset.subset_univ _)

/-- The loop over some of the old slots ends when the live entries fit the new table. -/
theorem rehash_prefix (hc : 0 < c) (hlt : Probe.countSlots HashEntry.isLive m.entries < c)
    {done : List (Fin m.capacity)} (hdone : done.Nodup) :
    ∃ new, done.foldlM (fun new i => rehashEntry f hc new (m.entries i)) (fun _ => .null) =
      some new ∧ RehashInv f m hc done new := by
  refine Loop.foldlM_invariant (RehashInv f m hc) hdone RehashInv.nil ?_
  intro done x new _ hx H
  rw [rehashEntry]
  cases hkey : (m.entries x).key with
  | none => exact ⟨new, rfl, H.skip hkey⟩
  | some key =>
      obtain ⟨index, hfree⟩ :=
        firstFree_isSome (H.countSlots_lt hlt) (slotOf hc (f.hashFunc key))
      have heq : (⟨some key, (m.entries x).value⟩ : HashEntry K V) = m.entries x := by
        rw [← hkey]
      refine ⟨_, ?_, H.move hx hkey hfree⟩
      simp [freeSlot_eq_firstFree, hfree, heq]

/-- **The rehash loop ends** when the live entries fit the new table, and moves exactly
them. -/
theorem rehash_spec (hc : 0 < c) (hlt : Probe.countSlots HashEntry.isLive m.entries < c) :
    ∃ new, rehash f m hc = some new ∧ RehashInv f m hc (List.finRange m.capacity) new :=
  rehash_prefix hc hlt (List.nodup_finRange _)

/-- The loop moves as many live entries as there are. -/
theorem RehashInv.count_eq {new : Fin c → HashEntry K V}
    (H : RehashInv f m hc (List.finRange m.capacity) new) :
    Probe.countSlots HashEntry.isLive new = Probe.countSlots HashEntry.isLive m.entries := by
  rw [H.count, Probe.countSlots]
  congr 2
  ext i
  simp

/-- The new table holds the same live entries. -/
theorem RehashInv.entries_iff {new : Fin c → HashEntry K V}
    (H : RehashInv f m hc (List.finRange m.capacity) new) {e : HashEntry K V} (he : e.isLive) :
    (∃ j, new j = e) ↔ ∃ i, m.entries i = e := by
  constructor
  · rintro ⟨j, rfl⟩
    obtain ⟨i, -, hi⟩ := H.origin j (HashEntry.isOccupied_of_isLive he)
    exact ⟨i, hi⟩
  · rintro ⟨i, rfl⟩
    exact H.moved i (List.mem_finRange i) he

/-- `hash_map_resize`, as one of three outcomes: a zero capacity, a failed allocation, or
a new table with the loop invariant of a finished rehash. -/
theorem resize_cases (a : Allocs) {newCapacity : ℕ}
    (hlt : Probe.countSlots HashEntry.isLive m.entries < newCapacity) :
    (a.table newCapacity = false ∧ resize f a m newCapacity = some ⟨-1, some .ENOMEM, m⟩) ∨
    (a.table newCapacity = true ∧ ∃ (hc : 0 < newCapacity) (new : Fin newCapacity → _),
      resize f a m newCapacity = some ⟨0, none, ⟨newCapacity, hc, new, m.count⟩⟩ ∧
      RehashInv f m hc (List.finRange m.capacity) new) := by
  have hpos : 0 < newCapacity := by omega
  rw [resize, dif_neg (by omega)]
  cases ha : a.table newCapacity with
  | false => exact .inl ⟨rfl, rfl⟩
  | true =>
      obtain ⟨new, hnew, H⟩ := rehash_spec (f := f) (m := m) hpos hlt
      exact .inr ⟨rfl, hpos, new, by simp [hnew], H⟩

end HashMap
end Ctm
