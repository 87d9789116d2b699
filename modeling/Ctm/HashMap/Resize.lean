import Ctm.HashMap.Invariant

/-!
# A resize to any size

`hash_map_resize` does not care how it came to be called.  Whatever the arrangement of
live, deleted and empty slots, whatever `hash_func` answers for `TOMBSTONE`, and however
the size was chosen: a table with room for the live entries takes exactly these, each
where a search for its key comes by.

## Main definitions

* `get_of_chain` — an entry on an unbroken walk from the home slot of its key is found.
* `resize_preserves` — what a resize leaves.
-/

namespace Ctm
namespace HashMap
variable {K V : Type} {f : Callbacks K} {m : HashMap K V}

/-- A search finds the one entry of its key, when no slot on the walk to it is empty. -/
theorem get_of_chain (hdist : DistinctKeys f m.entries) {j : Fin m.capacity} {k : K}
    {v : Option V} (hj : m.entries j = ⟨some (.block k), v⟩)
    (hcmp : f.compareFunc k (.block k) = 0)
    (hchain : Probe.Chain HashEntry.isOccupied m.entries (m.home f k) j) :
    get f m (some k) = some (v, none) := by
  have hmatch : (m.entries j).matchesKey f k :=
    HashEntry.matchesKey_iff.mpr ⟨k, by rw [hj], hcmp⟩
  have huniq : ∀ i, (m.entries i).matchesKey f k → i = j := by
    intro i hi
    obtain ⟨k', hk', hcmp'⟩ := HashEntry.matchesKey_iff.mp hi
    exact (hdist j i k k' (by rw [hj]) hk' hcmp').symm
  have hhit : Probe.firstHit (m.stopsAt f k) (m.home f k) = some j :=
    hchain.firstHit (p := fun i => (m.entries i).matchesKey f k) hmatch huniq
  have hslot : m.findSlot f k = some j := by
    rw [findSlot, hhit, Option.filter_some, if_pos hmatch]
  rw [get_eq, hslot, Option.bind_some, hj]

/-- **Rehashing preserves the map for any target size** above the number of live entries.  The
new table has exactly the live pairs of the old one, each of them once; no slot on the cyclic
walk from the home slot of a key to its slot is empty, and `get` finds the key.  When the
allocation fails the map is unchanged. -/
theorem resize_preserves (hdist : DistinctKeys f m.entries) {newCapacity : ℕ}
    (hlt : m.liveSlots < newCapacity) (a : Allocs) :
    (a.table newCapacity = true → ∃ (hc : 0 < newCapacity) (new : Fin newCapacity → HashEntry K V),
      resize f a m newCapacity = some ⟨0, none, ⟨newCapacity, hc, new, m.count⟩⟩ ∧
      (∀ k v, (∃ j, new j = ⟨some (.block k), v⟩) ↔ ∃ i, m.entries i = ⟨some (.block k), v⟩) ∧
      Probe.countSlots HashEntry.isLive new = m.liveSlots ∧ DistinctKeys f new ∧
      ∀ j k v, new j = ⟨some (.block k), v⟩ →
        Probe.Chain HashEntry.isOccupied new (slotOf hc (f.hashFunc (.block k))) j ∧
        (f.compareFunc k (.block k) = 0 →
          get f ⟨newCapacity, hc, new, m.count⟩ (some k) = some (v, none))) ∧
    (a.table newCapacity = false → resize f a m newCapacity = some ⟨-1, some .ENOMEM, m⟩) := by
  rcases resize_cases (f := f) a hlt with ⟨ha, hr⟩ | ⟨ha, hc, new, hr, R⟩
  · exact ⟨fun hgranted => absurd (ha.symm.trans hgranted) (by decide), fun _ => hr⟩
  · refine ⟨fun _ => ⟨hc, new, hr, ?_, R.count_eq, R.distinct hdist, ?_⟩,
      fun hrefused => absurd (ha.symm.trans hrefused) (by decide)⟩
    · intro k v
      exact R.entries_iff (HashEntry.isLive_iff.mpr ⟨k, rfl⟩)
    · intro j k v hj
      have hchain := R.reachable j k (by rw [hj])
      refine ⟨hchain, fun hcmp => ?_⟩
      exact get_of_chain (m := ⟨newCapacity, hc, new, m.count⟩) (R.distinct hdist) hj hcmp hchain

/-- A table of one PID among tombstones, cut down to two slots. -/
theorem resize_preserves_cluttered : ∃ (m r : HashMap { pid : BitVec 32 // pid ≠ 0 } ℕ)
    (pid : { pid : BitVec 32 // pid ≠ 0 }), (∀ i, (m.entries i).isOccupied) ∧
      resize (intCallbacks 0) ⟨true, true, true⟩ m 2 = some ⟨0, none, r⟩ ∧
      get (intCallbacks 0) r (some pid) = some (some 7, none) := by
  let pid : { pid : BitVec 32 // pid ≠ 0 } := ⟨16, by decide⟩
  let m : HashMap { pid : BitVec 32 // pid ≠ 0 } ℕ :=
    ⟨3, by decide, fun i => if i = 1 then ⟨some (.block pid), some 7⟩ else ⟨some .tombstone, none⟩, 1⟩
  have honly : ∀ (i : Fin m.capacity) k, (m.entries i).key = some (.block k) → i = (1 : Fin 3) := by
    intro i k hk
    by_contra hi
    have hdead : m.entries i = ⟨some .tombstone, none⟩ := if_neg hi
    rw [hdead] at hk
    cases hk
  have hdist : DistinctKeys (intCallbacks 0) m.entries := by
    intro i j a b ha hb _
    rw [honly i a ha, honly j b hb]
  obtain ⟨hgranted, -⟩ := resize_preserves hdist (by decide : m.liveSlots < 2) ⟨true, true, true⟩
  obtain ⟨hc, new, hr, hpairs, -, -, hfound⟩ := hgranted (by decide)
  obtain ⟨j, hj⟩ := (hpairs pid (some 7)).mpr ⟨(1 : Fin 3), rfl⟩
  refine ⟨m, _, pid, ?_, hr, (hfound j pid (some 7) hj).2 (by decide)⟩
  intro (i : Fin 3)
  revert i
  decide

end HashMap
end Ctm
