import Ctm.HashMap.Iteration
import Ctm.HashMap.Spacing
import Mathlib.Data.Set.List

/-!
# A complete iteration

An iterator scans the slots, and a search walks from the home slot of a key.  On every map
that puts and removes lead to they agree: each stored key is found, so it is stored once,
and the count is the number of live slots.

## Main definitions

* `findable_of_reachable` — the invariants of runs in which no allocation fails.
* `length_pairsFrom` — the count is the number of pairs.
* `iteration_complete` — an iteration yields what the searches find.
-/

namespace Ctm
namespace HashMap
variable {K V : Type} {f : Callbacks K} {m : HashMap K V}

/-- The invariants of every map reached without a failed allocation. -/
theorem findable_of_reachable (hf : f.Lawful)
    (h : Transition.Reachable (Created f) (Granted f) m) : Load m ∧ Findable f m := by
  have hrep : ∃ d, Represents hf m d := by
    refine h.invariant (fun m => ∃ d, Represents hf m d) ?_ ?_
    · rintro s ⟨keySize, valueSize, mallocMap, a, hs⟩
      rw [create_eq_some hs]
      exact ⟨∅, Represents.empty⟩
    · rintro s c s' ⟨d, R⟩ ⟨o, hcall, hok⟩
      exact ⟨_, (call_refines R hcall hok).2⟩
  obtain ⟨d, R⟩ := hrep
  exact ⟨R.load, R.findable⟩

theorem mem_pairsFrom_zero {k : K} {v : Option V} :
    (k, v) ∈ m.pairsFrom 0 ↔ ∃ i, m.entries i = ⟨some (.block k), v⟩ := by
  rw [← iterAll_eq_pairsFrom, mem_iterAll]

/-- The count is the number of pairs. -/
theorem length_pairsFrom (H : Load m) : (m.pairsFrom 0).length = m.hashMapCount := by
  rw [pairsFrom, List.drop_zero, List.length_filterMap_eq_countP, hashMapCount, H.count_eq,
    liveSlots, Probe.countSlots, Fin.univ_def, Finset.card_def, List.countP_eq_length_filter]
  simp [HashEntry.isLive_eq_pairAt]

/-- Each key is yielded once. -/
theorem pairwise_pairsFrom (H : Findable f m) :
    (m.pairsFrom 0).Pairwise fun p q => f.compareFunc p.1 (.block q.1) ≠ 0 := by
  rw [pairsFrom, List.drop_zero, List.pairwise_filterMap]
  refine (List.nodup_finRange m.capacity).imp ?_
  rintro i j hij ⟨k, v⟩ hi ⟨k', v'⟩ hj hcmp
  rw [HashEntry.pairAt_eq_some_iff] at hi hj
  exact hij (H.distinct i j k k' (by rw [hi]) (by rw [hj]) hcmp)

/-- A search finds the value of the stored key that compares equal. -/
theorem get_eq_value_iff (hf : f.Lawful) (H : Findable f m) {k : K} {v : V} :
    get f m (some k) = some (some v, none) ↔
      ∃ k', (k', some v) ∈ m.pairsFrom 0 ∧ f.compareFunc k (.block k') = 0 := by
  have hget : get f m (some k) = some (some v, none) ↔
      ∃ i, m.findSlot f k = some i ∧ (m.entries i).value = some v := by
    rw [get_eq]
    simp [Option.bind_eq_some_iff]
  rw [hget]
  constructor
  · rintro ⟨i, hi, hv⟩
    obtain ⟨k', hk', hcmp⟩ := HashEntry.matchesKey_iff.mp (matchesKey_of_findSlot hi)
    refine ⟨k', mem_pairsFrom_zero.mpr ⟨i, ?_⟩, hcmp⟩
    rw [← hk', ← hv]
  · rintro ⟨k', hmem, hcmp⟩
    obtain ⟨i, hi⟩ := mem_pairsFrom_zero.mp hmem
    refine ⟨i, (H.findSlot_eq_some_iff hf).mpr ?_, by rw [hi]⟩
    exact HashEntry.matchesKey_iff.mpr ⟨k', by rw [hi], hcmp⟩

/-- Every stored pair has a value. -/
theorem exists_pairs (H : Load m) :
    ∃ pairs : List (K × V), m.pairsFrom 0 = pairs.map fun p => (p.1, some p.2) := by
  have hrange : m.pairsFrom 0 ∈ Set.range (List.map fun p : K × V => (p.1, some p.2)) := by
    rw [Set.range_list_map, Set.mem_ofPred_eq]
    rintro ⟨k, v⟩ hmem
    obtain ⟨i, hi⟩ := mem_pairsFrom_zero.mp hmem
    obtain ⟨v', hv⟩ := H.valued.block i k (by rw [hi])
    rw [hi] at hv
    exact ⟨(k, v'), congrArg (Prod.mk k) hv.symm⟩
  obtain ⟨pairs, hpairs⟩ := hrange
  exact ⟨pairs, hpairs.symm⟩

/-- **A fresh iterator yields each pair that a search finds, once**, in as many calls as the
map counts; every later call fails and leaves the pointers of its caller alone. -/
theorem iteration_complete (hf : f.Lawful) (h : Transition.Reachable (Created f) (Granted f) m)
    (key : Option K) (value : Option V) :
    ∃ pairs : List (K × V), pairs.length = m.hashMapCount ∧
      pairs.Pairwise (fun p q => f.compareFunc p.1 (.block q.1) ≠ 0) ∧
      (∀ k v, get f m (some k) = some (some v, none) ↔
        ∃ k', (k', v) ∈ pairs ∧ f.compareFunc k (.block k') = 0) ∧
      ∀ n, (iterCalls m (m.hashMapCount + n) ⟨0, key, value⟩).1 =
        pairs.map (fun p => (0, some p.1, some p.2)) ++ List.replicate n
          (-1, (pairs.getLast?.map fun p => (some p.1, some p.2)).getD (key, value)) := by
  obtain ⟨H, HF⟩ := findable_of_reachable hf h
  obtain ⟨pairs, hpairs⟩ := exists_pairs H
  have hlen : pairs.length = m.hashMapCount := by
    rw [← length_pairsFrom H, hpairs, List.length_map]
  refine ⟨pairs, hlen, ?_, fun k v => ?_, fun n => ?_⟩
  · have hpairwise := pairwise_pairsFrom HF
    rwa [hpairs, List.pairwise_map] at hpairwise
  · rw [get_eq_value_iff hf HF, hpairs]
    simp
  · obtain ⟨hseen, -⟩ := iterCalls_eq m (m.hashMapCount + n) ⟨0, key, value⟩
    rw [hseen, hpairs, List.length_map, hlen, Nat.add_sub_cancel_left, pointers,
      List.take_of_length_le (by rw [List.length_map]; omega), List.map_map, List.getLast?_map,
      Option.map_map]
    rfl

/-- Of two PIDs with one home slot the first was removed; the second is yielded. -/
theorem iteration_complete_collided :
    ∃ (m : HashMap { pid : BitVec 32 // pid ≠ 0 } ℕ) (pid : { pid : BitVec 32 // pid ≠ 0 }),
      pid.1 = 32 ∧ ∀ n, (iterCalls m (1 + n) ⟨0, none, none⟩).1 =
        (0, some pid, some 2) :: List.replicate n (-1, some pid, some 2) := by
  let pid : { pid : BitVec 32 // pid ≠ 0 } := ⟨32, by decide⟩
  have hcalls : (Transition.exec (call (intCallbacks 0)) empty
      [(.put ⟨16, by decide⟩ 1, ⟨true, true, true⟩), (.put pid 2, ⟨true, true, true⟩),
        (.remove ⟨16, by decide⟩, ⟨true, true, true⟩)]).map (fun r =>
      (r.2.hashMapCount, get (intCallbacks 0) r.2 (some pid))) =
        some (1, some (some 2, none)) := by decide +kernel
  obtain ⟨⟨os, m⟩, hrun, hseen⟩ := Option.map_eq_some_iff.mp hcalls
  simp only [Prod.mk.injEq] at hseen
  obtain ⟨hcount, hget⟩ := hseen
  obtain ⟨pairs, hlen, -, hpairs, hcalls⟩ :=
    iteration_complete (intCallbacks_lawful 0) (granted_of_exec hrun (by decide +kernel))
      none none
  obtain ⟨k, hmem, hcmp⟩ := (hpairs pid 2).mp hget
  obtain rfl : pid = k := Subtype.ext (hashCompareInt_eq_zero_iff.mp hcmp)
  obtain ⟨p, rfl⟩ := List.length_eq_one_iff.mp (hlen.trans hcount)
  obtain rfl := List.mem_singleton.mp hmem
  refine ⟨m, pid, rfl, fun n => ?_⟩
  rw [← hcount, hcalls n]
  rfl

end HashMap
end Ctm
