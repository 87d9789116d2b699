import Ctm.HashMap.Iteration
import Ctm.HashMap.Spacing
import Mathlib.Data.List.Forall2

/-!
# Updating an existing key

A put that finds its key overwrites the value where it is, so no entry moves and an open
iterator loses none.  The load test comes before the search, though: at three quarters of
the table the put of an existing key doubles the table as well, or fails to.

## Main definitions

* `Updated`, `Continues` — the pairs behind an update, and an iterator that it leaves alone.
* `continues_setValue` — an iterator over a map whose value is overwritten.
* `exists_findSlot` — a stored key is found whatever else is stored.
* `put_present` — what a put of an existing key does.
-/

namespace Ctm
namespace HashMap
variable {K V : Type} {f : Callbacks K} {m m' : HashMap K V} {key : K} {value : V}

/-- A pair before and behind an update: the same key, and the same value unless the key is the
one that was put. -/
def Updated (f : Callbacks K) (key : K) (value : V) (p q : K × Option V) : Prop :=
  q.1 = p.1 ∧ (q.2 = p.2 ∨ (f.compareFunc key (.block p.1) = 0 ∧ q.2 = some value))

/-- An iterator in any state, called `n` times before the update, yields each pair that is left
once behind it, and then fails. -/
def Continues (f : Callbacks K) (key : K) (value : V) (m m' : HashMap K V) : Prop :=
  ∀ (s : IterState K V) (n : ℕ),
    (iterCalls m n s).1.filter (·.1 = 0) = ((m.pairsFrom s.index).take n).map yielded ∧
    ∃ pairs, List.Forall₂ (Updated f key value) ((m.pairsFrom s.index).drop n) pairs ∧
      ∀ k, (iterCalls m' (pairs.length + k) (iterCalls m n s).2).1 =
        pairs.map yielded ++ List.replicate k (-1, pointers pairs (iterCalls m n s).2)

/-- Overwriting a value updates its pair in place. -/
theorem pairsFrom_setValue {i : Fin m.capacity} (hi : (m.entries i).matchesKey f key) (index : ℕ) :
    List.Forall₂ (Updated f key value) (m.pairsFrom index)
      ((m.setEntry i { m.entries i with value := some value }).pairsFrom index) := by
  have hrel : ∀ j, Option.Rel (Updated f key value) (m.entries j).pairAt
      (Function.update m.entries i { m.entries i with value := some value } j).pairAt := by
    intro j
    by_cases hj : j = i
    · subst hj
      obtain ⟨k, hk, hcmp⟩ := HashEntry.matchesKey_iff.mp hi
      rw [Function.update_self, HashEntry.pairAt, HashEntry.pairAt, hk]
      exact .some ⟨rfl, .inr ⟨hcmp, rfl⟩⟩
    · rw [Function.update_of_ne hj]
      cases (m.entries j).pairAt with
      | none => exact .none
      | some p => exact .some ⟨rfl, .inl rfl⟩
  refine List.rel_filterMap ?_ (List.forall₂_same.mpr fun _ _ => rfl)
  rintro j j' rfl
  exact hrel j

theorem continues_setValue {i : Fin m.capacity} (hi : (m.entries i).matchesKey f key) :
    Continues f key value m (m.setEntry i { m.entries i with value := some value }) := by
  intro s n
  obtain ⟨hseen, hrest⟩ := iterCalls_eq m n s
  constructor
  · have hyielded : ∀ pairs : List (K × Option V),
        (pairs.map yielded).filter (·.1 = 0) = pairs.map yielded := by
      intro pairs
      rw [List.filter_eq_self]
      intro x hx
      obtain ⟨p, -, rfl⟩ := List.mem_map.mp hx
      rfl
    rw [hseen, List.filter_append, hyielded, List.filter_eq_nil_iff.mpr, List.append_nil]
    intro x hx
    rw [List.eq_of_mem_replicate hx]
    simp
  · refine ⟨_, hrest ▸ pairsFrom_setValue hi _, fun k => ?_⟩
    rw [(iterCalls_eq _ _ _).1, List.take_of_length_le (Nat.le_add_right _ _),
      Nat.add_sub_cancel_left]

/-- A stored key is found, or one that compares equal to the same key. -/
theorem exists_findSlot {i : Fin m.capacity} (H : Reachable f m.capacity_pos m.entries)
    (hhash : ∀ k, f.compareFunc key (.block k) = 0 →
      f.hashFunc (.block key) = f.hashFunc (.block k))
    (hi : (m.entries i).matchesKey f key) : ∃ j, m.findSlot f key = some j := by
  obtain ⟨k, hk, hcmp⟩ := HashEntry.matchesKey_iff.mp hi
  have hchain : Probe.Chain HashEntry.isOccupied m.entries (m.home f key) i := by
    rw [home, hhash k hcmp]
    exact H i k hk
  obtain ⟨d, -, rfl, hocc⟩ := hchain
  have hstop : m.stopsAt f key (Probe.walk (m.home f key) d) := by rw [stopsAt, hi, Bool.or_true]
  cases hhit : Probe.firstHit (m.stopsAt f key) (m.home f key) with
  | none =>
      rw [Probe.firstHit_eq_none_iff.mp hhit] at hstop
      cases hstop
  | some j =>
      refine ⟨j, ?_⟩
      rw [findSlot, hhit, Option.filter_some, if_pos]
      obtain ⟨e, -, rfl, hstop', hbefore⟩ := Probe.firstHit_eq_some_iff.mp hhit
      -- The search cannot go past the stored key, and every slot before it is occupied.
      rcases Nat.lt_trichotomy e d with hlt | rfl | hgt
      · simpa [stopsAt, hocc e hlt] using hstop'
      · exact hi
      · rw [hbefore d hgt] at hstop
        cases hstop

/-- In the doubled table every stored key is on the walk from its home slot. -/
theorem reachable_grown (H : Load m) {a : Allocs} (hload : 3 * m.capacity ≤ 4 * m.count)
    (ha : a.table (m.capacity * 2) = true) :
    Reachable f (m.grown f a).capacity_pos (m.grown f a).entries := by
  have hlt : m.liveSlots < m.capacity * 2 := by have := H.liveSlots_lt; omega
  rcases resize_cases (f := f) a hlt with ⟨hrefused, -⟩ | ⟨-, hc, new, hr, R⟩
  · rw [ha] at hrefused
    cases hrefused
  · have hgrown : m.grown f a = ⟨m.capacity * 2, hc, new, m.count⟩ := by
      simp only [grown, if_pos hload, H.double_mod, hr]
    rw [hgrown]
    exact R.reachable

/-- `hash_map_put` after the load test overwrites the value of a key that the search finds. -/
theorem putEntry_present (H : Load m) (hskip : f.compareFunc key .tombstone ≠ 0)
    {i : Fin m.capacity} (hi : m.findSlot f key = some i) (a : Allocs) (value : V) :
    putEntry f a m key value =
      some ⟨0, none, m.setEntry i { m.entries i with value := some value }⟩ := by
  rcases putEntry_ends f H a key value with ⟨j, hj, hput⟩ | ⟨j, hnone, -⟩ | ⟨hcmp, -⟩
  · obtain rfl : i = j := Option.some.inj (hi.symm.trans hj)
    exact hput
  · rw [hi] at hnone
    cases hnone
  · exact absurd hcmp hskip

/-- **A put of an existing key**, in any map that calls lead to and whatever memory there is.
Below three quarters it overwrites the value where it is, and every iterator goes on.  From
there on it doubles the table first; when that fails nothing has changed, and otherwise the
entries are the same, but elsewhere. -/
theorem put_present (h : Transition.Reachable (Created f) (Step f) m) {old : V}
    (hold : get f m (some key) = some (some old, none)) (hskip : f.compareFunc key .tombstone ≠ 0)
    (hhash : ∀ k, f.compareFunc key (.block k) = 0 →
      f.hashFunc (.block key) = f.hashFunc (.block k))
    (a : Allocs) (value : V) :
    (4 * m.count < 3 * m.capacity → ∃ i, (m.entries i).matchesKey f key ∧
      put f a m (some key) (some value) =
        some ⟨0, none, m.setEntry i { m.entries i with value := some value }⟩ ∧
      Continues f key value m (m.setEntry i { m.entries i with value := some value })) ∧
    (3 * m.capacity ≤ 4 * m.count → a.table (m.capacity * 2) = false →
      put f a m (some key) (some value) = some ⟨-1, some .ENOMEM, m⟩) ∧
    (3 * m.capacity ≤ 4 * m.count → a.table (m.capacity * 2) = true →
      ∃ (g : HashMap K V) (i : _), g.capacity = m.capacity * 2 ∧ SameEntries m g ∧
        (g.entries i).matchesKey f key ∧ put f a m (some key) (some value) =
          some ⟨0, none, g.setEntry i { g.entries i with value := some value }⟩) := by
  have H := load_of_reachable h
  obtain ⟨i, hi⟩ : ∃ i, m.findSlot f key = some i := by
    cases hslot : m.findSlot f key with
    | some i => exact ⟨i, rfl⟩
    | none =>
        rw [get_eq, hslot] at hold
        cases hold
  have hmatch := matchesKey_of_findSlot hi
  refine ⟨fun hroom => ⟨i, hmatch, ?_, continues_setValue hmatch⟩, fun hload ha => ?_,
    fun hload ha => ?_⟩
  · rw [put, if_neg (by omega)]
    exact putEntry_present H hskip hi a value
  · rcases put_cases (f := f) H a key value with ⟨-, hput⟩ | ⟨hgrow, -⟩
    · exact hput
    · exact absurd ⟨hload, ha⟩ hgrow
  · have hgrow : ¬ growthFails a m := fun hfails => Bool.noConfusion (ha.symm.trans hfails.2)
    obtain ⟨hL, hS, -⟩ := grown_spec (f := f) H hgrow
    obtain ⟨j, hj⟩ := (hS.entries _ (HashEntry.isLive_of_matchesKey hmatch)).mpr ⟨i, rfl⟩
    obtain ⟨k, hk⟩ := exists_findSlot (reachable_grown H hload ha) hhash (hj ▸ hmatch)
    refine ⟨m.grown f a, k, ?_, hS, matchesKey_of_findSlot hk, ?_⟩
    · rw [grown_capacity H hgrow, if_pos hload]
    · rcases put_cases (f := f) H a key value with ⟨hfails, -⟩ | ⟨-, hput⟩
      · exact absurd hfails hgrow
      · exact hput.trans (putEntry_present hL hskip hk a value)

/-- Three PIDs with one home slot, the first of them removed: the value of the third is
overwritten without any memory, behind a tombstone and another key. -/
theorem put_present_colliding :
    ∃ (m : HashMap { pid : BitVec 32 // pid ≠ 0 } ℕ) (i : Fin m.capacity),
      iterAll m = [(⟨32, by decide⟩, some 2), (⟨48, by decide⟩, some 3)] ∧
      put (intCallbacks 0) ⟨false, false, false⟩ m (some ⟨48, by decide⟩) (some 9) =
        some ⟨0, none, m.setEntry i { m.entries i with value := some 9 }⟩ ∧
      iterAll (m.setEntry i { m.entries i with value := some 9 }) =
        [(⟨32, by decide⟩, some 2), (⟨48, by decide⟩, some 9)] ∧
      Continues (intCallbacks 0) ⟨48, by decide⟩ 9 m
        (m.setEntry i { m.entries i with value := some 9 }) := by
  let pid : { pid : BitVec 32 // pid ≠ 0 } := ⟨48, by decide⟩
  let calls : List (Op { pid : BitVec 32 // pid ≠ 0 } ℕ × Allocs) :=
    [(.put ⟨16, by decide⟩ 1, ⟨true, true, true⟩), (.put ⟨32, by decide⟩ 2, ⟨true, true, true⟩),
      (.put pid 3, ⟨true, true, true⟩), (.remove ⟨16, by decide⟩, ⟨true, true, true⟩)]
  have hcalls : (Transition.exec (call (intCallbacks 0)) empty calls).map (fun r =>
      (r.2.count, r.2.capacity, get (intCallbacks 0) r.2 (some pid))) =
        some (2, 16, some (some 3, none)) := by decide +kernel
  have hpairs : (Transition.exec (call (intCallbacks 0)) empty calls).map (fun r => iterAll r.2) =
      some [(⟨32, by decide⟩, some 2), (pid, some 3)] := by decide +kernel
  have hupdated : (Transition.exec (call (intCallbacks 0)) empty calls).bind (fun r =>
      (put (intCallbacks 0) ⟨false, false, false⟩ r.2 (some pid) (some 9)).map fun r =>
        iterAll r.map) = some [(⟨32, by decide⟩, some 2), (pid, some 9)] := by decide +kernel
  obtain ⟨⟨os, m⟩, hrun, hseen⟩ := Option.map_eq_some_iff.mp hcalls
  simp only [Prod.mk.injEq] at hseen
  obtain ⟨hcount, hcapacity, hget⟩ := hseen
  obtain ⟨hroom, -⟩ := put_present (reachable_of_exec hrun) hget
    ((intCallbacks_lawful 0).skipsTombstone pid)
    (fun _ hcmp => (intCallbacks_lawful 0).hash_eq hcmp) ⟨false, false, false⟩ 9
  obtain ⟨i, -, hput, hcontinues⟩ := hroom (by rw [hcount, hcapacity]; decide)
  rw [hrun] at hpairs hupdated
  rw [Option.bind_some, hput] at hupdated
  exact ⟨m, i, Option.some.inj hpairs, hput, Option.some.inj hupdated, hcontinues⟩

/-- Callbacks whose comparison takes the `TOMBSTONE` placeholder for any key. -/
def equatingCallbacks : Callbacks ℕ where
  hashFunc _ := 0
  compareFunc a
    | .tombstone => 0
    | .block b => if a = b then 0 else 1

/-- A put of an existing key fails on a table with twelve PIDs when there is no memory; and with
callbacks that take `TOMBSTONE` for the key it has no result, as it writes through the NULL value
of the second tombstone it meets. -/
theorem put_present_disturbs :
    (¬ ∀ m : HashMap { pid : BitVec 32 // pid ≠ 0 } ℕ,
      Transition.Reachable (Created (intCallbacks 0)) (Step (intCallbacks 0)) m →
      ∀ key old, get (intCallbacks 0) m (some key) = some (some old, none) → ∀ a value,
        ∃ m', put (intCallbacks 0) a m (some key) (some value) = some ⟨0, none, m'⟩) ∧
    ¬ ∀ m : HashMap ℕ ℕ,
      Transition.Reachable (Created equatingCallbacks) (Step equatingCallbacks) m →
      ∀ key old, get equatingCallbacks m (some key) = some (some old, none) → ∀ a value,
        ∃ m', put equatingCallbacks a m (some key) (some value) = some ⟨0, none, m'⟩ := by
  constructor
  · intro hall
    let pid (i : Fin 12) : { pid : BitVec 32 // pid ≠ 0 } :=
      ⟨BitVec.ofNat 32 (i + 1), by revert i; decide⟩
    have hcalls : (Transition.exec (call (intCallbacks 0)) empty
        ((List.finRange 12).map fun i => (.put (pid i) i.val, ⟨true, true, true⟩))).map (fun r =>
        (get (intCallbacks 0) r.2 (some (pid 0)), (put (intCallbacks 0) ⟨false, false, false⟩ r.2
          (some (pid 0)) (some 9)).map Result.ret)) = some (some (some 0, none), some (-1)) := by
      decide +kernel
    obtain ⟨⟨os, m⟩, hrun, hseen⟩ := Option.map_eq_some_iff.mp hcalls
    obtain ⟨hget, hret⟩ := Prod.mk.inj hseen
    have hreach := reachable_of_exec hrun
    obtain ⟨m', hput⟩ := hall m hreach (pid 0) 0 hget ⟨false, false, false⟩ 9
    rw [hput] at hret
    cases hret
  · intro hall
    let calls : List (Op ℕ ℕ × Allocs) := [(.put 1 1, ⟨true, true, true⟩),
      (.put 2 2, ⟨true, true, true⟩), (.put 3 3, ⟨true, true, true⟩),
      (.remove 1, ⟨true, true, true⟩), (.remove 2, ⟨true, true, true⟩)]
    have hcalls : (Transition.exec (call equatingCallbacks) empty calls).map (fun r =>
        (get equatingCallbacks r.2 (some 3), (put equatingCallbacks ⟨true, true, true⟩ r.2 (some 3)
          (some 9)).map Result.ret)) = some (some (some 3, none), none) := by decide +kernel
    obtain ⟨⟨os, m⟩, hrun, hseen⟩ := Option.map_eq_some_iff.mp hcalls
    obtain ⟨hget, hnone⟩ := Prod.mk.inj hseen
    obtain ⟨m', hput⟩ := hall m (reachable_of_exec hrun) 3 3 hget ⟨true, true, true⟩ 9
    rw [hput] at hnone
    cases hnone

end HashMap
end Ctm
