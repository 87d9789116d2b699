import Ctm.HashMap.Spacing

/-!
# Every probing loop ends

A table with a slot that is not live stops each loop of the hash map within one turn.  The
loops of `hash_map_put`, `hash_map_get` and `hash_map_remove` also watch for the turn
themselves; the inner loop of `hash_map_resize` does not, and needs such a slot in every
table the outer loop leaves on its way.  The load gives it: fewer entries are live than
the new table has slots, in the growing and in the shrinking call, whichever allocations
failed before.

The fuel of a loop is a budget of steps here: a loop that returns with some fuel has
tested no more slots.

## Main definitions

* `rehashUpTo` — the new table when the outer loop of a resize comes to an old slot.
* `ScansEnd` — the scans of a resize take at most as many steps as the new table has slots.
* `probes_end` — the bounds in every map that calls lead to.
-/

namespace Ctm
namespace HashMap
variable {K V : Type} {f : Callbacks K} {m : HashMap K V} {c : ℕ}

/-- The new table when the outer loop of `hash_map_resize` comes to old slot `i`. -/
def rehashUpTo (f : Callbacks K) (m : HashMap K V) (hc : 0 < c) (i : ℕ) :
    Option (Fin c → HashEntry K V) :=
  ((List.finRange m.capacity).take i).foldlM (fun new i => rehashEntry f hc new (m.entries i))
    (fun _ => .null)

/-- A resize comes to every old slot, and its inner loop takes at most `c` steps there. -/
def ScansEnd (f : Callbacks K) (m : HashMap K V) (hc : 0 < c) : Prop :=
  ∀ i : Fin m.capacity, ∃ new, rehashUpTo f m hc i = some new ∧
    ∀ key, (m.entries i).key = some key →
      ∃ steps ≤ c, ∃ j, freeSlot new steps (slotOf hc (f.hashFunc key)) = some j

/-- The scans end when the live entries fit the new table. -/
theorem scansEnd (hc : 0 < c) (hlt : m.liveSlots < c) : ScansEnd f m hc := by
  intro i
  have hnodup : ((List.finRange m.capacity).take i).Nodup :=
    (List.nodup_finRange _).sublist (List.take_sublist _ _)
  obtain ⟨new, hnew, H⟩ := rehash_prefix (f := f) hc hlt hnodup
  refine ⟨new, hnew, ?_⟩
  intro key _
  obtain ⟨j, hj⟩ := firstFree_isSome (H.countSlots_lt hlt) (slotOf hc (f.hashFunc key))
  exact ⟨c, le_refl c, j, by rw [freeSlot_eq_firstFree, hj]⟩

/-- The growing call fits its entries. -/
theorem Load.liveSlots_lt_double (H : Load m) : m.liveSlots < m.capacity * 2 % sizeMod := by
  have hlt := H.liveSlots_lt
  rw [H.double_mod]
  omega

/-- The shrinking call fits its entries. -/
theorem Load.liveSlots_lt_shrunk (H : Load m) (hsparse : m.Sparse) :
    m.liveSlots < m.shrunkCapacity := by
  obtain ⟨hshrunk, -, hlt⟩ := H.half hsparse.1 hsparse.2.2
  rwa [hshrunk]

/-- The loop of `hash_map_put` ends within one turn, and chooses for a new key a slot that is
not live. -/
theorem putLoop_bound (hf : f.SkipsTombstone) (H : Load m) (key : K) :
    ∃ steps ≤ m.capacity, ∃ r, putLoop f m key (m.home f key) steps (m.home f key) none = some r ∧
      (∀ i, r = .found i → (m.entries i).matchesKey f key) ∧
      ∀ i ft, r = .absent i ft → (m.entries (ft.getD i)).isLive = false := by
  obtain ⟨r, hr, hagrees⟩ := putLoop_cases hf m key
  refine ⟨m.capacity, le_refl _, r, hr, ?_, ?_⟩
  · rintro i rfl
    exact matchesKey_of_findSlot hagrees
  · rintro i ft rfl
    obtain ⟨j, hj⟩ := firstFree_isSome H.liveSlots_lt (m.home f key)
    rw [hagrees.2, hj]
    exact firstFree_not_isLive hj

/-- **Every probing loop ends and put never evicts another key.**  In every map that calls lead
to, whichever allocations failed: fewer slots are live than there are; the loops of `get` and
`remove`, and that of `put` in the table it probes, take at most as many steps as there are
slots, and `put` writes a new key to a slot that is not live; and so do the scans of the resize
a `put` or a `remove` asks for, in as many steps as the new table has slots. -/
theorem probes_end (hf : f.SkipsTombstone) (h : Transition.Reachable (Created f) (Step f) m) :
    m.liveSlots < m.capacity ∧
    (∀ key, ∃ steps ≤ m.capacity, ∃ hit,
      findLoop f m key (m.home f key) steps (m.home f key) = some hit) ∧
    (∀ a key value, ¬ growthFails a m →
      put f a m (some key) (some value) = putEntry f a (m.grown f a) key value ∧
      ∃ steps ≤ (m.grown f a).capacity, ∃ r, putLoop f (m.grown f a) key
        ((m.grown f a).home f key) steps ((m.grown f a).home f key) none = some r ∧
      (∀ i, r = .found i → ((m.grown f a).entries i).matchesKey f key) ∧
      ∀ i ft, r = .absent i ft → ((m.grown f a).entries (ft.getD i)).isLive = false) ∧
    (3 * m.capacity ≤ 4 * m.count →
      ∃ hc : 0 < m.capacity * 2 % sizeMod, ScansEnd f m hc) ∧
    ∀ key i, m.findSlot f key = some i → (m.tombstoneAt i).Sparse →
      ∃ hc : 0 < (m.tombstoneAt i).shrunkCapacity, ScansEnd f (m.tombstoneAt i) hc := by
  have H := load_of_reachable h
  refine ⟨H.liveSlots_lt, ?_, ?_, ?_, ?_⟩
  · intro key
    exact ⟨m.capacity, le_refl _, _, find_eq⟩
  · intro a key value hgrow
    obtain ⟨hL, -⟩ := grown_spec (f := f) H hgrow
    rcases put_cases (f := f) H a key value with ⟨hfails, -⟩ | ⟨-, hput⟩
    · exact absurd hfails hgrow
    · exact ⟨hput, putLoop_bound hf hL key⟩
  · intro _
    have hlt := H.liveSlots_lt_double
    exact ⟨by omega, scansEnd (by omega) hlt⟩
  · intro key i hi hsparse
    have hlive := HashEntry.isLive_of_matchesKey (matchesKey_of_findSlot hi)
    have hlt := (H.tombstoneAt hlive).liveSlots_lt_shrunk hsparse
    exact ⟨by omega, scansEnd (by omega) hlt⟩

/-- Twelve live PIDs and a tombstone in 16 slots: a search that meets the tombstone takes at most
16 steps; the thirteenth PID doubles the table, and the scans that fill it end, as does the
walk of the put in it, at a slot that is not live. -/
theorem probes_end_growing :
    let pid (i : Fin 14) : { pid : BitVec 32 // pid ≠ 0 } :=
      ⟨BitVec.ofNat 32 (i + 1), by revert i; decide⟩
    ∃ m g : HashMap { pid : BitVec 32 // pid ≠ 0 } ℕ,
      m.capacity = 16 ∧ m.liveSlots = 12 ∧ g.capacity = 32 ∧ g.liveSlots = 12 ∧
      (m.entries (m.home (intCallbacks 0) (pid 0))).key = some .tombstone ∧
      (∃ steps ≤ m.capacity, ∃ hit, findLoop (intCallbacks 0) m (pid 0)
        (m.home (intCallbacks 0) (pid 0)) steps (m.home (intCallbacks 0) (pid 0)) = some hit) ∧
      (∃ hc : 0 < m.capacity * 2 % sizeMod, ScansEnd (intCallbacks 0) m hc) ∧
      ∃ steps ≤ g.capacity, ∃ i ft, putLoop (intCallbacks 0) g (pid 13)
        (g.home (intCallbacks 0) (pid 13)) steps (g.home (intCallbacks 0) (pid 13)) none =
          some (.absent i ft) ∧ (g.entries (ft.getD i)).isLive = false := by
  intro pid
  let a : Allocs := ⟨true, true, true⟩
  let calls : List (Op { pid : BitVec 32 // pid ≠ 0 } ℕ × Allocs) :=
    (List.finRange 12).map (fun i => (.put (pid i.castSucc.castSucc) i.val, a)) ++
      [(.remove (pid 0), a), (.put (pid 12) 12, a)]
  have hcalls : (Transition.exec (call (intCallbacks 0)) empty calls).map (fun r =>
      (r.2.capacity, r.2.count,
        decide ((r.2.entries (r.2.home (intCallbacks 0) (pid 0))).key = some .tombstone),
        decide (∀ i, ((r.2.grown (intCallbacks 0) a).entries i).matchesKey (intCallbacks 0)
          (pid 13) = false))) = some (16, 12, true, true) := by decide +kernel
  obtain ⟨⟨os, m⟩, hrun, hseen⟩ := Option.map_eq_some_iff.mp hcalls
  simp only [Prod.mk.injEq, decide_eq_true_eq] at hseen
  obtain ⟨hcapacity, hcount, htomb, hmiss⟩ := hseen
  have hreach := reachable_of_exec hrun
  have H := load_of_reachable hreach
  have hload : 3 * m.capacity ≤ 4 * m.count := by omega
  have hgrow : ¬ growthFails a m := by
    rintro ⟨-, htable⟩
    rw [hcapacity] at htable
    cases htable
  obtain ⟨hL, hS, -, -⟩ := grown_spec (f := intCallbacks 0) H hgrow
  have hdouble := grown_capacity (f := intCallbacks 0) H hgrow
  rw [if_pos hload, hcapacity] at hdouble
  obtain ⟨-, hfind, hput, hscan, -⟩ := probes_end (intCallbacks_lawful 0).skipsTombstone hreach
  obtain ⟨-, steps, hsteps, r, hr, hfound, habsent⟩ := hput a (pid 13) 13 hgrow
  refine ⟨m, m.grown (intCallbacks 0) a, hcapacity, H.count_eq.symm.trans hcount, hdouble,
    hL.count_eq.symm.trans (hS.count.trans hcount), htomb, hfind (pid 0), hscan hload, steps,
    hsteps, ?_⟩
  cases r with
  | found i => exact absurd (hfound i rfl) (by rw [hmiss i]; exact Bool.false_ne_true)
  | absent i ft => exact ⟨i, ft, hr, habsent i ft rfl⟩

end HashMap
end Ctm
