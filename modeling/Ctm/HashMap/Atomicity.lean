import Ctm.HashMap.Iteration
import Ctm.HashMap.Refinement

/-!
# Memory exhaustion

A failed `hash_map_put` should leave the map as it was.  It does, except in one case:
when the slot chosen for the new key is a reused tombstone and a block cannot be
allocated, the failure path writes NULL over the tombstone, and keys stored further
along a walk through that slot are no longer found.  `BreaksChain` is that case, and
`put_atomic_iff` shows that it is the only one.

`hash_map_remove` ignores the result of its shrink, so a failed shrink is harmless in
any findable map.

## Main definitions

* `SameView` — the same searches, count and iterated pairs.
* `BreaksChain` — the failing put that damages the map.
-/

namespace Ctm
namespace HashMap
variable {K V : Type} {f : Callbacks K} {m m' : HashMap K V}

/-- What a caller can observe of two maps agrees. -/
structure SameView (f : Callbacks K) (m m' : HashMap K V) : Prop where
  get : ∀ key, get f m' (some key) = get f m (some key)
  count : m'.hashMapCount = m.hashMapCount
  iter : ∀ pair, pair ∈ iterAll m' ↔ pair ∈ iterAll m

/-- `key`'s pair is gone, and every search for another key reads what it read. -/
structure RemovesExactly (f : Callbacks K) (m m' : HashMap K V) (key : K) : Prop where
  removed : ∀ key', f.compareFunc key (.block key') = 0 → get f m' (some key') = some (none, none)
  others : ∀ key', f.compareFunc key (.block key') ≠ 0 → get f m' (some key') = get f m (some key')

/-- The put of an absent key fails to allocate a block although a slot was found for it, and
the walk to some stored key passes that slot.  Such a slot is a tombstone. -/
def BreaksChain (f : Callbacks K) (m : HashMap K V) (a : Allocs) (key : K) : Prop :=
  ¬ growthFails a m ∧ Allocs.entry a = false ∧ (m.grown f a).findSlot f key = none ∧
    ∃ i, firstFree (m.grown f a).entries ((m.grown f a).home f key) = some i ∧
      ∃ j k, ((m.grown f a).entries j).key = some (.block k) ∧
        Probe.OnPath ((m.grown f a).home f k) j i

theorem get_eq_lookup (m : HashMap K V) (key : K) :
    get f m (some key) = some (lookup f m key, none) := get_eq m key

theorem SameView.refl (m : HashMap K V) : SameView f m m :=
  ⟨fun _ => rfl, rfl, fun _ => Iff.rfl⟩

theorem SameEntries.sameView (hf : f.Lawful) (S : SameEntries m m') (H : Findable f m)
    (H' : Findable f m') : SameView f m m' where
  get key := by rw [get_eq_lookup, get_eq_lookup, S.lookup_eq hf H H' key]
  count := S.count
  iter := S.mem_iterAll

/-- Writing a NULL key over a slot that is not live changes no live entry. -/
theorem SameEntries.clear {i : Fin m.capacity} (hi : (m.entries i).isLive = false)
    {e : HashEntry K V} (he : e.key = none) : SameEntries m (m.setEntry i e) where
  count := rfl
  entries := by
    intro x hx
    have hdead : e.isLive = false := by simp [HashEntry.isLive, he]
    constructor
    · rintro ⟨(j : Fin m.capacity), hj⟩
      change Function.update m.entries i e j = x at hj
      by_cases hji : j = i
      · subst hji
        rw [Function.update_self] at hj
        rw [hj, hx] at hdead
        cases hdead
      · rw [Function.update_of_ne hji] at hj
        exact ⟨j, hj⟩
    · rintro ⟨j, rfl⟩
      refine ⟨(j : Fin m.capacity), ?_⟩
      change Function.update m.entries i e j = m.entries j
      refine Function.update_of_ne ?_ _ _
      rintro rfl
      rw [hi] at hx
      cases hx

theorem SameEntries.trans {m'' : HashMap K V} (S : SameEntries m m') (S' : SameEntries m' m'') :
    SameEntries m m'' :=
  ⟨S'.count.trans S.count, fun e he => (S'.entries e he).trans (S.entries e he)⟩

/-- A failed put returned before probing, or cleared the slot it had chosen. -/
theorem put_failed (hf : f.SkipsTombstone) (H : Load m) {a : Allocs} {key : K} {value : V}
    {r : Result K V} (h : put f a m (some key) (some value) = some r) (hret : r.ret = -1) :
    (growthFails a m ∧ r.map = m) ∨
    (¬ growthFails a m ∧ Allocs.entry a = false ∧ (m.grown f a).findSlot f key = none ∧
      ∃ i e, firstFree (m.grown f a).entries ((m.grown f a).home f key) = some i ∧
        e.key = none ∧ r.map = (m.grown f a).setEntry i e) := by
  rcases put_cases (f := f) H a key value with ⟨hfail, hr⟩ | ⟨hgrow, hr⟩
  · rw [hr] at h
    obtain rfl := Option.some.inj h
    exact .inl ⟨hfail, rfl⟩
  · obtain ⟨hL, -, -, -⟩ := grown_spec (f := f) H hgrow
    rcases putEntry_cases hf hL a key value with ⟨i, -, he⟩ | ⟨i, hmiss, hfree, he⟩
    · rw [hr, he] at h
      obtain rfl := Option.some.inj h
      cases hret
    · rcases putNew_cases a (firstFree_not_isLive hfree) key value with ⟨-, hn⟩ | ⟨ha, e, hek, hn⟩
      · rw [hr, he, hn] at h
        obtain rfl := Option.some.inj h
        cases hret
      · rw [hr, he, hn] at h
        obtain rfl := Option.some.inj h
        exact .inr ⟨hgrow, ha, hmiss, i, e, hfree, hek, rfl⟩

/-- Clearing a slot on the walk to a stored key hides that key. -/
theorem lookup_clear_of_onPath (H : Findable f m) {i j : Fin m.capacity} {k : K}
    (hk : (m.entries j).key = some (.block k)) (hpath : Probe.OnPath (m.home f k) j i)
    {e : HashEntry K V} (he : e.key = none) : lookup f (m.setEntry i e) k = none := by
  obtain ⟨d, hd, hj, x, hx, hi⟩ := hpath
  by_contra hne
  obtain ⟨(s : Fin m.capacity), hs⟩ : ∃ s, (m.setEntry i e).findSlot f k = some s := by
    cases hs : (m.setEntry i e).findSlot f k with
    | none => exact absurd (by rw [lookup, hs]; rfl) hne
    | some s => exact ⟨s, rfl⟩
  obtain ⟨hhit, hmatch⟩ := Option.filter_eq_some_iff.mp hs
  obtain ⟨y, (hy : y < m.capacity), hys, -, hbefore⟩ := Probe.firstHit_eq_some_iff.mp hhit
  -- The walk stops at the NULL slot `i` at the latest, so the hit comes before `j`.
  have hyx : y ≤ x := by
    by_contra hlt
    have hstop : (!(Function.update m.entries i e (Probe.walk (m.home f k) x)).isOccupied ||
        (Function.update m.entries i e (Probe.walk (m.home f k) x)).matchesKey f k) = true := by
      rw [hi, Function.update_self]
      simp [HashEntry.isOccupied, he]
    have hpass := hbefore x (by omega)
    exact Bool.noConfusion (hstop.symm.trans hpass)
  replace hmatch : (Function.update m.entries i e s).matchesKey f k := hmatch
  have hsi : s ≠ i := by
    intro hsi
    rw [hsi, Function.update_self] at hmatch
    simp [HashEntry.matchesKey, he] at hmatch
  rw [Function.update_of_ne hsi] at hmatch
  obtain ⟨k', hk', hcmp⟩ := HashEntry.matchesKey_iff.mp hmatch
  have hjs : j = s := H.distinct j s k k' hk hk' hcmp
  have hwalk : Probe.walk (m.home f k) d = Probe.walk (m.home f k) y :=
    hj.trans (hjs.trans hys.symm)
  have := Probe.walk_injective hd hy hwalk
  omega

/-- **A failed put is atomic exactly when it breaks no chain.** -/
theorem put_atomic_iff (hf : f.Lawful) (H : Load m) (HF : Findable f m) (a : Allocs) (key : K)
    (value : V) :
    (∀ r, put f a m (some key) (some value) = some r → r.ret = -1 → SameView f m r.map) ↔
      ¬ BreaksChain f m a key := by
  constructor
  · rintro hatomic ⟨hgrow, ha, hmiss, i, hfree, j, k, hk, hpath⟩
    obtain ⟨hL, hS, -, hF⟩ := grown_spec (f := f) H hgrow
    -- The put fails, and the search for `k` no longer reads the value stored with it.
    obtain ⟨r, hput, hret, e, he, hmap⟩ : ∃ r, put f a m (some key) (some value) = some r ∧
        r.ret = -1 ∧ ∃ e : HashEntry K V, e.key = none ∧
          r.map = (m.grown f a).setEntry i e := by
      rcases put_cases (f := f) H a key value with ⟨hfail, -⟩ | ⟨-, hr⟩
      · exact absurd hfail hgrow
      · rcases putEntry_cases hf.skipsTombstone hL a key value with
          ⟨i', hi', -⟩ | ⟨i', -, hfree', he⟩
        · rw [hmiss] at hi'
          cases hi'
        · obtain rfl : i = i' := Option.some.inj (hfree.symm.trans hfree')
          rcases putNew_cases a (firstFree_not_isLive hfree) key value with
            ⟨ha', -⟩ | ⟨-, e, hek, hn⟩
          · rw [ha] at ha'
            cases ha'
          · exact ⟨_, hr.trans (he.trans (congrArg some hn)), rfl, e, hek, rfl⟩
    have hview := (hatomic r hput hret).get k
    rw [hmap, get_eq_lookup, get_eq_lookup, lookup_clear_of_onPath (hF HF) hk hpath he,
      ← hS.lookup_eq hf HF (hF HF) k] at hview
    have hfound : (m.grown f a).findSlot f k = some j :=
      ((hF HF).findSlot_eq_some_iff hf).mpr (HashEntry.matchesKey_iff.mpr ⟨k, hk, hf.refl k⟩)
    obtain ⟨v, hv⟩ := hL.valued.block j k hk
    simp [lookup, hfound, hv] at hview
  · intro hsafe r hput hret
    rcases put_failed hf.skipsTombstone H hput hret with
      ⟨-, hmap⟩ | ⟨hgrow, ha, hmiss, i, e, hfree, he, hmap⟩
    · rw [hmap]
      exact SameView.refl m
    · obtain ⟨-, hS, -, hF⟩ := grown_spec (f := f) H hgrow
      have hclear : Findable f ((m.grown f a).setEntry i e) := by
        refine (hF HF).clear he ?_
        intro j k hk hpath
        exact hsafe ⟨hgrow, ha, hmiss, i, hfree, j, k, hk, hpath⟩
      rw [hmap]
      exact (hS.trans (SameEntries.clear (firstFree_not_isLive hfree) he)).sameView hf HF hclear

/-- A remove of a stored key, in whatever way its shrink ends, removes exactly that key. -/
theorem remove_exact (hf : f.Lawful) (H : Load m) (HF : Findable f m) {a : Allocs} {key : K}
    {r : Result K V} (h : remove f a m (some key) = some r) (hret : r.ret = 1) :
    RemovesExactly f m r.map key := by
  rcases remove_cases (f := f) a m key with ⟨i, hi, hr⟩ | ⟨-, hr⟩
  · have hmatch := matchesKey_of_findSlot hi
    obtain ⟨k, hk, hcmp⟩ := HashEntry.matchesKey_iff.mp hmatch
    obtain ⟨r', hshrink, -, -, hS, hF⟩ :=
      shrink_spec (f := f) (H.tombstoneAt (HashEntry.isLive_of_matchesKey hmatch)) a
    rw [hr, hshrink] at h
    obtain rfl := Option.some.inj h
    have HF' := HF.tombstoneAt i
    have hlookup := hS.lookup_eq hf HF' (hF HF')
    obtain ⟨hgone, hkept⟩ := lookup_tombstoneAt hf HF hi
    exact ⟨fun key' h => by rw [get_eq_lookup, hlookup, hgone key' h],
      fun key' h => by rw [get_eq_lookup, get_eq_lookup, hlookup, hkept key' h]⟩
  · rw [hr] at h
    obtain rfl := Option.some.inj h
    cases hret

/-! ## Runs -/

/-- The call is not a put that breaks a chain. -/
def KeepsChains (f : Callbacks K) (m : HashMap K V) : Op K V × Allocs → Prop
  | (.put key _, a) => ¬ BreaksChain f m a key
  | _ => True

/-- A put into a map that was created breaks no chain: no key is stored yet. -/
theorem KeepsChains.of_empty (key : K) (value : V) (a : Allocs) :
    KeepsChains f (empty : HashMap K V) (.put key value, a) := by
  rintro ⟨-, -, -, i, -, j, k, hk, -⟩
  have hgrown : (empty : HashMap K V).grown f a = empty := if_neg (show ¬3 * 16 ≤ 4 * 0 by decide)
  have hfresh : ∀ m : HashMap K V, m = empty → ∀ j, (m.entries j).key = none := by
    rintro m rfl j
    rfl
  exact Option.some_ne_none _ (hk.symm.trans (hfresh _ hgrown j))

/-- A call that allocates its blocks breaks no chain. -/
theorem KeepsChains.of_entry {c : Op K V × Allocs} (h : Allocs.entry c.2 = true) :
    KeepsChains f m c := by
  obtain ⟨op, a⟩ := c
  cases op with
  | put key value =>
      rintro ⟨-, ha, -⟩
      rw [ha] at h
      cases h
  | remove key => trivial
  | get key => trivial

/-- Memory exhaustion leaves the map as it was: a put that returns -1 changes nothing a
caller can observe, and a remove whose shrink fails removes exactly its key. -/
structure Atomic (f : Callbacks K) (m : HashMap K V) (ok : Op K V × Allocs → Prop) : Prop where
  put : ∀ a key value r, ok (.put key value, a) → put f a m (some key) (some value) = some r →
    r.ret = -1 → SameView f m r.map
  remove : ∀ a key r, ok (.remove key, a) → remove f a m (some key) = some r →
    r.errno = some .ENOMEM → r.ret = 1 ∧ RemovesExactly f m r.map key

/-- A call that breaks no chain keeps both invariants. -/
theorem step_findable (hf : f.Lawful) {c : Op K V × Allocs} (h : Step f m c m')
    (hok : KeepsChains f m c) (H : Load m ∧ Findable f m) : Load m' ∧ Findable f m' := by
  obtain ⟨hL, hF⟩ := H
  obtain ⟨o, hcall⟩ := h
  refine ⟨call_load hL hcall, ?_⟩
  obtain ⟨op, a⟩ := c
  cases op with
  | get key =>
      rw [call_get] at hcall
      obtain ⟨-, rfl⟩ := Prod.mk.inj (Option.some.inj hcall)
      exact hF
  | remove key =>
      rcases remove_cases (f := f) a m key with ⟨i, hi, hr⟩ | ⟨-, hr⟩
      · have hlive := HashEntry.isLive_of_matchesKey (matchesKey_of_findSlot hi)
        obtain ⟨r, hshrink, -, -, -, hF'⟩ := shrink_spec (f := f) (hL.tombstoneAt hlive) a
        rw [call_remove (hr.trans hshrink)] at hcall
        obtain ⟨-, rfl⟩ := Prod.mk.inj (Option.some.inj hcall)
        exact hF' (hF.tombstoneAt i)
      · rw [call_remove hr] at hcall
        obtain ⟨-, rfl⟩ := Prod.mk.inj (Option.some.inj hcall)
        exact hF
  | put key value =>
      rcases put_cases (f := f) hL a key value with ⟨-, hr⟩ | ⟨hgrow, hr⟩
      · rw [call_put hr] at hcall
        obtain ⟨-, rfl⟩ := Prod.mk.inj (Option.some.inj hcall)
        exact hF
      · obtain ⟨hL₁, -, -, hF₁⟩ := grown_spec (f := f) hL hgrow
        rcases putEntry_cases hf.skipsTombstone hL₁ a key value with
          ⟨i, hi, he⟩ | ⟨i, hmiss, hfree, he⟩
        · rw [call_put (hr.trans he)] at hcall
          obtain ⟨-, rfl⟩ := Prod.mk.inj (Option.some.inj hcall)
          exact (hF₁ hF).setValue (HashEntry.isLive_of_matchesKey (matchesKey_of_findSlot hi)) value
        · rcases putNew_cases a (firstFree_not_isLive hfree) key value with
            ⟨-, hn⟩ | ⟨ha, e, hek, hn⟩
          · rw [call_put (hr.trans (he.trans (congrArg some hn)))] at hcall
            obtain ⟨-, rfl⟩ := Prod.mk.inj (Option.some.inj hcall)
            exact (hF₁ hF).insertAt hf hmiss hfree value
          · rw [call_put (hr.trans (he.trans (congrArg some hn)))] at hcall
            obtain ⟨-, rfl⟩ := Prod.mk.inj (Option.some.inj hcall)
            refine (hF₁ hF).clear hek ?_
            intro j k hk hpath
            exact hok ⟨hgrow, ha, hmiss, i, hfree, j, k, hk, hpath⟩

/-- A remove that sets `ENOMEM` is one whose shrink failed, so it returns 1. -/
theorem remove_ret_of_ENOMEM (H : Load m) {a : Allocs} {key : K}
    {r : Result K V} (h : remove f a m (some key) = some r) (herr : r.errno = some .ENOMEM) :
    r.ret = 1 := by
  rcases remove_cases (f := f) a m key with ⟨i, hi, hr⟩ | ⟨-, hr⟩
  · have hlive := HashEntry.isLive_of_matchesKey (matchesKey_of_findSlot hi)
    obtain ⟨r', hshrink, hret, -⟩ := shrink_spec (f := f) (H.tombstoneAt hlive) a
    rw [hr, hshrink] at h
    obtain rfl := Option.some.inj h
    exact hret
  · rw [hr] at h
    obtain rfl := Option.some.inj h
    cases herr

/-- **Hash map operations are atomic under memory exhaustion** in every run none of whose
puts fails to allocate a block for a reused tombstone on the walk to a stored key. -/
theorem run_atomic (hf : f.Lawful)
    (h : Transition.Reachable (Created f) (Transition.Guarded (KeepsChains f) (Step f)) m) :
    Atomic f m (KeepsChains f m) := by
  have H : Load m ∧ Findable f m := by
    refine h.invariant (fun m => Load m ∧ Findable f m) ?_ ?_
    · rintro s ⟨keySize, valueSize, mallocMap, a, hs⟩
      rw [create_eq_some hs]
      exact ⟨Load.empty, Findable.empty⟩
    · rintro s c s' hs ⟨hok, hstep⟩
      exact step_findable hf hstep hok hs
  obtain ⟨hL, hF⟩ := H
  constructor
  · intro a key value r hok hput hret
    exact (put_atomic_iff hf hL hF a key value).mpr hok r hput hret
  · intro a key r _ hremove herr
    have hret := remove_ret_of_ENOMEM hL hremove herr
    exact ⟨hret, remove_exact hf hL hF hremove hret⟩

/-- With two colliding PIDs stored and the first removed, every call that keeps the chains
is still atomic. -/
theorem run_atomic_colliding : ∃ m : HashMap { pid : BitVec 32 // pid ≠ 0 } ℕ,
    get (intCallbacks 0) m (some ⟨32, by decide⟩) = some (some 2, none) ∧
      Atomic (intCallbacks 0) m (KeepsChains (intCallbacks 0) m) := by
  let calls : List (Op { pid : BitVec 32 // pid ≠ 0 } ℕ × Allocs) :=
    [(.put ⟨16, by decide⟩ 1, ⟨true, true, true⟩), (.put ⟨32, by decide⟩ 2, ⟨true, true, true⟩),
      (.remove ⟨16, by decide⟩, ⟨true, true, true⟩)]
  obtain ⟨os, m, hrun⟩ : ∃ os m, Transition.exec (call (intCallbacks 0)) empty calls =
      some (os, m) := ⟨_, _, rfl⟩
  have hget : (Transition.exec (call (intCallbacks 0)) empty calls).bind
      (fun r => get (intCallbacks 0) r.2 (some ⟨32, by decide⟩)) = some (some 2, none) := rfl
  rw [hrun] at hget
  have hsuccess : ∀ c ∈ calls, c.2 = ⟨true, true, true⟩ := by simp [calls]
  refine ⟨m, hget, run_atomic (intCallbacks_lawful 0) (Transition.exec_reachable ?_
    (.init created_empty) hrun)⟩
  intro c hc o _ s s' hcall
  exact ⟨KeepsChains.of_entry (by rw [hsuccess c hc]; rfl), o, hcall⟩

/-- A failed put of a third colliding PID, over the tombstone of the first, hides the second:
its slot becomes NULL although `get` walked through it. -/
theorem put_not_atomic : ¬ ∀ m : HashMap { pid : BitVec 32 // pid ≠ 0 } ℕ,
    Transition.Reachable (Created (intCallbacks 0)) (Step (intCallbacks 0)) m →
      Atomic (intCallbacks 0) m fun _ => True := by
  intro hall
  let calls : List (Op { pid : BitVec 32 // pid ≠ 0 } ℕ × Allocs) :=
    [(.put ⟨16, by decide⟩ 1, ⟨true, true, true⟩), (.put ⟨32, by decide⟩ 2, ⟨true, true, true⟩),
      (.remove ⟨16, by decide⟩, ⟨true, true, true⟩)]
  obtain ⟨os, m, hrun⟩ : ∃ os m, Transition.exec (call (intCallbacks 0)) empty calls =
      some (os, m) := ⟨_, _, rfl⟩
  have hreach := reachable_of_exec hrun
  -- What the code does in the state reached, by evaluation.
  have hget : (Transition.exec (call (intCallbacks 0)) empty calls).bind
      (fun r => get (intCallbacks 0) r.2 (some ⟨32, by decide⟩)) = some (some 2, none) := rfl
  have hput : ((Transition.exec (call (intCallbacks 0)) empty calls).bind fun r =>
      put (intCallbacks 0) ⟨true, false, true⟩ r.2 (some ⟨48, by decide⟩) (some 3)).map
        (fun r => (r.ret, get (intCallbacks 0) r.map (some ⟨32, by decide⟩))) =
      some (-1, some (none, none)) := rfl
  rw [hrun] at hget hput
  obtain ⟨r, hr, hview⟩ := Option.map_eq_some_iff.mp hput
  obtain ⟨hret, hlost⟩ := Prod.mk.inj hview
  have := ((hall m hreach).put _ _ _ r trivial hr hret).get ⟨32, by decide⟩
  rw [hlost, show get (intCallbacks 0) m (some ⟨32, by decide⟩) = some (some 2, none) from hget]
    at this
  cases this

end HashMap
end Ctm
