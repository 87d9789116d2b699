import Ctm.HashMap.Spacing

/-!
# Deleted slots fill the table

The load test counts live entries, and a removal leaves a tombstone.  So a table of 16
slots whose processes come and go, a few at a time, ends up without an empty slot; the
searches that find nothing then stop where they are about to run in circles.

How long the empty slots last is known.  Between resizes a put takes at most one, and no
other call takes any.  A resize gives them back: it moves each tombstone to the first
free slot of one and the same walk, over the tombstone moved before, so that at most one
is left.

## Main definitions

* `emptySlots`, `puts` — the empty slots of a table, and the puts among some calls.
* `TombstoneFirst` — where the loop of a resize keeps its tombstone.
* `resize_emptySlots`, `call_emptySlots`, `run_emptySlots` — what becomes of the empty slots.
* `empty_slots_last` — how long they last, and how a search ends that finds nothing.
-/

namespace Ctm

namespace HashEntry
variable {K V : Type} {e : HashEntry K V}

/-- The slot's key is `TOMBSTONE`. -/
def isDeleted (e : HashEntry K V) : Bool :=
  match e.key with
  | some .tombstone => true
  | _ => false

theorem isDeleted_iff : e.isDeleted ↔ e.key = some .tombstone := by
  unfold isDeleted
  split <;> simp_all

theorem isLive_or_isDeleted (h : e.isOccupied) : e.isLive ∨ e.isDeleted := by
  obtain ⟨p, hp⟩ := Option.isSome_iff_exists.mp h
  cases p with
  | tombstone => exact .inr (isDeleted_iff.mpr hp)
  | block k => exact .inl (isLive_iff.mpr ⟨k, hp⟩)

end HashEntry

namespace HashMap
variable {K V : Type} {f : Callbacks K} {m m' : HashMap K V} {a : Allocs} {key : K} {value : V}
  {c : ℕ}

/-- The number of empty slots. -/
def emptySlots (m : HashMap K V) : ℕ := Probe.countSlots (fun e => !e.isOccupied) m.entries

theorem emptySlots_pos : 0 < m.emptySlots ↔ ∃ i, (m.entries i).key = none := by
  rw [emptySlots, Probe.countSlots_pos]
  simp [HashEntry.isOccupied]

/-- Overwriting one slot takes at most one empty slot. -/
theorem emptySlots_le_setEntry (i : Fin m.capacity) (e : HashEntry K V) :
    m.emptySlots ≤ (m.setEntry i e).emptySlots + 1 :=
  Probe.countSlots_le_update

/-! ## The tombstone of a resize -/

/-- A tombstone lies in the first slot that is not live on the walk from where it hashes to. -/
def TombstoneFirst (f : Callbacks K) (hc : 0 < c) (T : Fin c → HashEntry K V) : Prop :=
  ∀ i, (T i).key = some .tombstone → firstFree T (slotOf hc (f.hashFunc .tombstone)) = some i

section TombstoneFirst
variable {hc : 0 < c} {T T' : Fin c → HashEntry K V} {i : Fin c} {e : HashEntry K V}

/-- The first free slot of a walk stays so when another slot is filled. -/
theorem firstFree_update_live {start j : Fin c} (hi : firstFree T start = some i) (hj : j ≠ i)
    (he : e.isLive) : firstFree (Function.update T j e) start = some i := by
  obtain ⟨d, hd, hwalk, hfree, hbefore⟩ := Probe.firstHit_eq_some_iff.mp hi
  refine Probe.firstHit_eq_some_iff.mpr ⟨d, hd, hwalk, ?_, ?_⟩
  · rwa [Function.update_of_ne (Ne.symm hj)]
  · intro d' hd'
    by_cases hsame : Probe.walk start d' = j
    · rw [hsame, Function.update_self, he]
      rfl
    · rw [Function.update_of_ne hsame]
      exact hbefore d' hd'

/-- Writing a tombstone to the first free slot leaves it the first free one. -/
theorem firstFree_update_dead {start : Fin c} (hi : firstFree T start = some i)
    (he : e.isLive = false) : firstFree (Function.update T i e) start = some i := by
  have hsame : (fun j => !(Function.update T i e j).isLive) = fun j => !(T j).isLive := by
    funext j
    by_cases hj : j = i
    · rw [hj, Function.update_self, he, firstFree_not_isLive hi]
    · rw [Function.update_of_ne hj]
  rw [firstFree, hsame]
  exact hi

theorem TombstoneFirst.rehashEntry (H : TombstoneFirst f hc T) {old : HashEntry K V}
    (h : HashMap.rehashEntry f hc T old = some T') : TombstoneFirst f hc T' := by
  obtain ⟨key, value⟩ := old
  cases key with
  | none =>
      obtain rfl := Option.some.inj h
      exact H
  | some p =>
      obtain ⟨index, hfree, h⟩ := Option.bind_eq_some_iff.mp h
      obtain rfl := Option.some.inj h
      rw [freeSlot_eq_firstFree] at hfree
      intro i hi
      cases p with
      | tombstone =>
          -- An older tombstone was in the slot that is written now.
          have hindex : i = index := by
            by_contra hne
            rw [Function.update_of_ne hne] at hi
            exact hne (Option.some.inj ((H i hi).symm.trans hfree))
          rw [hindex]
          exact firstFree_update_dead hfree rfl
      | block k =>
          have hne : i ≠ index := by
            rintro rfl
            rw [Function.update_self] at hi
            cases hi
          rw [Function.update_of_ne hne] at hi
          exact firstFree_update_live (H i hi) (Ne.symm hne) rfl

theorem TombstoneFirst.rehash {new : Fin c → HashEntry K V}
    (h : HashMap.rehash f m hc = some new) : TombstoneFirst f hc new := by
  refine Loop.foldlM_preserves (fun _ T => TombstoneFirst f hc T) ?_ ?_ h
  · intro i hi
    cases hi
  · intro _ _ _ _ H hstep
    exact H.rehashEntry hstep

/-- So there is at most one. -/
theorem TombstoneFirst.countSlots_le (H : TombstoneFirst f hc T) :
    Probe.countSlots HashEntry.isDeleted T ≤ 1 := by
  refine Probe.countSlots_le_one ?_
  intro i j hi hj
  have hfirst := (H i (HashEntry.isDeleted_iff.mp hi)).symm.trans
    (H j (HashEntry.isDeleted_iff.mp hj))
  exact Option.some.inj hfirst

end TombstoneFirst

/-- The new table of a resize is what its loop leaves. -/
theorem rehash_of_resize (hlt : m.liveSlots < c) (ha : a.table c = true) {hc : 0 < c}
    {new : Fin c → HashEntry K V} {errno : Option Errno} {result : ℤ}
    (h : resize f a m c = some ⟨result, errno, ⟨c, hc, new, m.count⟩⟩) :
    rehash f m hc = some new := by
  obtain ⟨new', hnew', -⟩ := rehash_spec (f := f) hc hlt
  simp only [resize, dif_neg hc.ne', ha, hnew', Bool.not_true, Bool.false_eq_true, if_false,
    Option.bind_eq_bind, Option.bind_some, Option.pure_def, Option.some.injEq,
    Result.mk.injEq, HashMap.mk.injEq, heq_eq_eq, true_and, and_true] at h
  rw [hnew', h.2.2]

/-- A resize leaves all slots empty but those of the live entries and one more. -/
theorem resize_emptySlots (hlt : m.liveSlots < c) {r : Result K V}
    (h : resize f a m c = some r) (hok : r.errno ≠ some .ENOMEM) :
    r.map.capacity = c ∧ r.map.count = m.count ∧ c ≤ r.map.emptySlots + m.liveSlots + 1 := by
  rcases resize_cases (f := f) a hlt with ⟨-, hr⟩ | ⟨ha, hc, new, hr, R⟩
  · obtain rfl := Option.some.inj (h.symm.trans hr)
    exact absurd rfl hok
  · obtain rfl := Option.some.inj (h.symm.trans hr)
    refine ⟨rfl, rfl, ?_⟩
    have hone := (TombstoneFirst.rehash (rehash_of_resize hlt ha hr)).countSlots_le
    have hsplit := Probe.countSlots_add_not HashEntry.isOccupied new
    have hlive : Probe.countSlots HashEntry.isLive new = m.liveSlots := R.count_eq
    have hocc : Probe.countSlots HashEntry.isOccupied new ≤
        Probe.countSlots HashEntry.isLive new + Probe.countSlots HashEntry.isDeleted new :=
      Probe.countSlots_le_add fun _ => HashEntry.isLive_or_isDeleted
    change c ≤ Probe.countSlots (fun e => !e.isOccupied) new + m.liveSlots + 1
    omega

/-! ## Calls and runs -/

/-- The calls that can take an empty slot. -/
def Op.puts : Op K V → ℕ
  | .put _ _ => 1
  | .get _ => 0
  | .remove _ => 0

/-- The number of puts among some calls. -/
def puts (calls : List (Op K V × Allocs)) : ℕ := (calls.map fun c => c.1.puts).sum

@[simp] theorem puts_cons (c : Op K V × Allocs) (calls : List (Op K V × Allocs)) :
    puts (c :: calls) = c.1.puts + puts calls := by simp [puts]

/-- After the load test a put takes at most one empty slot. -/
theorem putEntry_emptySlots (H : Load m) {r : Result K V}
    (h : putEntry f a m key value = some r) : m.emptySlots ≤ r.map.emptySlots + 1 := by
  rcases putEntry_ends f H a key value with ⟨i, -, he⟩ | ⟨i, -, hfree, he⟩ | ⟨-, he⟩
  · obtain rfl := Option.some.inj (he.symm.trans h)
    exact emptySlots_le_setEntry i _
  · obtain rfl := Option.some.inj (he.symm.trans h)
    rcases putNew_cases a (firstFree_not_isLive hfree) key value with ⟨-, hn⟩ | ⟨-, e, -, hn⟩
    · rw [hn]
      exact emptySlots_le_setEntry i _
    · rw [hn]
      exact emptySlots_le_setEntry i _
  · cases he.symm.trans h

/-- A removal takes no empty slot. -/
theorem emptySlots_tombstoneAt {i : Fin m.capacity} (hi : (m.entries i).isLive) :
    (m.tombstoneAt i).emptySlots = m.emptySlots := by
  refine Probe.countSlots_update_same ?_
  rw [HashEntry.isOccupied_of_isLive hi]
  rfl

/-- The doubled table. -/
theorem grown_emptySlots (H : Load m) (hgrow : ¬ growthFails a m)
    (hload : 3 * m.capacity ≤ 4 * m.count) :
    2 * m.capacity ≤ (m.grown f a).emptySlots + m.liveSlots + 1 := by
  have hlt : m.liveSlots < m.capacity * 2 := by have := H.liveSlots_lt; omega
  rcases resize_cases (f := f) a hlt with ⟨ha, -⟩ | ⟨-, hc, new, hr, -⟩
  · exact absurd ⟨hload, ha⟩ hgrow
  · obtain ⟨-, -, hempty⟩ := resize_emptySlots hlt hr nofun
    have hgrown : m.grown f a = ⟨m.capacity * 2, hc, new, m.count⟩ := by
      simp only [grown, if_pos hload, H.double_mod, hr]
    rw [hgrown, Nat.mul_comm]
    exact hempty

/-- A put that doubles the table. -/
theorem put_emptySlots (H : Load m) {r : Result K V}
    (h : put f a m (some key) (some value) = some r) (hok : r.errno ≠ some .ENOMEM) :
    (¬ 3 * m.capacity ≤ 4 * m.count → m.emptySlots ≤ r.map.emptySlots + 1) ∧
    (3 * m.capacity ≤ 4 * m.count → r.map.capacity ≤ 2 * r.map.emptySlots + 2) := by
  rcases put_cases (f := f) H a key value with ⟨-, hr⟩ | ⟨hgrow, hr⟩
  · obtain rfl := Option.some.inj (hr.symm.trans h)
    exact absurd rfl hok
  · have hput := hr.symm.trans h
    obtain ⟨hL, -⟩ := grown_spec (f := f) H hgrow
    have hone := putEntry_emptySlots hL hput
    constructor
    · intro hroom
      rwa [grown, if_neg hroom] at hone
    · intro hload
      have hcap := (putEntry_sizes hL hput).1
      have hempty := grown_emptySlots (f := f) H hgrow hload
      have hmin := H.le_capacity
      have hle := H.load_le
      rw [grown_capacity H hgrow, if_pos hload] at hcap
      rw [← H.count_eq] at hempty
      simp only [minimumCapacity] at hmin
      omega

/-- What a call does to the empty slots: it takes at most one and is a put, or it resizes the
table and leaves almost half of it empty. -/
theorem call_emptySlots (H : Load m) {c : Op K V × Allocs} (h : Granted f m c m') :
    (¬ Triggers f m c.1 → m.emptySlots ≤ m'.emptySlots + c.1.puts) ∧
    (Triggers f m c.1 → m'.capacity ≤ 2 * m'.emptySlots + 2) := by
  obtain ⟨o, hcall, hok⟩ := h
  obtain ⟨op, a⟩ := c
  cases op with
  | get key =>
      rw [call_get] at hcall
      obtain ⟨-, rfl⟩ := Prod.mk.inj (Option.some.inj hcall)
      exact ⟨fun _ => le_refl _, fun htrig => htrig.elim⟩
  | put key value =>
      obtain ⟨r, hput, heq⟩ := Option.bind_eq_some_iff.mp hcall
      obtain ⟨rfl, rfl⟩ := Prod.mk.inj (Option.some.inj heq)
      exact put_emptySlots H hput hok
  | remove key =>
      rcases remove_cases (f := f) a m key with ⟨i, hi, hr⟩ | ⟨hmiss, hr⟩
      · have hlive := HashEntry.isLive_of_matchesKey (matchesKey_of_findSlot hi)
        have hsame := emptySlots_tombstoneAt hlive
        have H' := H.tombstoneAt hlive
        by_cases hsparse : (m.tombstoneAt i).Sparse
        · refine ⟨fun hquiet => absurd ⟨i, hi, hsparse⟩ hquiet, fun _ => ?_⟩
          obtain ⟨hshrunk, ⟨j, hj⟩, hlt⟩ := H'.half hsparse.1 hsparse.2.2
          obtain ⟨r, hremove, heq⟩ := Option.bind_eq_some_iff.mp hcall
          obtain ⟨rfl, rfl⟩ := Prod.mk.inj (Option.some.inj heq)
          rw [hr, shrink_of_sparse hsparse, hshrunk] at hremove
          obtain ⟨r', hresize, rfl⟩ := Option.map_eq_some_iff.mp hremove
          obtain ⟨hcap, -, hempty⟩ := resize_emptySlots hlt hresize hok
          have hfew := hsparse.2.2
          rw [← H'.count_eq] at hempty
          change r'.map.capacity ≤ 2 * r'.map.emptySlots + 2
          omega
        · refine ⟨fun _ => ?_, ?_⟩
          · rw [shrink_of_not_sparse hsparse] at hr
            rw [call_remove hr] at hcall
            obtain ⟨-, rfl⟩ := Prod.mk.inj (Option.some.inj hcall)
            exact hsame.ge
          · rintro ⟨j, hj, hsparse'⟩
            obtain rfl := Option.some.inj (hi.symm.trans hj)
            exact absurd hsparse' hsparse
      · rw [call_remove hr] at hcall
        obtain ⟨-, rfl⟩ := Prod.mk.inj (Option.some.inj hcall)
        refine ⟨fun _ => le_refl _, ?_⟩
        rintro ⟨j, hj, -⟩
        rw [hmiss] at hj
        cases hj

/-- Calls that do not resize the table take at most as many empty slots as there are puts. -/
theorem run_emptySlots {calls : List (Op K V × Allocs)} {os : List (Seen V)} (H : Load m)
    (hrun : Transition.exec (call f) m calls = some (os, m'))
    (hok : ∀ o ∈ os, o.errno ≠ some .ENOMEM)
    (hquiet : Transition.Along (fun m c => ¬ Triggers f m c.1) (call f) m calls) :
    m.emptySlots ≤ m'.emptySlots + puts calls := by
  induction calls generalizing m os with
  | nil =>
      obtain ⟨-, rfl⟩ := Prod.mk.inj (Option.some.inj hrun)
      exact le_refl _
  | cons c calls ih =>
      obtain ⟨o, m₁, os', m₂, hcall, hrest, heq⟩ := Transition.exec_cons_eq_some.mp hrun
      obtain ⟨rfl, rfl⟩ := Prod.mk.inj heq
      obtain ⟨hc, hquiet'⟩ := (Transition.along_cons hcall).mp hquiet
      have hgrant : Granted f m c m₁ := ⟨o, hcall, hok o (by simp)⟩
      have hone := (call_emptySlots H hgrant).1 hc
      have hmany := ih (hgrant.load H) hrest (fun o' ho' => hok o' (by simp [ho'])) hquiet'
      rw [puts_cons]
      omega

/-- **The empty slots last until enough puts were made.**  In every map reached without a failed
allocation: some slot is not live.  A search that finds nothing stops at an empty slot, and
comes back to its start only when there is none.  A created table is empty and a resized one
almost half empty; as long as no call resizes it, fewer puts than it has empty slots leave
one. -/
theorem empty_slots_last (h : Transition.Reachable (Created f) (Granted f) m) :
    (∃ i, (m.entries i).isLive = false) ∧
    (∀ key, find f m key = some none →
      (∃ i, searchLoop f m key (m.home f key) m.capacity (m.home f key) = some (.empty i) ∧
        (m.entries i).key = none) ∨
      (searchLoop f m key (m.home f key) m.capacity (m.home f key) = some .circled ∧
        ∀ i, (m.entries i).key ≠ none)) ∧
    (Created f m → m.emptySlots = 16) ∧
    (∀ c m', Granted f m c m' → Triggers f m c.1 → m'.capacity ≤ 2 * m'.emptySlots + 2) ∧
    ∀ calls os m', Transition.exec (call f) m calls = some (os, m') →
      (∀ o ∈ os, o.errno ≠ some .ENOMEM) →
      Transition.Along (fun m c => ¬ Triggers f m c.1) (call f) m calls →
      puts calls < m.emptySlots → ∃ i, (m'.entries i).key = none := by
  have H := load_of_granted h
  refine ⟨Probe.exists_not_of_countSlots_lt H.liveSlots_lt, ?_, ?_, ?_, ?_⟩
  · intro key hfind
    rw [find_eq] at hfind
    rw [searchLoop_eq]
    rcases searchEnd_of_miss (Option.some.inj hfind) with ⟨i, hend, hi⟩ | ⟨hend, hall⟩
    · exact .inl ⟨i, by rw [hend], hi⟩
    · refine .inr ⟨by rw [hend], fun i hi => ?_⟩
      have hocc := hall i
      rw [HashEntry.isOccupied, hi] at hocc
      cases hocc
  · rintro ⟨keySize, valueSize, mallocMap, a, hs⟩
    rw [create_eq_some hs]
    rfl
  · intro c m' hgrant
    exact (call_emptySlots H hgrant).2
  · intro calls os m' hrun hok hquiet hputs
    have hmany := run_emptySlots H hrun hok hquiet
    exact emptySlots_pos.mp (by omega)

/-- Thirteen PIDs with one home slot have doubled the table, and four of them are gone.  The
search for the first stops at an empty slot behind four tombstones and nine keys; the removal
of a fifth halves the table and leaves it at least seven empty slots. -/
theorem empty_slots_last_halved :
    let pid (i : Fin 13) : { pid : BitVec 32 // pid ≠ 0 } :=
      ⟨BitVec.ofNat 32 (32 * (i + 1)), by revert i; decide⟩
    ∃ (m m' : HashMap { pid : BitVec 32 // pid ≠ 0 } ℕ), m.capacity = 32 ∧ m.count = 9 ∧
      Probe.countSlots HashEntry.isDeleted m.entries = 4 ∧
      (∃ i, searchLoop (intCallbacks 0) m (pid 0) (m.home (intCallbacks 0) (pid 0)) m.capacity
        (m.home (intCallbacks 0) (pid 0)) = some (.empty i) ∧ (m.entries i).key = none) ∧
      Granted (intCallbacks 0) m (.remove (pid 4), ⟨true, true, true⟩) m' ∧
      m'.capacity = 16 ∧ 7 ≤ m'.emptySlots := by
  intro pid
  let calls : List (Op { pid : BitVec 32 // pid ≠ 0 } ℕ × Allocs) :=
    (List.finRange 13).map (fun i => (.put (pid i) i.val, ⟨true, true, true⟩)) ++
      [(.remove (pid 0), ⟨true, true, true⟩), (.remove (pid 1), ⟨true, true, true⟩),
        (.remove (pid 2), ⟨true, true, true⟩), (.remove (pid 3), ⟨true, true, true⟩)]
  let last : Op { pid : BitVec 32 // pid ≠ 0 } ℕ × Allocs := (.remove (pid 4), ⟨true, true, true⟩)
  have hcalls : (Transition.exec (call (intCallbacks 0)) empty calls).map (fun r =>
      (r.2.capacity, r.2.count, Probe.countSlots HashEntry.isDeleted r.2.entries,
        r.2.emptySlots, (r.2.findSlot (intCallbacks 0) (pid 0)).isSome)) =
        some (32, 9, 4, 19, false) := by decide +kernel
  have hlast : (Transition.exec (call (intCallbacks 0)) empty calls).bind (fun r =>
      (call (intCallbacks 0) r.2 last).map fun p => (decide (Grants r.2 last),
        (r.2.findSlot (intCallbacks 0) (pid 4)).any fun i => decide (r.2.tombstoneAt i).Sparse,
        p.2.capacity)) = some (true, true, 16) := by decide +kernel
  obtain ⟨⟨os, m⟩, hrun, hseen⟩ := Option.map_eq_some_iff.mp hcalls
  simp only [Prod.mk.injEq] at hseen
  obtain ⟨hcapacity, hcount, hdeleted, hempty, hmiss⟩ := hseen
  have hreach := granted_of_exec hrun (by decide +kernel)
  rw [hrun, Option.bind_some] at hlast
  obtain ⟨⟨o, m'⟩, hcall, hseen⟩ := Option.map_eq_some_iff.mp hlast
  simp only [Prod.mk.injEq, decide_eq_true_eq, Option.any_eq_true] at hseen
  obtain ⟨hgrants, htriggers, hcapacity'⟩ := hseen
  have hgranted := hgrants.granted (load_of_granted hreach) hcall
  obtain ⟨-, hsearch, -, hresized, -⟩ := empty_slots_last hreach
  have hslot : m.findSlot (intCallbacks 0) (pid 0) = none := by simpa using hmiss
  have hhalf := hresized last m' hgranted htriggers
  refine ⟨m, m', hcapacity, hcount, hdeleted, ?_, hgranted, hcapacity', by omega⟩
  rcases hsearch (pid 0) (by rw [find_eq, hslot]) with hstop | ⟨-, hfull⟩
  · exact hstop
  · obtain ⟨i, hi⟩ := emptySlots_pos.mp (show 0 < m.emptySlots by omega)
    exact absurd hi (hfull i)

/-- Sixteen processes that come and go one after the other leave no empty slot, and the search
for a seventeenth comes back to its start. -/
theorem churn_fills_table :
    ∃ (m : HashMap { pid : BitVec 32 // pid ≠ 0 } ℕ) (key : { pid : BitVec 32 // pid ≠ 0 }),
      Transition.Reachable (Created (intCallbacks 0)) (Granted (intCallbacks 0)) m ∧
      (∀ i, (m.entries i).key ≠ none) ∧ find (intCallbacks 0) m key = some none ∧
      searchLoop (intCallbacks 0) m key (m.home (intCallbacks 0) key) m.capacity
        (m.home (intCallbacks 0) key) = some .circled := by
  let pid (i : Fin 17) : { pid : BitVec 32 // pid ≠ 0 } :=
    ⟨BitVec.ofNat 32 (i + 1), by revert i; decide⟩
  let comeAndGo (i : Fin 16) : List (Op { pid : BitVec 32 // pid ≠ 0 } ℕ × Allocs) :=
    [(.put (pid i.castSucc) i, ⟨true, true, true⟩),
      (.remove (pid i.castSucc), ⟨true, true, true⟩)]
  have hcalls : (Transition.exec (call (intCallbacks 0)) empty
      ((List.finRange 16).flatMap comeAndGo)).map (fun r =>
      (r.2.emptySlots, (r.2.findSlot (intCallbacks 0) (pid 16)).isSome)) =
        some (0, false) := by decide +kernel
  obtain ⟨⟨os, m⟩, hrun, hseen⟩ := Option.map_eq_some_iff.mp hcalls
  simp only [Prod.mk.injEq] at hseen
  obtain ⟨hempty, hmiss⟩ := hseen
  have hslot : m.findSlot (intCallbacks 0) (pid 16) = none := by simpa using hmiss
  have hfull : ∀ i, (m.entries i).key ≠ none := by
    intro i hi
    have hpos := emptySlots_pos.mpr ⟨i, hi⟩
    omega
  refine ⟨m, pid 16, granted_of_exec hrun (by decide +kernel), hfull, ?_, ?_⟩
  · rw [find_eq, hslot]
  · rw [searchLoop_eq]
    rcases searchEnd_of_miss hslot with ⟨i, -, hi⟩ | ⟨hend, -⟩
    · exact absurd hi (hfull i)
    · rw [hend]

end HashMap
end Ctm
