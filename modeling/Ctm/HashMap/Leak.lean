import Ctm.HashMap.Memory
import Ctm.Lib.Loop
import Mathlib.Algebra.BigOperators.Fin
import Mathlib.Algebra.BigOperators.Group.Finset.Piecewise
import Mathlib.Tactic.Abel

/-!
# What the hash map gives back

Every block that `core/hash_map.c` takes is released once, but for one kind: the value
block of a removed entry.  `hash_map_remove` releases the key block and overwrites the only
pointer to the value block.  So the outstanding blocks of a run are those of the map, of
its table and of its live entries, and one more for each remove that found its key;
`hash_map_free` returns the former.

## Main definitions

* `Accounted` — the blocks outstanding are those of the map and some forgotten ones.
* `call_accounted` — a call does to the contents what it does without the ledger, and
  forgets a block exactly when it is a remove that finds its key.
* `memory_returned_iff` — the same of a run, and of `hash_map_free` after it.
-/

namespace Ctm
variable {K V : Type} {f : Callbacks K} {c : ℕ}

/-! ## Reading through the pointers -/

namespace HashEntry
variable {e : HashEntry (Owned K) (Owned V)}

@[simp] theorem isLive_deref (e : HashEntry (Owned K) (Owned V)) : e.deref.isLive = e.isLive := by
  obtain ⟨key, value⟩ := e
  cases key with
  | none => rfl
  | some p => cases p <;> rfl

theorem blocks_of_not_isLive (h : e.isLive = false) : e.blocks = 0 := by
  obtain ⟨key, value⟩ := e
  cases key with
  | none => rfl
  | some p =>
      cases p with
      | tombstone => rfl
      | block k => cases h

/-- A live entry that holds a value is two blocks. -/
theorem blocks_eq {k : Owned K} {v : Owned V} (hk : e.key = some (.block k))
    (hv : e.value = some v) : e.blocks = k.block ::ₘ {v.block} := by
  obtain ⟨key, value⟩ := e
  obtain rfl : key = some (.block k) := hk
  obtain rfl : value = some v := hv
  rfl

/-- The block of a key that is seen through the pointer. -/
theorem key_of_deref {k : K} (h : e.deref.key = some (.block k)) :
    ∃ b, e.key = some (.block ⟨b, k⟩) := by
  obtain ⟨p, hp, hpk⟩ := Option.map_eq_some_iff.mp h
  cases p with
  | tombstone => cases hpk
  | block o =>
      obtain rfl := KeyPtr.block.inj hpk
      exact ⟨o.block, hp⟩

theorem value_of_deref {v : V} (h : e.deref.value = some v) : ∃ b, e.value = some ⟨b, v⟩ := by
  obtain ⟨o, ho, rfl⟩ := Option.map_eq_some_iff.mp h
  exact ⟨o.block, ho⟩

end HashEntry

namespace HashMap
variable {m : HashMap (Owned K) (Owned V)} {T : Fin c → HashEntry (Owned K) (Owned V)} {i : Fin c}
  {e : HashEntry (Owned K) (Owned V)}

theorem deref_update (T : Fin c → HashEntry (Owned K) (Owned V)) (i : Fin c)
    (e : HashEntry (Owned K) (Owned V)) :
    (fun j => (Function.update T i e j).deref) = Function.update (fun j => (T j).deref) i e.deref :=
  funext fun j => Function.apply_update (fun _ => HashEntry.deref) T i e j

theorem deref_setEntry (m : HashMap (Owned K) (Owned V)) (i : Fin m.capacity)
    (e : HashEntry (Owned K) (Owned V)) : (m.setEntry i e).deref = m.deref.setEntry i e.deref := by
  rw [deref, setEntry]
  simp only [deref_update]
  rfl

theorem deref_insertAt (m : HashMap (Owned K) (Owned V)) (i : Fin m.capacity) (k : Owned K)
    (v : Owned V) : (m.insertAt i k v).deref = m.deref.insertAt i k.val v.val :=
  congrArg (fun n : HashMap K V => { n with count := m.count + 1 }) (deref_setEntry m i _)

theorem deref_tombstoneAt (m : HashMap (Owned K) (Owned V)) (i : Fin m.capacity) :
    (m.tombstoneAt i).deref = m.deref.tombstoneAt i :=
  congrArg (fun n : HashMap K V => { n with count := m.count - 1 }) (deref_setEntry m i _)

theorem liveSlots_deref (m : HashMap (Owned K) (Owned V)) : m.deref.liveSlots = m.liveSlots := by
  rw [liveSlots, liveSlots, Probe.countSlots, Probe.countSlots]
  congr 1
  refine Finset.filter_congr fun i _ => ?_
  change (m.entries i).deref.isLive = true ↔ _
  rw [HashEntry.isLive_deref]

theorem freeSlot_deref (T : Fin c → HashEntry (Owned K) (Owned V)) (i : Fin c) :
    ∀ fuel, freeSlot (fun j => (T j).deref) fuel i = freeSlot T fuel i := by
  intro fuel
  induction fuel generalizing i with
  | zero => rfl
  | succ fuel ih =>
      rw [freeSlot, freeSlot, HashEntry.isLive_deref, ih]

theorem rehashEntry_deref (f : Callbacks K) (hc : 0 < c)
    (new : Fin c → HashEntry (Owned K) (Owned V)) (old : HashEntry (Owned K) (Owned V)) :
    rehashEntry f hc (fun j => (new j).deref) old.deref =
      (rehashEntry f.owned hc new old).map fun T j => (T j).deref := by
  obtain ⟨key, value⟩ := old
  cases key with
  | none => rfl
  | some k =>
      change (freeSlot (fun j => (new j).deref) c (slotOf hc (f.hashFunc k.deref))).bind _ =
        ((freeSlot new c (slotOf hc (f.hashFunc k.deref))).bind _).map _
      rw [freeSlot_deref]
      cases freeSlot new c (slotOf hc (f.hashFunc k.deref)) with
      | none => rfl
      | some index => exact congrArg some (deref_update new index ⟨some k, value⟩).symm

/-- A rehash moves the blocks as it moves their contents. -/
theorem rehash_deref (f : Callbacks K) (m : HashMap (Owned K) (Owned V)) (hc : 0 < c) :
    rehash f m.deref hc = (rehash f.owned m hc).map fun T j => (T j).deref :=
  Loop.foldlM_view (f := fun new i => rehashEntry f.owned hc new (m.entries i))
    (g := fun new i => rehashEntry f hc new (m.deref.entries i)) (fun T j => (T j).deref)
    (fun new i => rehashEntry_deref f hc new (m.entries i)) _ fun _ => .null

/-! ## The blocks of a table -/

/-- Overwriting a slot trades its blocks for those of the new entry. -/
theorem tableBlocks_update (T : Fin c → HashEntry (Owned K) (Owned V)) (i : Fin c)
    (e : HashEntry (Owned K) (Owned V)) :
    tableBlocks (Function.update T i e) + (T i).blocks = e.blocks + tableBlocks T := by
  have hupdate : (fun j => (Function.update T i e j).blocks) =
      Function.update (fun j => (T j).blocks) i e.blocks :=
    funext fun j => Function.apply_update (fun _ => HashEntry.blocks) T i e j
  rw [tableBlocks, tableBlocks, hupdate, Finset.sum_update_of_mem (Finset.mem_univ i),
    Finset.sum_eq_add_sum_sdiff_singleton_of_mem (Finset.mem_univ i) fun j => (T j).blocks]
  abel

theorem tableBlocks_update_dead (hi : (T i).isLive = false) :
    tableBlocks (Function.update T i e) = e.blocks + tableBlocks T := by
  have h := tableBlocks_update T i e
  rwa [HashEntry.blocks_of_not_isLive hi, add_zero] at h

theorem tableBlocks_update_same (he : e.blocks = (T i).blocks) :
    tableBlocks (Function.update T i e) = tableBlocks T := by
  have h := tableBlocks_update T i e
  rw [he, add_comm] at h
  exact add_left_cancel h

/-- A rehash loses no block and doubles none. -/
theorem tableBlocks_rehash {hc : 0 < c} (h : rehash f.owned m hc = some T) :
    tableBlocks T = tableBlocks m.entries := by
  have hsum : tableBlocks T =
      ((List.finRange m.capacity).map fun i => (m.entries i).blocks).sum := by
    refine Loop.foldlM_preserves
      (fun done T => tableBlocks T = (done.map fun i => (m.entries i).blocks).sum) ?_ ?_ h
    · exact Finset.sum_eq_zero fun _ _ => rfl
    · intro done i T T' hT hstep
      rw [List.map_append, List.sum_append, List.map_singleton, List.sum_singleton, ← hT]
      rw [rehashEntry] at hstep
      cases hkey : (m.entries i).key with
      | none =>
          rw [hkey] at hstep
          obtain rfl := Option.some.inj hstep
          rw [HashEntry.blocks_of_not_isLive (by simp [HashEntry.isLive, hkey]), add_zero]
      | some k =>
          rw [hkey] at hstep
          obtain ⟨j, hj, hstep⟩ := Option.bind_eq_some_iff.mp hstep
          obtain rfl := Option.some.inj hstep
          rw [freeSlot_eq_firstFree] at hj
          rw [tableBlocks_update_dead (firstFree_not_isLive hj), add_comm, ← hkey]
  rw [hsum, tableBlocks, Fin.sum_univ_def]

end HashMap

namespace HeapMap
open HashMap (Load tableBlocks)
variable {s s' : HeapMap K V} {L L' : Ledger} {leaked rest : Multiset ℕ} {a : Allocs} {key : K}
  {value : V}

/-- The result without the ledger. -/
def Result.view (r : Result K V) : HashMap.Result K V := ⟨r.ret, r.errno, r.map.view⟩

/-- The map keeps its load, and the blocks outstanding are its own and the `leaked` ones. -/
structure Accounted (s : HeapMap K V) (L : Ledger) (leaked : Multiset ℕ) : Prop where
  load : Load s.view
  owns : L.Owns (s.blocks + leaked)

/-! ## The operations -/

/-- Overwriting a slot of the map. -/
theorem blocks_withTable {T : HashMap (Owned K) (Owned V)} {bs : Multiset ℕ}
    (h : tableBlocks T.entries = bs + tableBlocks s.table.entries) :
    (s.withTable T).blocks = bs + s.blocks := by
  rw [blocks, blocks]
  change s.block ::ₘ s.tableBlock ::ₘ tableBlocks T.entries = _
  rw [h, Multiset.add_cons, Multiset.add_cons]

/-- `hash_map_resize` trades one table for another. -/
theorem resize_owns (f : Callbacks K) (a : Allocs) (hO : L.Owns (s.blocks + leaked))
    {newCapacity : ℕ} (hlt : s.view.liveSlots < newCapacity) :
    ∃ r, resize f a s L newCapacity = some r ∧
      HashMap.resize f a s.view newCapacity = some r.view ∧
      r.ledger.Owns (r.map.blocks + leaked) := by
  have hpos : newCapacity ≠ 0 := by omega
  rw [resize, HashMap.resize, dif_neg hpos, dif_neg hpos]
  cases a.table newCapacity with
  | false => exact ⟨_, rfl, rfl, hO⟩
  | true =>
      obtain ⟨b, L₁, hmalloc, hL₁⟩ := hO.malloc
      obtain ⟨T, hT, -⟩ := HashMap.rehash_spec (f := f.owned) (m := s.table)
        (Nat.pos_of_ne_zero hpos) (lt_of_eq_of_lt (HashMap.liveSlots_deref s.table).symm hlt)
      have hview := HashMap.rehash_deref f s.table (Nat.pos_of_ne_zero hpos)
      rw [hT] at hview
      -- The old table is among the blocks owned.
      have hswap : b ::ₘ (s.blocks + leaked) =
          s.tableBlock ::ₘ (s.block ::ₘ b ::ₘ tableBlocks T + leaked) := by
        rw [HashMap.tableBlocks_rehash hT, blocks]
        simp only [← Multiset.singleton_add]
        abel
      rw [hswap] at hL₁
      obtain ⟨L₂, hfree, hL₂⟩ := hL₁.free
      simp only [hmalloc, hT, hfree]
      refine ⟨_, rfl, ?_, hL₂⟩
      change ((s.table.deref).rehash f _).bind _ = _
      rw [hview]
      rfl

/-- A new entry takes a key block and a value block, or gives back what it took. -/
theorem putNew_owns (a : Allocs) (hO : L.Owns (s.blocks + leaked)) {i : Fin s.table.capacity}
    (hi : (s.table.entries i).isLive = false) (key : K) (value : V) :
    ∃ r, putNew a s L i key value = some r ∧
      HashMap.putNew a s.view i key value = r.view ∧ r.ledger.Owns (r.map.blocks + leaked) := by
  have hview : (s.view.entries i).isLive = false := (HashEntry.isLive_deref _).trans hi
  have hclear : ∀ e : HashEntry (Owned K) (Owned V), e.key = none →
      (s.withTable (s.table.setEntry i e)).blocks = s.blocks := by
    intro e he
    have hdead : e.isLive = false := by simp [HashEntry.isLive, he]
    refine (blocks_withTable (HashMap.tableBlocks_update_dead hi)).trans ?_
    rw [HashEntry.blocks_of_not_isLive hdead, zero_add]
  have hlive : ¬ (s.table.entries i).isLive := by rw [hi]; exact Bool.false_ne_true
  unfold putNew HashMap.putNew
  rw [hview, if_neg hlive]
  cases a.mallocKey with
  | false =>
      let e : HashEntry (Owned K) (Owned V) := { s.table.entries i with key := none }
      refine ⟨_, rfl, ?_, ?_⟩
      · exact congrArg (HashMap.Result.mk (-1) (some .ENOMEM)) (HashMap.deref_setEntry _ i e).symm
      · exact (hclear e rfl).symm ▸ hO
  | true =>
      obtain ⟨kb, L₁, hkey, hL₁⟩ := hO.malloc
      simp only [hkey]
      cases a.mallocValue with
      | false =>
          obtain ⟨L₂, hfree, hL₂⟩ := hL₁.free
          simp only [Ledger.malloc_refused, hfree]
          refine ⟨_, rfl, ?_, ?_⟩
          · exact congrArg (HashMap.Result.mk (-1) (some .ENOMEM))
              (HashMap.deref_setEntry _ i HashEntry.null).symm
          · exact (hclear HashEntry.null rfl).symm ▸ hL₂
      | true =>
          obtain ⟨vb, L₂, hvalue, hL₂⟩ := hL₁.malloc
          simp only [hvalue]
          refine ⟨_, rfl, ?_, ?_⟩
          · exact congrArg (HashMap.Result.mk 0 none)
              (HashMap.deref_insertAt _ i ⟨kb, key⟩ ⟨vb, value⟩).symm
          · have hblocks : (s.withTable (s.table.insertAt i ⟨kb, key⟩ ⟨vb, value⟩)).blocks =
                (kb ::ₘ {vb}) + s.blocks :=
              blocks_withTable (HashMap.tableBlocks_update_dead hi)
            change L₂.Owns ((s.withTable _).blocks + leaked)
            rw [hblocks]
            have hswap : kb ::ₘ {vb} + s.blocks + leaked = vb ::ₘ kb ::ₘ (s.blocks + leaked) := by
              simp only [← Multiset.singleton_add]
              abel
            rw [hswap]
            exact hL₂

/-- After the load test a put updates a value in its block, or makes a new entry. -/
theorem putEntry_owns (hf : f.SkipsTombstone) (H : Accounted s L leaked) (a : Allocs) (key : K)
    (value : V) :
    ∃ r, putEntry f a s L key value = some r ∧
      HashMap.putEntry f a s.view key value = some r.view ∧
      r.ledger.Owns (r.map.blocks + leaked) := by
  obtain ⟨probe, hprobe, hends⟩ := HashMap.putLoop_cases hf s.view key
  cases probe with
  | found i =>
      -- The entry found is live, so its value is in a block of its own.
      obtain ⟨k, hk, -⟩ := HashEntry.matchesKey_iff.mp (HashMap.matchesKey_of_findSlot hends)
      obtain ⟨v, hv⟩ := H.load.valued.block i k hk
      obtain ⟨kb, hkb⟩ := HashEntry.key_of_deref hk
      obtain ⟨vb, hvb⟩ := HashEntry.value_of_deref hv
      let e : HashEntry (Owned K) (Owned V) :=
        { s.table.entries i with value := some ⟨vb, value⟩ }
      have hblocks : e.blocks = (s.table.entries i).blocks :=
        (HashEntry.blocks_eq (e := e) hkb rfl).trans (HashEntry.blocks_eq hkb hvb).symm
      refine ⟨⟨0, none, s.withTable (s.table.setEntry i e), L⟩,
        Option.bind_eq_some_iff.mpr ⟨_, hprobe, Option.bind_eq_some_iff.mpr ⟨_, hvb, rfl⟩⟩,
        Option.bind_eq_some_iff.mpr ⟨_, hprobe, Option.bind_eq_some_iff.mpr ⟨_, hv, ?_⟩⟩, ?_⟩
      · exact congrArg (fun m => some (HashMap.Result.mk 0 none m))
          (HashMap.deref_setEntry _ i e).symm
      · have hsame : (s.withTable (s.table.setEntry i e)).blocks = 0 + s.blocks :=
          blocks_withTable ((HashMap.tableBlocks_update_same hblocks).trans (zero_add _).symm)
        change L.Owns ((s.withTable (s.table.setEntry i e)).blocks + leaked)
        rw [hsame, zero_add]
        exact H.owns
  | absent i ft =>
      obtain ⟨-, hslot⟩ := hends
      obtain ⟨j, hj⟩ := HashMap.firstFree_isSome H.load.liveSlots_lt (s.view.home f key)
      rw [hj, Option.getD_some] at hslot
      have hdead : (s.table.entries j).isLive = false :=
        (HashEntry.isLive_deref _).symm.trans (HashMap.firstFree_not_isLive hj)
      obtain ⟨r, hr, hview, hO⟩ := putNew_owns a H.owns hdead key value
      rw [← hslot] at hr hview
      exact ⟨r, Option.bind_eq_some_iff.mpr ⟨_, hprobe, hr⟩,
        Option.bind_eq_some_iff.mpr ⟨_, hprobe, congrArg some hview⟩, hO⟩

/-- `hash_map_put` keeps the account. -/
theorem put_owns (hf : f.SkipsTombstone) (H : Accounted s L leaked) (a : Allocs) (key : K)
    (value : V) :
    ∃ r, put f a s L key value = some r ∧
      HashMap.put f a s.view (some key) (some value) = some r.view ∧
      r.ledger.Owns (r.map.blocks + leaked) := by
  unfold put HashMap.put
  change ∃ r, _ ∧ (if 3 * s.table.capacity ≤ 4 * s.table.count then _ else _) = _ ∧ _
  by_cases hload : 3 * s.table.capacity ≤ 4 * s.table.count
  · rw [if_pos hload, if_pos hload]
    have hlt : s.view.liveSlots < s.view.capacity * 2 := by
      have := H.load.liveSlots_lt
      omega
    obtain ⟨r, hr, hview, hO⟩ := resize_owns f a H.owns hlt
    have hmod : s.table.capacity * 2 % sizeMod = s.view.capacity * 2 := H.load.double_mod
    rw [hmod]
    have hview' : HashMap.resize f a s.view (s.view.capacity * 2 % sizeMod) = some r.view := by
      rw [H.load.double_mod]
      exact hview
    by_cases hret : r.ret = 0
    · have hgrow : ¬ HashMap.growthFails a s.view := by
        rintro ⟨-, ha⟩
        rcases HashMap.resize_cases (f := f) a hlt with ⟨-, hfail⟩ | ⟨ha', -⟩
        · have hret' : (0 : ℤ) = -1 := hret.symm.trans
            (congrArg HashMap.Result.ret (Option.some.inj (hview.symm.trans hfail)))
          exact absurd hret' (by decide)
        · exact Bool.noConfusion (ha.symm.trans ha')
      have hgrown : s.view.grown f a = r.map.view := by
        unfold HashMap.grown
        rw [if_pos (show 3 * s.view.capacity ≤ 4 * s.view.count from hload), hview']
        rfl
      have hload' : Load r.map.view := hgrown ▸ (HashMap.grown_spec (f := f) H.load hgrow).1
      obtain ⟨r', hr', hentry, hO'⟩ := putEntry_owns hf ⟨hload', hO⟩ a key value
      refine ⟨r', Option.bind_eq_some_iff.mpr ⟨r, hr, ?_⟩,
        Option.bind_eq_some_iff.mpr ⟨_, hview', ?_⟩, hO'⟩
      · rw [if_neg (not_not.mpr hret), hr']
      · rw [if_neg (not_not.mpr (show r.view.ret = 0 from hret))]
        exact hentry
    · refine ⟨{ r with ret := -1 }, Option.bind_eq_some_iff.mpr ⟨r, hr, ?_⟩,
        Option.bind_eq_some_iff.mpr ⟨_, hview', ?_⟩, hO⟩
      · rw [if_pos hret]
        rfl
      · rw [if_pos (show r.view.ret ≠ 0 from hret)]
        rfl
  · rw [if_neg hload, if_neg hload]
    exact putEntry_owns hf H a key value

/-- The end of `hash_map_remove` keeps the account. -/
theorem shrink_owns (f : Callbacks K) (H : Accounted s L leaked) (a : Allocs) :
    ∃ r, shrink f a s L = some r ∧ HashMap.shrink f a s.view = some r.view ∧
      r.ledger.Owns (r.map.blocks + leaked) := by
  unfold shrink HashMap.shrink
  change ∃ r, _ ∧ (if minimumCapacity < s.table.capacity ∧ 0 < s.table.count ∧
    4 * s.table.count ≤ s.table.capacity then _ else _) = _ ∧ _
  split
  · rename_i hcond
    obtain ⟨hshrunk, -, hlt⟩ := H.load.half hcond.1 hcond.2.2
    rw [← hshrunk] at hlt
    obtain ⟨r, hr, hview, hO⟩ := resize_owns f a H.owns hlt
    exact ⟨{ r with ret := 1 }, Option.bind_eq_some_iff.mpr ⟨r, hr, rfl⟩,
      Option.bind_eq_some_iff.mpr ⟨_, hview, rfl⟩, hO⟩
  · exact ⟨_, rfl, rfl, H.owns⟩

/-- **`hash_map_remove` forgets the value block of the entry it finds.** -/
theorem remove_owns (f : Callbacks K) (H : Accounted s L leaked) (a : Allocs) (key : K) :
    ∃ r lost, remove f a s L key = some r ∧ HashMap.remove f a s.view (some key) = some r.view ∧
      r.ledger.Owns (r.map.blocks + (lost + leaked)) ∧
      (lost = 0 ↔ HashMap.find f s.view key = some none) := by
  have hfind : HashMap.find f s.view key = some (s.view.findSlot f key) := HashMap.find_eq
  cases hslot : s.view.findSlot f key with
  | none =>
      rw [hslot] at hfind
      refine ⟨⟨0, none, s, L⟩, 0, Option.bind_eq_some_iff.mpr ⟨_, hfind, rfl⟩,
        Option.bind_eq_some_iff.mpr ⟨_, hfind, rfl⟩, ?_, iff_of_true rfl hfind⟩
      rw [zero_add]
      exact H.owns
  | some i =>
      rw [hslot] at hfind
      have hmatch := HashMap.matchesKey_of_findSlot hslot
      obtain ⟨k, hk, -⟩ := HashEntry.matchesKey_iff.mp hmatch
      obtain ⟨v, hv⟩ := H.load.valued.block i k hk
      obtain ⟨kb, hkb⟩ := HashEntry.key_of_deref hk
      obtain ⟨vb, hvb⟩ := HashEntry.value_of_deref hv
      -- The key block is released; the value block stays outstanding.
      have htomb : tableBlocks (s.table.tombstoneAt i).entries + (kb ::ₘ {vb}) =
          tableBlocks s.table.entries := by
        rw [← HashEntry.blocks_eq hkb hvb]
        exact (HashMap.tableBlocks_update _ i _).trans (zero_add _)
      have hswap : s.blocks + leaked =
          kb ::ₘ ((s.withTable (s.table.tombstoneAt i)).blocks + ({vb} + leaked)) := by
        rw [blocks, blocks, ← htomb]
        simp only [← Multiset.singleton_add]
        change _ = {kb} + ({s.block} + ({s.tableBlock} +
          tableBlocks (s.table.tombstoneAt i).entries) + ({vb} + leaked))
        abel
      have hO := H.owns
      rw [hswap] at hO
      obtain ⟨L₁, hfree, hL₁⟩ := hO.free
      have hview : (s.withTable (s.table.tombstoneAt i)).view = s.view.tombstoneAt i :=
        HashMap.deref_tombstoneAt _ i
      have H' : Accounted (s.withTable (s.table.tombstoneAt i)) L₁ ({vb} + leaked) :=
        ⟨hview ▸ H.load.tombstoneAt (HashEntry.isLive_of_matchesKey hmatch), hL₁⟩
      obtain ⟨r, hr, hrview, hrO⟩ := shrink_owns f H' a
      rw [hview] at hrview
      have hkey : freeKey L (s.table.entries i) = some L₁ := by
        rw [freeKey, hkb]
        exact hfree
      refine ⟨r, {vb}, Option.bind_eq_some_iff.mpr ⟨_, hfind, Option.bind_eq_some_iff.mpr
        ⟨L₁, hkey, hr⟩⟩, Option.bind_eq_some_iff.mpr ⟨_, hfind, hrview⟩, hrO, iff_of_false ?_ ?_⟩
      · exact Multiset.singleton_ne_zero vb
      · rw [hfind]
        exact nofun

/-! ## Calls and runs -/

/-- The call is not a `hash_map_remove` that finds its key. -/
def Misses (f : Callbacks K) (m : HashMap K V) : HashMap.Op K V × Allocs → Prop
  | (.remove key, _) => HashMap.find f m key = some none
  | _ => True

/-- **A call** acts on the contents as it does without the ledger, releases no block twice,
and forgets one exactly when it is a remove that finds its key. -/
theorem call_accounted (hf : f.SkipsTombstone) (H : Accounted s L leaked)
    (c : HashMap.Op K V × Allocs) :
    ∃ o s' L' lost, call f (s, L) c = some (o, s', L') ∧
      HashMap.call f s.view c = some (o, s'.view) ∧ Accounted s' L' (lost + leaked) ∧
      (lost = 0 ↔ Misses f s.view c) := by
  obtain ⟨o, m, hcall, hload⟩ := HashMap.call_returns hf H.load c
  obtain ⟨op, a⟩ := c
  cases op with
  | get key =>
      have hget := HashMap.call_get (f := f) s.view a key
      refine ⟨_, s, L, 0, ?_, hget, (zero_add leaked).symm ▸ H, iff_of_true rfl trivial⟩
      rw [call, HashMap.get_eq]
      rfl
  | put key value =>
      obtain ⟨r, hr, hview, hO⟩ := put_owns hf H a key value
      have hput := HashMap.call_put hview
      obtain ⟨-, rfl⟩ := Prod.mk.inj (Option.some.inj (hcall.symm.trans hput))
      refine ⟨_, r.map, r.ledger, 0, Option.bind_eq_some_iff.mpr ⟨r, hr, rfl⟩, hput,
        ⟨hload, ?_⟩, iff_of_true rfl trivial⟩
      rw [zero_add]
      exact hO
  | remove key =>
      obtain ⟨r, lost, hr, hview, hO, hlost⟩ := remove_owns f H a key
      have hremove := HashMap.call_remove hview
      obtain ⟨-, rfl⟩ := Prod.mk.inj (Option.some.inj (hcall.symm.trans hremove))
      exact ⟨_, r.map, r.ledger, lost, Option.bind_eq_some_iff.mpr ⟨r, hr, rfl⟩, hremove,
        ⟨hload, hO⟩, hlost⟩

/-- A run forgets no block exactly when every remove in it misses. -/
theorem run_accounted (hf : f.SkipsTombstone) (H : Accounted s L leaked)
    (calls : List (HashMap.Op K V × Allocs)) :
    ∃ os s' L' lost, Transition.exec (call f) (s, L) calls = some (os, s', L') ∧
      Transition.exec (HashMap.call f) s.view calls = some (os, s'.view) ∧
      Accounted s' L' (lost + leaked) ∧
      (lost = 0 ↔ Transition.Along (Misses f) (HashMap.call f) s.view calls) := by
  induction calls generalizing s L leaked with
  | nil => exact ⟨[], s, L, 0, rfl, rfl, (zero_add leaked).symm ▸ H, iff_of_true rfl trivial⟩
  | cons c calls ih =>
      obtain ⟨o, s₁, L₁, lost₁, h₁, hview₁, H₁, hiff₁⟩ := call_accounted hf H c
      obtain ⟨os, s₂, L₂, lost₂, h₂, hview₂, H₂, hiff₂⟩ := ih H₁
      refine ⟨o :: os, s₂, L₂, lost₂ + lost₁,
        Transition.exec_cons_eq_some.mpr ⟨o, (s₁, L₁), os, (s₂, L₂), h₁, h₂, rfl⟩,
        Transition.exec_cons_eq_some.mpr ⟨o, _, os, _, hview₁, hview₂, rfl⟩,
        (add_assoc lost₂ lost₁ leaked).symm ▸ H₂, ?_⟩
      rw [Transition.along_cons hview₁, ← hiff₁, ← hiff₂, ← Multiset.card_eq_zero,
        Multiset.card_add, Nat.add_eq_zero_iff, Multiset.card_eq_zero, Multiset.card_eq_zero,
        and_comm]

/-- A fresh map is its own block and its table; a failed `hash_map_create` keeps nothing. -/
theorem create_owns (keySize valueSize : ℕ) (f : Option (Callbacks K)) (mallocMap : Bool)
    (a : Allocs) (hO : L.Owns rest) :
    ∃ (s : Option (HeapMap K V)) (L' : Ledger),
      create keySize valueSize f mallocMap a L = some (s, L') ∧
      L'.Owns ((s.map blocks).getD 0 + rest) ∧ ∀ s', s = some s' → s'.view = HashMap.empty := by
  have hzero : (0 : Multiset ℕ) + rest = rest := zero_add rest
  unfold create
  split
  · exact ⟨none, L, rfl, hzero.symm ▸ hO, nofun⟩
  · cases mallocMap with
    | false => exact ⟨none, L, rfl, hzero.symm ▸ hO, nofun⟩
    | true =>
        obtain ⟨b, L₁, hmalloc, hL₁⟩ := hO.malloc
        simp only [hmalloc]
        cases a.table minimumCapacity with
        | false =>
            obtain ⟨L₂, hfree, hL₂⟩ := hL₁.free
            simp only [Ledger.malloc_refused, hfree]
            exact ⟨none, L₂, rfl, hzero.symm ▸ hL₂, nofun⟩
        | true =>
            obtain ⟨t, L₂, hcalloc, hL₂⟩ := hL₁.malloc
            simp only [hcalloc]
            refine ⟨_, L₂, rfl, ?_, ?_⟩
            · have hnone : tableBlocks (HashMap.empty : HashMap (Owned K) (Owned V)).entries = 0 :=
                Finset.sum_eq_zero fun _ _ => rfl
              change L₂.Owns (b ::ₘ t ::ₘ
                tableBlocks (HashMap.empty : HashMap (Owned K) (Owned V)).entries + rest)
              rw [hnone, Multiset.cons_add, Multiset.cons_add, zero_add, Multiset.cons_swap]
              exact hL₂
            · intro s' hs'
              obtain rfl := Option.some.inj hs'
              rfl

/-- The two blocks of a live entry, in the order they are released. -/
theorem freeEntry_owns {e : HashEntry (Owned K) (Owned V)} (hO : L.Owns (e.blocks + rest)) :
    ∃ L', freeEntry L e = some L' ∧ L'.Owns rest := by
  obtain ⟨key, value⟩ := e
  cases key with
  | none => exact ⟨L, rfl, (zero_add rest) ▸ hO⟩
  | some p =>
      cases p with
      | tombstone => exact ⟨L, rfl, (zero_add rest) ▸ hO⟩
      | block k =>
          cases value with
          | none =>
              have hone : L.Owns (k.block ::ₘ rest) := hO
              obtain ⟨L₁, hfree, hL₁⟩ := hone.free
              exact ⟨L₁, Option.bind_eq_some_iff.mpr ⟨L₁, hfree, rfl⟩, hL₁⟩
          | some v =>
              have hpair : L.Owns (k.block ::ₘ v.block ::ₘ rest) := by
                change L.Owns (k.block ::ₘ {v.block} + rest) at hO
                rwa [Multiset.cons_add, Multiset.singleton_add] at hO
              obtain ⟨L₁, hkey, hL₁⟩ := hpair.free
              obtain ⟨L₂, hvalue, hL₂⟩ := hL₁.free
              exact ⟨L₂, Option.bind_eq_some_iff.mpr ⟨L₁, hkey, hvalue⟩, hL₂⟩

/-- `hash_map_free` releases the blocks of the map, each once. -/
theorem hashMapFree_owns (hO : L.Owns (s.blocks + leaked)) :
    ∃ L', hashMapFree s L = some L' ∧ L'.Owns leaked := by
  have hsplit : s.blocks + leaked =
      ((List.finRange s.table.capacity).map fun i => (s.table.entries i).blocks).sum +
        s.tableBlock ::ₘ s.block ::ₘ leaked := by
    rw [blocks, tableBlocks, Fin.sum_univ_def]
    simp only [← Multiset.singleton_add]
    abel
  rw [hsplit] at hO
  have hentry : ∀ i L rest, L.Owns ((s.table.entries i).blocks + rest) →
      ∃ L', freeEntry L (s.table.entries i) = some L' ∧ L'.Owns rest :=
    fun _ _ _ h => freeEntry_owns h
  obtain ⟨L₁, hentries, hL₁⟩ := hO.foldlM hentry
  obtain ⟨L₂, htable, hL₂⟩ := hL₁.free
  obtain ⟨L₃, hmap, hL₃⟩ := hL₂.free
  exact ⟨L₃, Option.bind_eq_some_iff.mpr ⟨L₁, hentries, Option.bind_eq_some_iff.mpr
    ⟨L₂, htable, hmap⟩⟩, hL₃⟩

/-- A live entry is a key block and a value block. -/
theorem card_blocks (H : Load s.view) : s.blocks.card = 2 + 2 * s.view.count := by
  have hentry : ∀ i, (s.table.entries i).blocks.card =
      if (s.table.entries i).isLive then 2 else 0 := by
    intro i
    cases hlive : (s.table.entries i).isLive with
    | false =>
        rw [HashEntry.blocks_of_not_isLive hlive]
        rfl
    | true =>
        obtain ⟨k, hk⟩ := HashEntry.isLive_iff.mp ((HashEntry.isLive_deref _).trans hlive)
        obtain ⟨v, hv⟩ := H.valued.block i k hk
        obtain ⟨kb, hkb⟩ := HashEntry.key_of_deref hk
        obtain ⟨vb, hvb⟩ := HashEntry.value_of_deref hv
        rw [HashEntry.blocks_eq hkb hvb]
        rfl
  have hsum : (tableBlocks s.table.entries).card = s.table.liveSlots * 2 := by
    rw [tableBlocks, Multiset.card_sum, Finset.sum_congr rfl fun i _ => hentry i,
      ← Finset.sum_filter, Finset.sum_const]
    rfl
  rw [blocks, Multiset.card_cons, Multiset.card_cons, hsum, H.count_eq]
  change _ = 2 + 2 * s.table.deref.liveSlots
  rw [HashMap.liveSlots_deref]
  omega

/-- **The hash map gives back all the memory it takes**, in the runs and only in the runs whose
removes all miss.  Whatever the run, no block is released twice. -/
theorem memory_returned_iff (hf : f.SkipsTombstone) {keySize valueSize : ℕ} {mallocMap : Bool}
    {a : Allocs} (hcreate : create keySize valueSize (some f) mallocMap a .empty = some (some s, L))
    (calls : List (HashMap.Op K V × Allocs)) :
    ∃ os s' L', Transition.exec (call f) (s, L) calls = some (os, s', L') ∧
      Transition.exec (HashMap.call f) s.view calls = some (os, s'.view) ∧
      s'.blocks.card = 2 + 2 * s'.view.count ∧
      (L'.Owns s'.blocks ↔ Transition.Along (Misses f) (HashMap.call f) s.view calls) ∧
      ∃ L'', hashMapFree s' L' = some L'' ∧
        (L''.live = ∅ ↔ Transition.Along (Misses f) (HashMap.call f) s.view calls) := by
  obtain ⟨s₀, L₀, hcreate₀, hO, hview⟩ := create_owns (V := V) keySize valueSize (some f) mallocMap
    a Ledger.owns_empty
  obtain ⟨rfl, rfl⟩ := Prod.mk.inj (Option.some.inj (hcreate.symm.trans hcreate₀))
  have hload : Load s.view := (hview s rfl).symm ▸ Load.empty
  obtain ⟨os, s', L', lost, hrun, hviews, H, hlost⟩ := run_accounted hf ⟨hload, hO⟩ calls
  rw [add_zero] at H
  obtain ⟨L'', hfree, hL''⟩ := hashMapFree_owns H.owns
  refine ⟨os, s', L', hrun, hviews, card_blocks H.load, H.owns.iff_eq_zero.trans hlost, L'', hfree,
    ?_⟩
  have hval : L''.live.val = lost := hL''
  rw [← hlost, ← hval, Finset.val_eq_zero]

/-- A miss, a put and an update: nothing is outstanding after `hash_map_free`. -/
theorem memory_returned_updated :
    ∃ (s₀ : HeapMap { pid : BitVec 32 // pid ≠ 0 } ℕ) (L₀ : Ledger) (os : _) (s : _) (L L' : _),
      create 4 4 (some (intCallbacks 0)) true ⟨true, true, true⟩ .empty = some (some s₀, L₀) ∧
      Transition.exec (call (intCallbacks 0)) (s₀, L₀)
        [(.remove ⟨48, by decide⟩, ⟨true, true, true⟩),
          (.put ⟨16, by decide⟩ 1, ⟨true, true, true⟩),
          (.put ⟨16, by decide⟩ 2, ⟨true, true, true⟩)] = some (os, s, L) ∧
      hashMapFree s L = some L' ∧ L'.live = ∅ := by
  obtain ⟨s₀, L₀, hcreate, hmiss⟩ : ∃ (s₀ : HeapMap { pid : BitVec 32 // pid ≠ 0 } ℕ) (L₀ : Ledger),
      create 4 4 (some (intCallbacks 0)) true ⟨true, true, true⟩ .empty = some (some s₀, L₀) ∧
        HashMap.find (intCallbacks 0) s₀.view ⟨48, by decide⟩ = some none := ⟨_, _, rfl, rfl⟩
  obtain ⟨os, s, L, hrun, -, -, -, L', hfree, hlive⟩ := memory_returned_iff
    (intCallbacks_lawful 0).skipsTombstone hcreate
    [(.remove ⟨48, by decide⟩, ⟨true, true, true⟩), (.put ⟨16, by decide⟩ 1, ⟨true, true, true⟩),
      (.put ⟨16, by decide⟩ 2, ⟨true, true, true⟩)]
  refine ⟨s₀, L₀, os, s, L, L', hcreate, hrun, hfree, hlive.mpr ⟨hmiss, ?_⟩⟩
  exact fun _ _ _ => ⟨trivial, fun _ _ _ => ⟨trivial, fun _ _ _ => trivial⟩⟩

/-- One PID put and removed: its value block is outstanding, and no pointer to it is left. -/
theorem remove_leaks : ¬ ∀ (s : HeapMap { pid : BitVec 32 // pid ≠ 0 } ℕ) L calls os s' L',
    create 4 4 (some (intCallbacks 0)) true ⟨true, true, true⟩ .empty = some (some s, L) →
      Transition.exec (call (intCallbacks 0)) (s, L) calls = some (os, s', L') →
        L'.Owns s'.blocks := by
  intro hall
  let calls : List (HashMap.Op { pid : BitVec 32 // pid ≠ 0 } ℕ × Allocs) :=
    [(.put ⟨16, by decide⟩ 1, ⟨true, true, true⟩), (.remove ⟨16, by decide⟩, ⟨true, true, true⟩)]
  obtain ⟨s, L, hcreate, howns⟩ : ∃ (s : HeapMap { pid : BitVec 32 // pid ≠ 0 } ℕ) (L : Ledger),
      create 4 4 (some (intCallbacks 0)) true ⟨true, true, true⟩ .empty = some (some s, L) ∧
        (Transition.exec (call (intCallbacks 0)) (s, L) calls).map
          (fun r => decide (r.2.2.Owns r.2.1.blocks)) = some false :=
    ⟨_, _, rfl, by decide +kernel⟩
  obtain ⟨⟨os, s', L'⟩, hrun, hfalse⟩ := Option.map_eq_some_iff.mp howns
  exact of_decide_eq_false hfalse (hall s L calls os s' L' hcreate hrun)

end HeapMap
end Ctm
