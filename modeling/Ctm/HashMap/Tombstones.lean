import Ctm.HashMap.Atomicity

/-!
# Tombstones are inert

`hash_map_resize` hashes the `TOMBSTONE` placeholder, which is no key, and moves
tombstones to where that number says.  This has no effect on the live entries: a put and
a resize both choose the first slot of a walk that is not live, and a search finds the
slot of its key whatever lies around it.  So two runs with callbacks that differ on
`TOMBSTONE` only keep the same live entry in every slot.

## Main definitions

* `Callbacks.AgreesOnKeys` — the same comparisons, and the same hashes of keys.
* `LiveEq`, `SameLive` — the same live entry in every slot.
* `rehash_liveEq`, `call_sameLive` — what a resize and a call keep.
* `tombstones_inert` — what a run keeps.
-/

namespace Ctm

/-- The callbacks differ at most in the hash of `TOMBSTONE`. -/
structure Callbacks.AgreesOnKeys {K : Type} (f g : Callbacks K) : Prop where
  compareFunc : g.compareFunc = f.compareFunc
  hashFunc : ∀ k, g.hashFunc (.block k) = f.hashFunc (.block k)

/-- The contract speaks of keys only. -/
theorem Callbacks.AgreesOnKeys.lawful {K : Type} {f g : Callbacks K} (h : f.AgreesOnKeys g)
    (hf : f.Lawful) : g.Lawful where
  refl a := by rw [h.compareFunc]; exact hf.refl a
  symm hab := by rw [h.compareFunc] at hab ⊢; exact hf.symm hab
  trans hab hbc := by rw [h.compareFunc] at hab hbc ⊢; exact hf.trans hab hbc
  hash_eq hab := by
    rw [h.compareFunc] at hab
    rw [h.hashFunc, h.hashFunc]
    exact hf.hash_eq hab
  skipsTombstone key := by rw [h.compareFunc]; exact hf.skipsTombstone key

namespace HashEntry
variable {K V : Type} {e e' : HashEntry K V}

/-- A search tests the live entry of a slot. -/
theorem matchesKey_congr {f g : Callbacks K} (h : f.AgreesOnKeys g) (key : K)
    (he : e.pairAt = e'.pairAt) : e'.matchesKey g key = e.matchesKey f key := by
  have hlive := (isLive_eq_pairAt e).trans ((congrArg Option.isSome he).trans
    (isLive_eq_pairAt e').symm)
  cases hpair : e.pairAt with
  | some p =>
      have h₁ := pairAt_eq_some_iff.mp hpair
      have h₂ := pairAt_eq_some_iff.mp (he.symm.trans hpair)
      rw [h₁, h₂, matchesKey, matchesKey, h.compareFunc]
  | none =>
      have hdead : e.isLive = false := by rw [isLive_eq_pairAt, hpair]; rfl
      have hmiss : ∀ {f : Callbacks K} {e : HashEntry K V}, e.isLive = false →
          e.matchesKey f key = false := by
        intro f e hdead
        by_contra hmatch
        rw [isLive_of_matchesKey (Bool.not_eq_false _ ▸ hmatch)] at hdead
        cases hdead
      rw [hmiss hdead, hmiss (hlive ▸ hdead)]

end HashEntry

namespace HashMap
variable {K V : Type} {f g : Callbacks K} {c : ℕ}

/-! ## Tables -/

/-- Two tables hold the same live entry in every slot. -/
def LiveEq (T U : Fin c → HashEntry K V) : Prop := ∀ i, (T i).pairAt = (U i).pairAt

section LiveEq
variable {T U T' U' : Fin c → HashEntry K V} {i : Fin c} {e : HashEntry K V}

theorem LiveEq.isLive (h : LiveEq T U) (i : Fin c) : (U i).isLive = (T i).isLive := by
  rw [HashEntry.isLive_eq_pairAt, HashEntry.isLive_eq_pairAt, h i]

/-- The same slot is the first free one of a walk. -/
theorem LiveEq.firstFree_eq (h : LiveEq T U) (start : Fin c) :
    firstFree U start = firstFree T start := by
  have hpred : (fun i => !(U i).isLive) = fun i => !(T i).isLive := by
    funext i
    rw [h.isLive]
  rw [firstFree, firstFree, hpred]

theorem LiveEq.update (h : LiveEq T U) {e' : HashEntry K V} (he : e.pairAt = e'.pairAt) :
    LiveEq (Function.update T i e) (Function.update U i e') := by
  intro j
  by_cases hj : j = i
  · subst hj
    rw [Function.update_self, Function.update_self, he]
  · rw [Function.update_of_ne hj, Function.update_of_ne hj]
    exact h j

/-- Writing a tombstone to a slot that is not live changes no live entry. -/
theorem LiveEq.update_dead (h : LiveEq T U) (hi : (T i).isLive = false) (he : e.isLive = false) :
    LiveEq (Function.update T i e) U := by
  intro j
  by_cases hj : j = i
  · subst hj
    rw [Function.update_self, ← h j]
    rw [HashEntry.isLive_eq_pairAt, Option.isSome_eq_false_iff, Option.isNone_iff_eq_none] at hi he
    rw [he, hi]
  · rw [Function.update_of_ne hj]
    exact h j

theorem LiveEq.symm (h : LiveEq T U) : LiveEq U T := fun i => (h i).symm

/-- The body of the loop of `hash_map_resize` puts a live entry in the same slot of both
tables, and otherwise leaves the live entries alone. -/
theorem rehashEntry_liveEq (hfg : f.AgreesOnKeys g) {hc : 0 < c} (h : LiveEq T U)
    {old old' : HashEntry K V} (hold : old.pairAt = old'.pairAt)
    (hT : rehashEntry f hc T old = some T') (hU : rehashEntry g hc U old' = some U') :
    LiveEq T' U' := by
  -- A slot that is not live is skipped, or its tombstone goes to a free slot.
  have hdead : ∀ {f : Callbacks K} {T T' : Fin c → HashEntry K V} {old : HashEntry K V},
      old.pairAt = none → rehashEntry f hc T old = some T' →
        T' = T ∨ ∃ i e, (T i).isLive = false ∧ e.isLive = false ∧ T' = Function.update T i e := by
    intro f T T' old hpair hT
    obtain ⟨key, value⟩ := old
    cases key with
    | none => exact .inl (Option.some.inj hT).symm
    | some p =>
        cases p with
        | block k => cases hpair
        | tombstone =>
            obtain ⟨i, hi, hT⟩ := Option.bind_eq_some_iff.mp hT
            rw [freeSlot_eq_firstFree] at hi
            exact .inr ⟨i, _, firstFree_not_isLive hi, rfl, (Option.some.inj hT).symm⟩
  cases hpair : old.pairAt with
  | some p =>
      obtain ⟨k, v⟩ := p
      rw [HashEntry.pairAt_eq_some_iff.mp hpair] at hT
      rw [HashEntry.pairAt_eq_some_iff.mp (hold.symm.trans hpair)] at hU
      obtain ⟨i, hi, hT⟩ := Option.bind_eq_some_iff.mp hT
      obtain ⟨j, hj, hU⟩ := Option.bind_eq_some_iff.mp hU
      rw [freeSlot_eq_firstFree] at hi hj
      rw [hfg.hashFunc, h.firstFree_eq, hi] at hj
      obtain rfl := Option.some.inj hj
      obtain rfl := Option.some.inj hT
      obtain rfl := Option.some.inj hU
      exact h.update rfl
  | none =>
      have hT' : LiveEq T' T := by
        rcases hdead hpair hT with rfl | ⟨i, e, hi, he, rfl⟩
        · exact fun _ => rfl
        · exact LiveEq.update_dead (fun _ => rfl) hi he
      have hU' : LiveEq U' U := by
        rcases hdead (hold.symm.trans hpair) hU with rfl | ⟨i, e, hi, he, rfl⟩
        · exact fun _ => rfl
        · exact LiveEq.update_dead (fun _ => rfl) hi he
      exact fun i => (hT' i).trans ((h i).trans (hU' i).symm)

end LiveEq

/-! ## Maps -/

/-- The same size and count, and the same live entry in every slot. -/
structure SameLive (m m' : HashMap K V) : Prop where
  capacity : m.capacity = m'.capacity
  count : m.count = m'.count
  entries : ∀ i (h : i < m.capacity) (h' : i < m'.capacity),
    (m.entries ⟨i, h⟩).pairAt = (m'.entries ⟨i, h'⟩).pairAt

variable {hc : 0 < c} {T U : Fin c → HashEntry K V} {n : ℕ}

theorem LiveEq.sameLive (h : LiveEq T U) :
    SameLive (⟨c, hc, T, n⟩ : HashMap K V) ⟨c, hc, U, n⟩ :=
  ⟨rfl, rfl, fun i hi _ => h ⟨i, hi⟩⟩

/-- Two such maps are two tables of one size. -/
theorem SameLive.exists_tables {m m' : HashMap K V} (h : SameLive m m') :
    ∃ (c : ℕ) (hc : 0 < c) (T U : Fin c → HashEntry K V) (n : ℕ),
      m = ⟨c, hc, T, n⟩ ∧ m' = ⟨c, hc, U, n⟩ ∧ LiveEq T U := by
  obtain ⟨c, hc, T, n⟩ := m
  obtain ⟨c', hc', U, n'⟩ := m'
  obtain ⟨hcap, hcount, hentries⟩ := h
  obtain rfl : c = c' := hcap
  obtain rfl : n = n' := hcount
  exact ⟨c, hc, T, U, n, rfl, rfl, fun i => hentries i i.isLt i.isLt⟩

/-- The same pairs are iterated in the same order. -/
theorem SameLive.iterAll_eq {m m' : HashMap K V} (h : SameLive m m') : iterAll m' = iterAll m := by
  obtain ⟨c, hc, T, U, n, rfl, rfl, hlive⟩ := h.exists_tables
  rw [HashMap.iterAll_eq, HashMap.iterAll_eq]
  exact List.filterMap_congr fun i _ => (hlive i).symm

/-- Rehashing two tables with the same live entries gives two such tables. -/
theorem rehash_liveEq (hfg : f.AgreesOnKeys g) (h : LiveEq T U) {c' : ℕ} {hc' : 0 < c'}
    {T' U' : Fin c' → HashEntry K V} (hT : rehash f (⟨c, hc, T, n⟩ : HashMap K V) hc' = some T')
    (hU : rehash g (⟨c, hc, U, n⟩ : HashMap K V) hc' = some U') : LiveEq T' U' := by
  have step : ∀ (l : List (Fin c)) (A B A' B' : Fin c' → HashEntry K V), LiveEq A B →
      l.foldlM (fun new i => rehashEntry f hc' new (T i)) A = some A' →
      l.foldlM (fun new i => rehashEntry g hc' new (U i)) B = some B' → LiveEq A' B' := by
    intro l
    induction l with
    | nil =>
        intro A B A' B' hAB hA hB
        obtain rfl := Option.some.inj hA
        obtain rfl := Option.some.inj hB
        exact hAB
    | cons x l ih =>
        intro A B A' B' hAB hA hB
        obtain ⟨A₁, hA₁, hA⟩ := Option.bind_eq_some_iff.mp hA
        obtain ⟨B₁, hB₁, hB⟩ := Option.bind_eq_some_iff.mp hB
        exact ih A₁ B₁ A' B' (rehashEntry_liveEq hfg hAB (h x) hA₁ hB₁) hA hB
  exact step _ _ _ _ _ (fun _ => rfl) hT hU

/-- Two results that differ at most in their tombstones. -/
structure SameResult (r r' : Result K V) : Prop where
  ret : r.ret = r'.ret
  errno : r.errno = r'.errno
  map : SameLive r.map r'.map

variable {m m' : HashMap K V} {a : Allocs}

/-- The two outcomes of a resize with room for the live entries. -/
theorem resize_sameLive (hfg : f.AgreesOnKeys g) (S : SameLive m m') (a : Allocs)
    {newCapacity : ℕ} (h : m.liveSlots < newCapacity) (h' : m'.liveSlots < newCapacity) :
    ∃ r r', resize f a m newCapacity = some r ∧ resize g a m' newCapacity = some r' ∧
      SameResult r r' := by
  obtain ⟨c, hc, T, U, n, rfl, rfl, hlive⟩ := S.exists_tables
  have hpos : newCapacity ≠ 0 := by omega
  rw [resize, resize, dif_neg hpos, dif_neg hpos]
  cases a.table newCapacity with
  | false => exact ⟨_, _, rfl, rfl, rfl, rfl, hlive.sameLive⟩
  | true =>
      obtain ⟨A, hA, -⟩ := rehash_spec (f := f) (Nat.pos_of_ne_zero hpos) h
      obtain ⟨B, hB, -⟩ := rehash_spec (f := g) (Nat.pos_of_ne_zero hpos) h'
      have hAB := rehash_liveEq hfg hlive hA hB
      simp only [hA, hB]
      exact ⟨_, _, rfl, rfl, rfl, rfl, hAB.sameLive⟩

/-! ## Calls -/

/-- Two maps with the same live entries that both keep the invariants. -/
structure Twin (f g : Callbacks K) (m m' : HashMap K V) : Prop where
  same : SameLive m m'
  load : Load m
  findable : Findable f m
  load' : Load m'
  findable' : Findable g m'

/-- A search finds the same slot, and the same entry there. -/
theorem Twin.findSlot (hf : f.Lawful) (hfg : f.AgreesOnKeys g) (H : Twin f g m m') (key : K) :
    (m.findSlot f key = none ∧ m'.findSlot g key = none) ∨
    ∃ (i : ℕ) (h : i < m.capacity) (h' : i < m'.capacity), m.findSlot f key = some ⟨i, h⟩ ∧
      m'.findSlot g key = some ⟨i, h'⟩ ∧ m.entries ⟨i, h⟩ = m'.entries ⟨i, h'⟩ := by
  have hg := hfg.lawful hf
  have hF := H.findable
  have hF' := H.findable'
  obtain ⟨c, hc, T, U, n, rfl, rfl, hlive⟩ := H.same.exists_tables
  cases hs : HashMap.findSlot f ⟨c, hc, T, n⟩ key with
  | none =>
      refine .inl ⟨rfl, (hF'.findSlot_eq_none_iff hg).mpr ?_⟩
      intro i
      exact (HashEntry.matchesKey_congr hfg key (hlive i)).trans
        ((hF.findSlot_eq_none_iff hf).mp hs i)
  | some i =>
      have hmatch := matchesKey_of_findSlot hs
      refine .inr ⟨i, i.isLt, i.isLt, rfl, (hF'.findSlot_eq_some_iff hg).mpr ?_, ?_⟩
      · exact (HashEntry.matchesKey_congr hfg key (hlive i)).trans hmatch
      · obtain ⟨k, hk, -⟩ := HashEntry.matchesKey_iff.mp hmatch
        have hpair : (T i).pairAt = some (k, (T i).value) :=
          HashEntry.pairAt_eq_some_iff.mpr (by rw [← hk])
        exact (HashEntry.pairAt_eq_some_iff.mp hpair).trans
          (HashEntry.pairAt_eq_some_iff.mp ((hlive i).symm.trans hpair)).symm

/-- Overwriting one slot of both maps with entries that are live alike. -/
theorem SameLive.setEntry (S : SameLive m m') {i : ℕ} (h : i < m.capacity) (h' : i < m'.capacity)
    {e e' : HashEntry K V} (he : e.pairAt = e'.pairAt) :
    SameLive (m.setEntry ⟨i, h⟩ e) (m'.setEntry ⟨i, h'⟩ e') := by
  obtain ⟨c, hc, T, U, n, rfl, rfl, hlive⟩ := S.exists_tables
  exact (hlive.update he).sameLive

/-- The same entries and another count. -/
theorem SameLive.withCount (S : SameLive m m') {n n' : ℕ} (hn : n = n') :
    SameLive { m with count := n } { m' with count := n' } := ⟨S.capacity, hn, S.entries⟩

/-- The table a put probes. -/
theorem grown_sameLive (hfg : f.AgreesOnKeys g) (S : SameLive m m') (H : Load m) (H' : Load m')
    (a : Allocs) : SameLive (m.grown f a) (m'.grown g a) := by
  unfold grown
  rw [← S.capacity, ← S.count]
  split
  · obtain ⟨r, r', hr, hr', hres⟩ := resize_sameLive hfg S a
      (show m.liveSlots < m.capacity * 2 % sizeMod by
        rw [H.double_mod]
        have := H.liveSlots_lt
        omega)
      (show m'.liveSlots < m.capacity * 2 % sizeMod by
        rw [H.double_mod, S.capacity]
        have := H'.liveSlots_lt
        omega)
    simp only [hr, hr']
    exact hres.map
  · exact S

/-- A put after the load test, when its blocks are allocated. -/
theorem putEntry_sameLive (hf : f.Lawful) (hfg : f.AgreesOnKeys g) (H : Twin f g m m')
    (ha : Allocs.entry a = true) (key : K) (value : V) :
    ∃ r r', putEntry f a m key value = some r ∧ putEntry g a m' key value = some r' ∧
      SameResult r r' := by
  have hnew : ∀ {m : HashMap K V} {i : Fin m.capacity}, (m.entries i).isLive = false →
      putNew a m i key value = ⟨0, none, m.insertAt i key value⟩ := by
    intro m i hi
    rcases putNew_cases a hi key value with ⟨-, hn⟩ | ⟨ha', -⟩
    · exact hn
    · exact Bool.noConfusion (ha.symm.trans ha')
  rcases H.findSlot hf hfg key with ⟨hs, hs'⟩ | ⟨i, hi, hi', hs, hs', hentry⟩
  · rcases putEntry_cases hf.skipsTombstone H.load a key value with ⟨j, hj, -⟩ | ⟨j, -, hfree, hr⟩
    · cases hs.symm.trans hj
    rcases putEntry_cases (hfg.lawful hf).skipsTombstone H.load' a key value with
      ⟨j', hj', -⟩ | ⟨j', -, hfree', hr'⟩
    · cases hs'.symm.trans hj'
    have hdead := firstFree_not_isLive hfree
    have hdead' := firstFree_not_isLive hfree'
    refine ⟨_, _, hr, hr', ?_⟩
    rw [hnew hdead, hnew hdead']
    refine ⟨rfl, rfl, ?_⟩
    -- Both take the first free slot of the same walk.
    obtain ⟨c, hc, T, U, n, rfl, rfl, hlive⟩ := H.same.exists_tables
    have hhome : home g ⟨c, hc, U, n⟩ key = home f ⟨c, hc, T, n⟩ key := by
      rw [home, home, hfg.hashFunc]
    rw [hhome] at hfree'
    have hslot := hlive.firstFree_eq (home f ⟨c, hc, T, n⟩ key)
    obtain rfl : j = j' := Option.some.inj (hfree.symm.trans (hslot.symm.trans hfree'))
    exact (SameLive.setEntry hlive.sameLive j.isLt j.isLt rfl).withCount rfl
  · rcases putEntry_cases hf.skipsTombstone H.load a key value with ⟨j, hj, hr⟩ | ⟨j, hj, -⟩
    · rcases putEntry_cases (hfg.lawful hf).skipsTombstone H.load' a key value with
        ⟨j', hj', hr'⟩ | ⟨j', hj', -⟩
      · obtain rfl := Option.some.inj (hs.symm.trans hj)
        obtain rfl := Option.some.inj (hs'.symm.trans hj')
        refine ⟨_, _, hr, hr', rfl, rfl, H.same.setEntry hi hi' ?_⟩
        rw [hentry]
      · cases hs'.symm.trans hj'
    · cases hs.symm.trans hj

/-- The end of a remove. -/
theorem shrink_sameLive (hfg : f.AgreesOnKeys g) (S : SameLive m m') (H : Load m) (H' : Load m')
    (a : Allocs) :
    ∃ r r', shrink f a m = some r ∧ shrink g a m' = some r' ∧ SameResult r r' := by
  unfold shrink
  rw [← S.capacity, ← S.count]
  split
  · rename_i hcond
    obtain ⟨hmin, -, hsparse⟩ := hcond
    obtain ⟨hshrunk, -, hlt⟩ := H.half hmin hsparse
    obtain ⟨hshrunk', -, hlt'⟩ := H'.half (S.capacity ▸ hmin) (S.capacity ▸ S.count ▸ hsparse)
    have heq : m'.shrunkCapacity = m.shrunkCapacity := by rw [hshrunk, hshrunk', S.capacity]
    rw [heq]
    rw [← hshrunk] at hlt
    rw [← hshrunk', heq] at hlt'
    obtain ⟨r, r', hr, hr', hres⟩ := resize_sameLive hfg S a hlt hlt'
    simp only [hr, hr']
    exact ⟨_, _, rfl, rfl, rfl, hres.errno, hres.map⟩
  · exact ⟨_, _, rfl, rfl, rfl, rfl, S⟩

/-- `hash_map_remove` -/
theorem remove_sameLive (hf : f.Lawful) (hfg : f.AgreesOnKeys g) (H : Twin f g m m') (a : Allocs)
    (key : K) :
    ∃ r r', remove f a m (some key) = some r ∧ remove g a m' (some key) = some r' ∧
      SameResult r r' := by
  rw [remove, remove, find_eq, find_eq]
  rcases H.findSlot hf hfg key with ⟨hs, hs'⟩ | ⟨i, hi, hi', hs, hs', hentry⟩
  · rw [hs, hs']
    exact ⟨_, _, rfl, rfl, rfl, rfl, H.same⟩
  · have hlive := HashEntry.isLive_of_matchesKey (matchesKey_of_findSlot hs)
    have hlive' := HashEntry.isLive_of_matchesKey (matchesKey_of_findSlot hs')
    have hsame : SameLive (m.tombstoneAt ⟨i, hi⟩) (m'.tombstoneAt ⟨i, hi'⟩) :=
      (H.same.setEntry hi hi' rfl).withCount (by rw [H.same.count])
    rw [hs, hs']
    exact shrink_sameLive hfg hsame (H.load.tombstoneAt hlive) (H.load'.tombstoneAt hlive') a

/-- `hash_map_put`, when it allocates the blocks of its entry. -/
theorem put_sameLive (hf : f.Lawful) (hfg : f.AgreesOnKeys g) (H : Twin f g m m')
    (ha : Allocs.entry a = true) (key : K) (value : V) :
    ∃ r r', put f a m (some key) (some value) = some r ∧
      put g a m' (some key) (some value) = some r' ∧ SameResult r r' := by
  have hgrows : growthFails a m' ↔ growthFails a m := by
    rw [growthFails, growthFails, H.same.capacity, H.same.count]
  rcases put_cases (f := f) H.load a key value with ⟨hfail, hr⟩ | ⟨hgrow, hr⟩
  · rcases put_cases (f := g) H.load' a key value with ⟨-, hr'⟩ | ⟨hgrow', -⟩
    · exact ⟨_, _, hr, hr', rfl, rfl, H.same⟩
    · exact absurd (hgrows.mpr hfail) hgrow'
  · rcases put_cases (f := g) H.load' a key value with ⟨hfail', -⟩ | ⟨hgrow', hr'⟩
    · exact absurd (hgrows.mp hfail') hgrow
    · obtain ⟨hL, -, -, hF⟩ := grown_spec (f := f) H.load hgrow
      obtain ⟨hL', -, -, hF'⟩ := grown_spec (f := g) H.load' hgrow'
      have H₁ : Twin f g (m.grown f a) (m'.grown g a) :=
        ⟨grown_sameLive hfg H.same H.load H.load' a, hL, hF H.findable, hL', hF' H.findable'⟩
      obtain ⟨r, r', he, he', hres⟩ := putEntry_sameLive hf hfg H₁ ha key value
      exact ⟨r, r', hr.trans he, hr'.trans he', hres⟩

/-- **A call keeps the same live entries** when it allocates the blocks of its entry. -/
theorem call_sameLive (hf : f.Lawful) (hfg : f.AgreesOnKeys g) (H : Twin f g m m')
    (ha : Allocs.entry a = true) (op : Op K V) :
    ∃ o n n', call f m (op, a) = some (o, n) ∧ call g m' (op, a) = some (o, n') ∧
      SameLive n n' := by
  have hof : ∀ {r r' : Result K V}, SameResult r r' →
      (⟨.status r'.ret, r'.map.hashMapCount, r'.errno⟩ : Seen V) =
        ⟨.status r.ret, r.map.hashMapCount, r.errno⟩ := by
    intro r r' h
    rw [hashMapCount, hashMapCount, h.ret, h.errno, h.map.count]
  cases op with
  | get key =>
      refine ⟨_, m, m', call_get m a key, ?_, H.same⟩
      rw [call_get m' a key, lookup, lookup, hashMapCount, hashMapCount, H.same.count]
      rcases H.findSlot hf hfg key with ⟨hs, hs'⟩ | ⟨i, hi, hi', hs, hs', hentry⟩
      · rw [hs, hs']
        rfl
      · rw [hs, hs', Option.bind_some, Option.bind_some, hentry]
  | remove key =>
      obtain ⟨r, r', hr, hr', hres⟩ := remove_sameLive hf hfg H a key
      exact ⟨_, _, _, call_remove hr, (call_remove hr').trans (by rw [hof hres]), hres.map⟩
  | put key value =>
      obtain ⟨r, r', hr, hr', hres⟩ := put_sameLive hf hfg H ha key value
      exact ⟨_, _, _, call_put hr, (call_put hr').trans (by rw [hof hres]), hres.map⟩

/-- A call that allocates the blocks of its entry keeps two twins. -/
theorem Twin.call (hf : f.Lawful) (hfg : f.AgreesOnKeys g) (H : Twin f g m m')
    {c : Op K V × Allocs} (hc : Allocs.entry c.2 = true) :
    ∃ o n n', HashMap.call f m c = some (o, n) ∧ HashMap.call g m' c = some (o, n') ∧
      Twin f g n n' := by
  obtain ⟨o, n, n', hn, hn', S⟩ := call_sameLive hf hfg H hc c.1
  have hinv := step_findable hf ⟨o, hn⟩ (KeepsChains.of_entry hc) ⟨H.load, H.findable⟩
  have hinv' := step_findable (hfg.lawful hf) ⟨o, hn'⟩ (KeepsChains.of_entry hc)
    ⟨H.load', H.findable'⟩
  exact ⟨o, n, n', hn, hn', S, hinv.1, hinv.2, hinv'.1, hinv'.2⟩

/-- A search reads the same value in two twins. -/
theorem Twin.get_eq (hf : f.Lawful) (hfg : f.AgreesOnKeys g) (H : Twin f g m m') (key : K) :
    get g m' (some key) = get f m (some key) := by
  rw [get_eq_lookup, get_eq_lookup, lookup, lookup]
  rcases H.findSlot hf hfg key with ⟨hs, hs'⟩ | ⟨i, hi, hi', hs, hs', hentry⟩
  · rw [hs, hs']
    rfl
  · rw [hs, hs', Option.bind_some, Option.bind_some, hentry]

/-- **Tombstones are inert.**  The same calls on two created maps, with callbacks that differ
at most in the hash of `TOMBSTONE` and no block of an entry refused, return the same and leave
the same capacity, count and live entry in every slot. -/
theorem tombstones_inert (hf : f.Lawful) (hfg : f.AgreesOnKeys g) {m₀ m₀' : HashMap K V}
    (h₀ : Created f m₀) (h₀' : Created g m₀') {calls : List (Op K V × Allocs)}
    (hcalls : ∀ c ∈ calls, Allocs.entry c.2 = true) :
    ∃ os m m', Transition.exec (call f) m₀ calls = some (os, m) ∧
      Transition.exec (call g) m₀' calls = some (os, m') ∧ SameLive m m' ∧
      (∀ key, get g m' (some key) = get f m (some key)) ∧ iterAll m' = iterAll m := by
  obtain ⟨keySize, valueSize, mallocMap, a, h₀⟩ := h₀
  obtain ⟨keySize', valueSize', mallocMap', a', h₀'⟩ := h₀'
  rw [create_eq_some h₀, create_eq_some h₀']
  have H₀ : Twin f g (empty : HashMap K V) empty :=
    ⟨⟨rfl, rfl, fun _ _ _ => rfl⟩, Load.empty, Findable.empty, Load.empty, Findable.empty⟩
  obtain ⟨os, m, m', hrun, hrun', H⟩ := Transition.exec_lockstep (Twin f g)
    (fun c hc _ _ H => H.call (c := c) hf hfg (hcalls c hc)) H₀
  exact ⟨os, m, m', hrun, hrun', H.same, H.get_eq hf hfg, H.same.iterAll_eq⟩

/-- `intCallbacks` with another number for `TOMBSTONE`. -/
def intCallbacksWith (junk : BitVec 32) (hash : ℕ) :
    Callbacks { pid : BitVec 32 // pid ≠ junk } where
  hashFunc
    | .tombstone => hash
    | .block pid => (hashInt pid).toNat
  compareFunc := (intCallbacks junk).compareFunc

/-- Two colliding PIDs, the first removed, under two hashes of `TOMBSTONE`. -/
theorem tombstones_inert_colliding : ∃ os m m',
    Transition.exec (call (intCallbacks 0)) empty
      [(.put ⟨16, by decide⟩ 1, ⟨true, true, true⟩), (.put ⟨32, by decide⟩ 2, ⟨true, true, true⟩),
        (.remove ⟨16, by decide⟩, ⟨true, true, true⟩)] = some (os, m) ∧
    Transition.exec (call (intCallbacksWith 0 7)) empty
      [(.put ⟨16, by decide⟩ 1, ⟨true, true, true⟩), (.put ⟨32, by decide⟩ 2, ⟨true, true, true⟩),
        (.remove ⟨16, by decide⟩, ⟨true, true, true⟩)] = some (os, m') ∧
    SameLive m m' := by
  let calls : List (Op { pid : BitVec 32 // pid ≠ 0 } ℕ × Allocs) :=
    [(.put ⟨16, by decide⟩ 1, ⟨true, true, true⟩), (.put ⟨32, by decide⟩ 2, ⟨true, true, true⟩),
      (.remove ⟨16, by decide⟩, ⟨true, true, true⟩)]
  have hcalls : ∀ c ∈ calls, Allocs.entry c.2 = true := by simp [calls, Allocs.entry]
  obtain ⟨os, m, m', hrun, hrun', S, -, -⟩ := tombstones_inert (intCallbacks_lawful 0)
    (⟨rfl, fun _ => rfl⟩ : (intCallbacks 0).AgreesOnKeys (intCallbacksWith 0 7))
    ⟨4, 4, true, ⟨true, true, true⟩, rfl⟩ ⟨4, 4, true, ⟨true, true, true⟩, rfl⟩ hcalls
  exact ⟨os, m, m', hrun, hrun', S⟩

end HashMap
end Ctm
