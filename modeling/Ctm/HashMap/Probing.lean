import Ctm.HashMap.Basic

/-!
# What the probing loops compute

Each loop of the hash map is a first-hit search of the cyclic walk from the key's home
slot, and each is proved to be one here.  After this module no proof looks inside a
loop.

## Main definitions

* `firstFree` — the first slot of a walk that is not live.
* `freeSlot_eq_firstFree`, `find_eq`, `putLoop_cases` — the three loops as searches.
* `SearchEnd`, `searchEnd_of_miss` — how a search ends that does not find its key.
-/

namespace Ctm

namespace Callbacks
variable {K : Type}

/-- `compare_func(key, TOMBSTONE)` is never zero. -/
def SkipsTombstone (f : Callbacks K) : Prop := ∀ key, f.compareFunc key .tombstone ≠ 0

end Callbacks

namespace HashMap
variable {K V : Type} {c : ℕ}

/-- The first slot of the walk from `start` that is not live. -/
def firstFree (entries : Fin c → HashEntry K V) (start : Fin c) : Option (Fin c) :=
  Probe.firstHit (fun i => !(entries i).isLive) start

/-- The loop of `hash_map_resize`, once `d` live slots are behind it. -/
private theorem freeSlot_walk (entries : Fin c → HashEntry K V) (start : Fin c) :
    ∀ fuel d, d + fuel = c → (∀ e < d, (entries (Probe.walk start e)).isLive) →
      freeSlot entries fuel (Probe.walk start d) = firstFree entries start := by
  intro fuel
  induction fuel with
  | zero =>
      intro d hd hlive
      symm
      exact Probe.firstHit_of_full_turn (by intro e he; simp [hlive e (by omega)])
  | succ fuel ih =>
      intro d hd hlive
      rw [freeSlot]
      by_cases h : (entries (Probe.walk start d)).isLive
      · rw [if_pos h, Probe.next_walk]
        exact ih (d + 1) (by omega) (Nat.forall_lt_succ_right.mpr ⟨hlive, h⟩)
      · rw [if_neg h]
        symm
        exact Probe.firstHit_of_walk (by omega) (by simpa using h)
          (by intro e he; simp [hlive e he])

/-- The inner loop of `hash_map_resize` stops at the first slot that is not live. -/
theorem freeSlot_eq_firstFree (entries : Fin c → HashEntry K V) (start : Fin c) :
    freeSlot entries c start = firstFree entries start := by
  simpa using freeSlot_walk entries start c 0 (by omega) (by intro e he; omega)

theorem firstFree_isSome {entries : Fin c → HashEntry K V}
    (h : Probe.countSlots HashEntry.isLive entries < c) (start : Fin c) :
    ∃ i, firstFree entries start = some i := by
  obtain ⟨j, hj⟩ := Probe.exists_not_of_countSlots_lt h
  cases hfree : firstFree entries start with
  | some i => exact ⟨i, rfl⟩
  | none =>
      have := Probe.firstHit_eq_none_iff.mp hfree j
      simp [hj] at this

theorem firstFree_not_isLive {entries : Fin c → HashEntry K V} {start i : Fin c}
    (h : firstFree entries start = some i) : (entries i).isLive = false := by
  simpa using Probe.firstHit_spec h

/-- Everything the walk passes before the first free slot is occupied. -/
theorem firstFree_chain {entries : Fin c → HashEntry K V} {start i : Fin c}
    (h : firstFree entries start = some i) :
    Probe.Chain HashEntry.isOccupied entries start i := by
  refine Probe.Chain.of_firstHit h ?_
  intro j hj
  exact HashEntry.isOccupied_of_isLive (by simpa using hj)

/-! ## The search of `get` and `remove` -/

variable (f : Callbacks K) (m : HashMap K V) (key : K)

/-- The search stops here: at NULL, or at an equal key. -/
def stopsAt (i : Fin m.capacity) : Bool :=
  !(m.entries i).isOccupied || (m.entries i).matchesKey f key

/-- The slot the search stops at, if it stops at an equal key. -/
def findSlot : Option (Fin m.capacity) :=
  (Probe.firstHit (m.stopsAt f key) (m.home f key)).filter
    fun i => (m.entries i).matchesKey f key

variable {f m key}

private theorem stopsAt_of_null (f : Callbacks K) (key : K) {i : Fin m.capacity}
    (h : (m.entries i).key = none) :
    m.stopsAt f key i ∧ (m.entries i).matchesKey f key = false := by
  simp [stopsAt, HashEntry.isOccupied, HashEntry.matchesKey, h]

private theorem stopsAt_of_matchesKey {i : Fin m.capacity}
    (h : (m.entries i).matchesKey f key) : m.stopsAt f key i := by
  simp [stopsAt, h]

private theorem not_stopsAt {i : Fin m.capacity} {k : KeyPtr K}
    (hk : (m.entries i).key = some k) (h : (m.entries i).matchesKey f key = false) :
    m.stopsAt f key i = false := by
  simp [stopsAt, HashEntry.isOccupied, hk, h]

/-- A walk that was stopped nowhere goes on past a slot with another key. -/
theorem passes_succ {d : ℕ} {k : KeyPtr K}
    (hbefore : ∀ e < d, m.stopsAt f key (Probe.walk (m.home f key) e) = false)
    (hk : (m.entries (Probe.walk (m.home f key) d)).key = some k)
    (h : (m.entries (Probe.walk (m.home f key) d)).matchesKey f key = false) :
    ∀ e < d + 1, m.stopsAt f key (Probe.walk (m.home f key) e) = false :=
  Nat.forall_lt_succ_right.mpr ⟨hbefore, not_stopsAt hk h⟩

/-- The test of the loop body is `matchesKey`. -/
private theorem matchesKey_eq (f : Callbacks K) (key : K) {e : HashEntry K V} {k : KeyPtr K}
    (hk : e.key = some k) :
    e.matchesKey f key = (!k.isTombstone && f.compareFunc key k == 0) := by
  cases k <;> simp [HashEntry.matchesKey, hk, KeyPtr.isTombstone]

/-- How the loop of `hash_map_get` and `hash_map_remove` ends: at an equal key, at an empty
slot, or about to run in circles. -/
inductive SearchEnd (c : ℕ)
  | found (index : Fin c)
  | empty (index : Fin c)
  | circled
  deriving DecidableEq, Repr

/-- The slot the loop answers with. -/
def SearchEnd.hit : SearchEnd c → Option (Fin c)
  | found index => some index
  | empty _ => none
  | circled => none

/-- The loop `findLoop`, which tells how it ends. -/
def searchLoop (f : Callbacks K) (m : HashMap K V) (key : K) (start : Fin m.capacity) :
    ℕ → Fin m.capacity → Option (SearchEnd m.capacity)
  | 0, _ => none
  | fuel + 1, index =>
      match (m.entries index).key with
      | none => some (.empty index)
      | some k =>
          if !k.isTombstone && f.compareFunc key k == 0 then some (.found index)
          else if Probe.next index = start then some .circled
          else searchLoop f m key start fuel (Probe.next index)

theorem findLoop_eq_searchLoop (f : Callbacks K) (m : HashMap K V) (key : K)
    (start : Fin m.capacity) : ∀ fuel index, findLoop f m key start fuel index =
      (searchLoop f m key start fuel index).map SearchEnd.hit := by
  intro fuel
  induction fuel with
  | zero => intro index; rfl
  | succ fuel ih =>
      intro index
      rw [findLoop, searchLoop]
      cases (m.entries index).key with
      | none => rfl
      | some k =>
          dsimp only
          split_ifs
          · rfl
          · rfl
          · exact ih _

variable (f m key) in
/-- How the search for a key ends. -/
def searchEnd : SearchEnd m.capacity :=
  match Probe.firstHit (m.stopsAt f key) (m.home f key) with
  | some i => if (m.entries i).matchesKey f key then .found i else .empty i
  | none => .circled

/-- The loop, once `d` slots that do not stop it are behind it. -/
private theorem searchLoop_walk (f : Callbacks K) (m : HashMap K V) (key : K) :
    ∀ fuel d, d < m.capacity → d + fuel = m.capacity →
      (∀ e < d, m.stopsAt f key (Probe.walk (m.home f key) e) = false) →
      searchLoop f m key (m.home f key) fuel (Probe.walk (m.home f key) d) =
        some (m.searchEnd f key) := by
  intro fuel
  induction fuel with
  | zero => intro d hd hfuel; omega
  | succ fuel ih =>
      intro d hd hfuel hbefore
      rw [searchLoop]
      cases hk : (m.entries (Probe.walk (m.home f key) d)).key with
      | none =>
          obtain ⟨hstop, hmatch⟩ := stopsAt_of_null f key hk
          simp [searchEnd, Probe.firstHit_of_walk hd hstop hbefore, hmatch]
      | some k =>
          have htest := matchesKey_eq f key hk
          by_cases hmatch : (m.entries (Probe.walk (m.home f key) d)).matchesKey f key
          · have hstop := stopsAt_of_matchesKey hmatch
            simp only [← htest, hmatch, if_true]
            simp [searchEnd, Probe.firstHit_of_walk hd hstop hbefore, hmatch]
          · rw [Bool.not_eq_true] at hmatch
            have hbefore' := passes_succ hbefore hk hmatch
            simp only [← htest, hmatch, Bool.false_eq_true, if_false, Probe.next_walk,
              Probe.walk_succ_eq_start hd]
            by_cases hturn : d + 1 = m.capacity
            · rw [if_pos hturn, searchEnd, Probe.firstHit_of_full_turn
                (by intro e he; exact hbefore' e (by omega))]
            · rw [if_neg hturn]
              exact ih (d + 1) (by omega) (by omega) hbefore'

/-- The loop ends within as many steps as there are slots. -/
theorem searchLoop_eq :
    searchLoop f m key (m.home f key) m.capacity (m.home f key) = some (m.searchEnd f key) := by
  have h := searchLoop_walk f m key m.capacity 0 m.capacity_pos
    (by omega) (by intro e he; omega)
  simpa only [Probe.walk_zero] using h

theorem hit_searchEnd : (m.searchEnd f key).hit = m.findSlot f key := by
  rw [searchEnd, findSlot]
  cases Probe.firstHit (m.stopsAt f key) (m.home f key) with
  | none => rfl
  | some i =>
      by_cases hmatch : (m.entries i).matchesKey f key
      · simp [Option.filter, hmatch, SearchEnd.hit]
      · simp [Option.filter, hmatch, SearchEnd.hit]

/-- The search of `get` and `remove` always ends, with the slot `findSlot`. -/
theorem find_eq : find f m key = some (m.findSlot f key) := by
  rw [find, findLoop_eq_searchLoop, searchLoop_eq, Option.map_some, hit_searchEnd]

/-- A search that stops short of a key stops at an empty slot when there is one, and otherwise
after a full turn. -/
theorem searchEnd_of_miss (h : m.findSlot f key = none) :
    (∃ i, m.searchEnd f key = .empty i ∧ (m.entries i).key = none) ∨
      (m.searchEnd f key = .circled ∧ ∀ i, (m.entries i).isOccupied) := by
  have hhit : (m.searchEnd f key).hit = none := hit_searchEnd.trans h
  rw [searchEnd] at hhit ⊢
  cases hfirst : Probe.firstHit (m.stopsAt f key) (m.home f key) with
  | none =>
      refine .inr ⟨rfl, fun i => ?_⟩
      have hmiss := Probe.firstHit_eq_none_iff.mp hfirst i
      rw [stopsAt, Bool.or_eq_false_iff] at hmiss
      simpa using hmiss.1
  | some i =>
      rw [hfirst] at hhit
      by_cases hmatch : (m.entries i).matchesKey f key
      · simp [hmatch, SearchEnd.hit] at hhit
      · refine .inl ⟨i, by simp [hmatch], ?_⟩
        have hstop := Probe.firstHit_spec hfirst
        simpa [stopsAt, HashEntry.isOccupied, hmatch] using hstop

theorem matchesKey_of_findSlot {i : Fin m.capacity} (h : m.findSlot f key = some i) :
    (m.entries i).matchesKey f key := by
  rw [findSlot, Option.filter_eq_some_iff] at h
  exact h.2

/-! ## The probing loop of `put` -/

/-- What `first_tombstone_index` holds once `d` slots are behind the loop. -/
private def TombstoneSeen (m : HashMap K V) (start : Fin m.capacity) (d : ℕ) :
    Option (Fin m.capacity) → Prop
  | none => ∀ e < d, (m.entries (Probe.walk start e)).isLive
  | some t => firstFree m.entries start = some t

private theorem TombstoneSeen.getD {start : Fin m.capacity} {d : ℕ} (hd : d < m.capacity)
    {ft : Option (Fin m.capacity)} (h : TombstoneSeen m start d ft)
    (hnull : (m.entries (Probe.walk start d)).isLive = false) :
    ft.getD (Probe.walk start d) = (firstFree m.entries start).getD start := by
  cases ft with
  | some t => rw [show firstFree m.entries start = some t from h]; rfl
  | none =>
      have hlive : ∀ e < d, (m.entries (Probe.walk start e)).isLive := h
      rw [firstFree, Probe.firstHit_of_walk hd (by simp [hnull])
        (by intro e he; simp [hlive e he])]
      rfl

private theorem TombstoneSeen.getD_of_full_turn {start : Fin m.capacity}
    {ft : Option (Fin m.capacity)} (h : TombstoneSeen m start m.capacity ft) :
    ft.getD start = (firstFree m.entries start).getD start := by
  cases ft with
  | some t => rw [show firstFree m.entries start = some t from h]
  | none =>
      have hlive : ∀ e < m.capacity, (m.entries (Probe.walk start e)).isLive := h
      have hnone : firstFree m.entries start = none :=
        Probe.firstHit_of_full_turn (by intro e he; simp [hlive e he])
      rw [hnone]

/-- The two ways the probing loop of `hash_map_put` ends, in terms of the two searches. -/
def PutProbe.Agrees (f : Callbacks K) (m : HashMap K V) (key : K) :
    PutProbe m.capacity → Prop
  | .found i => m.findSlot f key = some i
  | .absent i ft => m.findSlot f key = none ∧
      ft.getD i = (firstFree m.entries (m.home f key)).getD (m.home f key)

/-- The third way, open to a `compare_func` that finds `TOMBSTONE` equal to the key. -/
def PutProbe.MistakesTombstone (f : Callbacks K) (m : HashMap K V) (key : K) :
    PutProbe m.capacity → Prop
  | .found i => (m.entries i).key = some .tombstone ∧ f.compareFunc key .tombstone = 0
  | .absent _ _ => False

private theorem putLoop_walk (f : Callbacks K) (m : HashMap K V) (key : K) : ∀ fuel d ft, d < m.capacity →
    d + fuel = m.capacity →
    (∀ e < d, m.stopsAt f key (Probe.walk (m.home f key) e) = false) →
    TombstoneSeen m (m.home f key) d ft →
    ∃ r, putLoop f m key (m.home f key) fuel (Probe.walk (m.home f key) d) ft = some r ∧
      (r.Agrees f m key ∨ r.MistakesTombstone f m key) := by
  intro fuel
  induction fuel with
  | zero => intro d ft hd hfuel; omega
  | succ fuel ih =>
      intro d ft hd hfuel hbefore hseen
      rw [putLoop]
      cases hk : (m.entries (Probe.walk (m.home f key) d)).key with
      | none =>
          obtain ⟨hstop, hmatch⟩ := stopsAt_of_null f key hk
          refine ⟨_, rfl, .inl ⟨?_, hseen.getD hd (by simp [HashEntry.isLive, hk])⟩⟩
          simp [findSlot, Probe.firstHit_of_walk hd hstop hbefore, Option.filter, hmatch]
      | some k =>
          have htest := matchesKey_eq f key hk
          simp only [Probe.next_walk, Probe.walk_succ_eq_start hd]
          -- The slot is passed over: both searches go on, with `ft'` as the tombstone seen.
          have hpass : (m.entries (Probe.walk (m.home f key) d)).matchesKey f key = false →
              ∀ ft', TombstoneSeen m (m.home f key) (d + 1) ft' →
              ∃ r, (if d + 1 = m.capacity then some (PutProbe.absent (m.home f key) ft')
                else putLoop f m key (m.home f key) fuel
                  (Probe.walk (m.home f key) (d + 1)) ft') = some r ∧
                (r.Agrees f m key ∨ r.MistakesTombstone f m key) := by
            intro hmatch ft' hseen'
            have hbefore' := passes_succ hbefore hk hmatch
            by_cases hturn : d + 1 = m.capacity
            · rw [if_pos hturn]
              refine ⟨_, rfl, .inl ⟨?_, ?_⟩⟩
              · rw [findSlot, Probe.firstHit_of_full_turn
                  (by intro e he; exact hbefore' e (by omega))]
                rfl
              · rw [hturn] at hseen'
                exact hseen'.getD_of_full_turn
            · rw [if_neg hturn]
              exact ih (d + 1) ft' (by omega) (by omega) hbefore' hseen'
          cases k with
          | tombstone =>
              have hmatch : (m.entries (Probe.walk (m.home f key) d)).matchesKey f key = false := by
                simp [htest, KeyPtr.isTombstone]
              cases ft with
              | none =>
                  refine hpass hmatch (some _) ?_
                  have hlive : ∀ e < d, (m.entries (Probe.walk (m.home f key) e)).isLive := hseen
                  exact Probe.firstHit_of_walk hd (by simp [HashEntry.isLive, hk])
                    (by intro e he; simp [hlive e he])
              | some t =>
                  simp only [KeyPtr.isTombstone, Option.isNone_some, Bool.and_false,
                    Bool.false_eq_true, if_false]
                  by_cases hcmp : f.compareFunc key .tombstone = 0
                  · rw [if_pos hcmp]
                    exact ⟨_, rfl, .inr ⟨hk, hcmp⟩⟩
                  · rw [if_neg hcmp]
                    exact hpass hmatch (some t) hseen
          | block k =>
              simp only [KeyPtr.isTombstone, Bool.false_and, Bool.false_eq_true, if_false]
              by_cases hcmp : f.compareFunc key (.block k) = 0
              · have hmatch : (m.entries (Probe.walk (m.home f key) d)).matchesKey f key := by
                  simp [htest, KeyPtr.isTombstone, hcmp]
                rw [if_pos hcmp]
                refine ⟨_, rfl, .inl ?_⟩
                simp [PutProbe.Agrees, findSlot, Option.filter, hmatch,
                  Probe.firstHit_of_walk hd (stopsAt_of_matchesKey hmatch) hbefore]
              · rw [if_neg hcmp]
                refine hpass (by simp [htest, KeyPtr.isTombstone, hcmp]) ft ?_
                cases ft with
                | some t => exact hseen
                | none =>
                    refine Nat.forall_lt_succ_right.mpr ⟨hseen, ?_⟩
                    simp [HashEntry.isLive, hk]

/-- The probing loop of `hash_map_put` always ends: at the slot `get` would find, or, when
there is none, with the first slot of the walk that is not live chosen for the new key, or
at a tombstone taken for the key. -/
theorem putLoop_ends (f : Callbacks K) (m : HashMap K V) (key : K) :
    ∃ r, putLoop f m key (m.home f key) m.capacity (m.home f key) none = some r ∧
      (r.Agrees f m key ∨ r.MistakesTombstone f m key) := by
  have h := putLoop_walk f m key m.capacity 0 none m.capacity_pos
    (by omega) (by intro e he; omega) (by intro e he; omega)
  simpa only [Probe.walk_zero] using h

/-- A `compare_func` that skips `TOMBSTONE` leaves the first two ways. -/
theorem putLoop_cases (hf : f.SkipsTombstone) (m : HashMap K V) (key : K) :
    ∃ r, putLoop f m key (m.home f key) m.capacity (m.home f key) none = some r ∧
      r.Agrees f m key := by
  obtain ⟨r, hr, hagrees | hmistakes⟩ := putLoop_ends f m key
  · exact ⟨r, hr, hagrees⟩
  · cases r with
    | found i => exact absurd hmistakes.2 (hf key)
    | absent i ft => exact hmistakes.elim

end HashMap

end Ctm
