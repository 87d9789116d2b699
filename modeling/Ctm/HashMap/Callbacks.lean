import Ctm.HashMap.Refinement

/-!
# What the callbacks are shown

`hash_func` and `compare_func` are written for keys.  `hash_map_get` and
`hash_map_remove` test for `TOMBSTONE` before they compare; `hash_map_put` makes that
test for the first tombstone of a walk only, and `hash_map_resize` hashes every non-NULL
key.  So a callback is shown the one-byte placeholder when a table with a tombstone is
rehashed, which every shrinking remove does, and when a put walks over two tombstones.

The functions here are those of the table, with a record of what each callback is shown.
A put calls its callbacks before it writes, so there is a record also where the put itself
has no result.

## Main definitions

* `Shown` — an argument of a callback, and the map as it is then.
* `putLog`, `getLog`, `removeLog`, `callLog` — the calls with their records.
* `callLog_eq` — the records aside, they are the calls.
* `ShowsTombstone`, `callbacks_see_keys` — when a callback is shown a tombstone.
-/

namespace Ctm

/-- An argument of `hash_func`, or a second argument of `compare_func`, and the map as it is
when the callback is called. -/
structure Shown (K V : Type) where
  map : HashMap K V
  arg : KeyPtr K

/-- The argument is the caller's key, or the key of a live entry. -/
def Shown.IsKey {K V : Type} (key : K) (s : Shown K V) : Prop :=
  ∃ k, s.arg = .block k ∧ (k = key ∨ ∃ i, (s.map.entries i).key = some (.block k))

namespace HashMap
variable {K V : Type} {f : Callbacks K} {m m' : HashMap K V} {c : ℕ}

/-! ## The loops and their records -/

/-- The body of the outer loop of `hash_map_resize`. -/
def rehashEntryLog (f : Callbacks K) (m : HashMap K V) {c : ℕ} (hc : 0 < c)
    (new : Fin c → HashEntry K V) (old : HashEntry K V) :
    Option (List (Shown K V) × (Fin c → HashEntry K V)) :=
  match old.key with
  | none => some ([], new)
  | some key => do
      let index ← freeSlot new c (slotOf hc (f.hashFunc key))
      pure ([⟨m, key⟩], Function.update new index ⟨some key, old.value⟩)

/-- The outer loop of `hash_map_resize`. -/
def rehashLog (f : Callbacks K) (m : HashMap K V) {c : ℕ} (hc : 0 < c) :
    Option (List (Shown K V) × (Fin c → HashEntry K V)) :=
  (List.finRange m.capacity).foldlM
    (fun r i => do
      let (log, new) ← rehashEntryLog f m hc r.2 (m.entries i)
      pure (r.1 ++ log, new))
    ([], fun _ => .null)

/-- `hash_map_resize` -/
def resizeLog (f : Callbacks K) (a : Allocs) (m : HashMap K V) (newCapacity : ℕ) :
    Option (List (Shown K V) × Result K V) :=
  if hc : newCapacity = 0 then some ([], ⟨-1, some .EINVAL, m⟩)
  else if !a.table newCapacity then some ([], ⟨-1, some .ENOMEM, m⟩)
  else do
    let (log, entries) ← rehashLog f m (Nat.pos_of_ne_zero hc)
    pure (log, ⟨0, none, ⟨newCapacity, Nat.pos_of_ne_zero hc, entries, m.count⟩⟩)

/-- The probing loop of `hash_map_put`. -/
def putLoopLog (f : Callbacks K) (m : HashMap K V) (key : K) (start : Fin m.capacity) :
    ℕ → Fin m.capacity → Option (Fin m.capacity) →
      Option (List (Shown K V) × PutProbe m.capacity)
  | 0, _, _ => none
  | fuel + 1, index, firstTombstone =>
      match (m.entries index).key with
      | none => some ([], .absent index firstTombstone)
      | some k =>
          if k.isTombstone && firstTombstone.isNone then
            if Probe.next index = start then some ([], .absent start (some index))
            else putLoopLog f m key start fuel (Probe.next index) (some index)
          else if f.compareFunc key k = 0 then some ([⟨m, k⟩], .found index)
          else if Probe.next index = start then some ([⟨m, k⟩], .absent start firstTombstone)
          else do
            let (log, r) ← putLoopLog f m key start fuel (Probe.next index) firstTombstone
            pure (⟨m, k⟩ :: log, r)

/-- The probing loop of `hash_map_get` and `hash_map_remove`. -/
def findLoopLog (f : Callbacks K) (m : HashMap K V) (key : K) (start : Fin m.capacity) :
    ℕ → Fin m.capacity → Option (List (Shown K V) × Option (Fin m.capacity))
  | 0, _ => none
  | fuel + 1, index =>
      match (m.entries index).key with
      | none => some ([], none)
      | some k =>
          -- `compare_func` is not called once the first half of the `&&` is false.
          let log : List (Shown K V) := if k.isTombstone then [] else [⟨m, k⟩]
          if !k.isTombstone && f.compareFunc key k == 0 then some (log, some index)
          else if Probe.next index = start then some (log, none)
          else do
            let (rest, r) ← findLoopLog f m key start fuel (Probe.next index)
            pure (log ++ rest, r)

/-! ## The calls and their records -/

/-- `hash_map_put` after the load test. -/
def putEntryLog (f : Callbacks K) (a : Allocs) (m : HashMap K V) (key : K) (value : V) :
    Option (List (Shown K V) × Option (Result K V)) := do
  let (log, probe) ← putLoopLog f m key (m.home f key) m.capacity (m.home f key) none
  let log := ⟨m, .block key⟩ :: log
  match probe with
  | .found index =>
      pure (log, do
        let _ ← (m.entries index).value
        pure ⟨0, none, m.setEntry index { m.entries index with value := some value }⟩)
  | .absent index firstTombstone =>
      pure (log, some (putNew a m (firstTombstone.getD index) key value))

/-- `hash_map_put` -/
def putLog (f : Callbacks K) (a : Allocs) (m : HashMap K V) (key : Option K) (value : Option V) :
    Option (List (Shown K V) × Option (Result K V)) :=
  match key, value with
  | some key, some value =>
      if 3 * m.capacity ≤ 4 * m.count then do
        let (log, r) ← resizeLog f a m (m.capacity * 2 % sizeMod)
        if r.ret ≠ 0 then pure (log, some { r with ret := -1 })
        else do
          let (rest, r') ← putEntryLog f a r.map key value
          pure (log ++ rest, r')
      else putEntryLog f a m key value
  | _, _ => some ([], some ⟨-1, some .EINVAL, m⟩)

/-- The search of `hash_map_get` and `hash_map_remove`. -/
def findLog (f : Callbacks K) (m : HashMap K V) (key : K) :
    Option (List (Shown K V) × Option (Fin m.capacity)) := do
  let (log, hit) ← findLoopLog f m key (m.home f key) m.capacity (m.home f key)
  pure (⟨m, .block key⟩ :: log, hit)

/-- `hash_map_get` -/
def getLog (f : Callbacks K) (m : HashMap K V) (key : Option K) :
    Option (List (Shown K V) × Option V × Option Errno) :=
  match key with
  | none => some ([], none, some .EINVAL)
  | some key => do
      let (log, hit) ← findLog f m key
      match hit with
      | some index => pure (log, (m.entries index).value, none)
      | none => pure (log, none, none)

/-- The end of `hash_map_remove`. -/
def shrinkLog (f : Callbacks K) (a : Allocs) (m : HashMap K V) :
    Option (List (Shown K V) × Result K V) :=
  if minimumCapacity < m.capacity ∧ 0 < m.count ∧ 4 * m.count ≤ m.capacity then do
    let (log, r) ← resizeLog f a m m.shrunkCapacity
    pure (log, { r with ret := 1 })
  else some ([], ⟨1, none, m⟩)

/-- `hash_map_remove` -/
def removeLog (f : Callbacks K) (a : Allocs) (m : HashMap K V) (key : Option K) :
    Option (List (Shown K V) × Result K V) :=
  match key with
  | none => some ([], ⟨-1, some .EINVAL, m⟩)
  | some key => do
      let (log, hit) ← findLog f m key
      match hit with
      | some index => do
          let (rest, r) ← shrinkLog f a (m.tombstoneAt index)
          pure (log ++ rest, r)
      | none => pure (log, ⟨0, none, m⟩)

/-- The key of a call. -/
def Op.key : Op K V → K
  | .put key _ => key
  | .get key => key
  | .remove key => key

/-- One call, with what it shows the callbacks. -/
def callLog (f : Callbacks K) (m : HashMap K V) :
    Op K V × Allocs → Option (List (Shown K V) × Option (Seen V × HashMap K V))
  | (.put key value, a) => do
      let (log, r) ← putLog f a m (some key) (some value)
      pure (log, r.map fun r => (⟨.status r.ret, r.map.hashMapCount, r.errno⟩, r.map))
  | (.get key, _) => do
      let (log, r) ← getLog f m (some key)
      pure (log, some (⟨.value r.1, m.hashMapCount, r.2⟩, m))
  | (.remove key, a) => do
      let (log, r) ← removeLog f a m (some key)
      pure (log, some (⟨.status r.ret, r.map.hashMapCount, r.errno⟩, r.map))

/-! ## The records aside -/

theorem rehashEntryLog_eq (hc : 0 < c) (new : Fin c → HashEntry K V) (old : HashEntry K V) :
    (rehashEntryLog f m hc new old).map Prod.snd = rehashEntry f hc new old := by
  rw [rehashEntryLog, rehashEntry]
  cases old.key with
  | none => rfl
  | some key =>
      dsimp only
      cases freeSlot new c (slotOf hc (f.hashFunc key)) <;> rfl

theorem rehashLog_eq (hc : 0 < c) : (rehashLog f m hc).map Prod.snd = rehash f m hc := by
  have key : ∀ (l : List (Fin m.capacity)) (r : List (Shown K V) × (Fin c → HashEntry K V)),
      (l.foldlM (fun (r : List (Shown K V) × (Fin c → HashEntry K V)) i => do
        let (log, new) ← rehashEntryLog f m hc r.2 (m.entries i)
        pure (r.1 ++ log, new)) r).map Prod.snd =
      l.foldlM (fun new i => rehashEntry f hc new (m.entries i)) r.2 := by
    intro l
    induction l with
    | nil => intro r; rfl
    | cons i l ih =>
        intro r
        rw [List.foldlM_cons, List.foldlM_cons, ← rehashEntryLog_eq (m := m)]
        cases rehashEntryLog f m hc r.2 (m.entries i) with
        | none => rfl
        | some p => exact ih _
  exact key _ _

theorem resizeLog_eq (a : Allocs) (newCapacity : ℕ) :
    (resizeLog f a m newCapacity).map Prod.snd = resize f a m newCapacity := by
  rw [resizeLog, resize]
  split
  · rfl
  · split
    · rfl
    · rename_i hc _
      rw [← rehashLog_eq (Nat.pos_of_ne_zero hc)]
      cases rehashLog f m (Nat.pos_of_ne_zero hc) <;> rfl

theorem putLoopLog_eq (key : K) (start : Fin m.capacity) :
    ∀ fuel index firstTombstone,
      (putLoopLog f m key start fuel index firstTombstone).map Prod.snd =
        putLoop f m key start fuel index firstTombstone := by
  intro fuel
  induction fuel with
  | zero => intro index ft; rfl
  | succ fuel ih =>
      intro index ft
      rw [putLoopLog, putLoop]
      cases (m.entries index).key with
      | none => rfl
      | some k =>
          dsimp only
          split_ifs
          · rfl
          · exact ih _ _
          · rfl
          · rfl
          · rw [← ih]
            cases putLoopLog f m key start fuel (Probe.next index) ft <;> rfl

theorem findLoopLog_eq (key : K) (start : Fin m.capacity) :
    ∀ fuel index, (findLoopLog f m key start fuel index).map Prod.snd =
      findLoop f m key start fuel index := by
  intro fuel
  induction fuel with
  | zero => intro index; rfl
  | succ fuel ih =>
      intro index
      rw [findLoopLog, findLoop]
      cases (m.entries index).key with
      | none => rfl
      | some k =>
          dsimp only
          by_cases hmatch : (!k.isTombstone && f.compareFunc key k == 0) = true
          · rw [if_pos hmatch, if_pos hmatch]
            rfl
          · rw [if_neg hmatch, if_neg hmatch]
            by_cases hturn : Probe.next index = start
            · rw [if_pos hturn, if_pos hturn]
              rfl
            · rw [if_neg hturn, if_neg hturn, ← ih]
              cases findLoopLog f m key start fuel (Probe.next index) <;> rfl

theorem findLog_eq (key : K) : (findLog f m key).map Prod.snd = find f m key := by
  rw [findLog, find, ← findLoopLog_eq]
  cases findLoopLog f m key (m.home f key) m.capacity (m.home f key) <;> rfl

theorem putEntryLog_eq (a : Allocs) (key : K) (value : V) :
    (putEntryLog f a m key value).bind Prod.snd = putEntry f a m key value := by
  rw [putEntryLog, putEntry, ← putLoopLog_eq]
  cases putLoopLog f m key (m.home f key) m.capacity (m.home f key) none with
  | none => rfl
  | some p =>
      obtain ⟨log, probe⟩ := p
      cases probe <;> rfl

theorem putLog_eq (a : Allocs) (key : K) (value : V) :
    (putLog f a m (some key) (some value)).bind Prod.snd = put f a m (some key) (some value) := by
  rw [putLog, put]
  dsimp only
  split
  · rw [← resizeLog_eq]
    cases resizeLog f a m (m.capacity * 2 % sizeMod) with
    | none => rfl
    | some p =>
        obtain ⟨log, r⟩ := p
        simp only [Option.bind_eq_bind, Option.bind_some, Option.map_some]
        split
        · rfl
        · rw [← putEntryLog_eq]
          cases putEntryLog f a r.map key value <;> rfl
  · exact putEntryLog_eq a key value

theorem getLog_eq (key : K) :
    (getLog f m (some key)).map Prod.snd = get f m (some key) := by
  rw [getLog, get]
  dsimp only
  rw [← findLog_eq]
  cases findLog f m key with
  | none => rfl
  | some p =>
      obtain ⟨log, hit⟩ := p
      cases hit <;> rfl

theorem shrinkLog_eq (a : Allocs) : (shrinkLog f a m).map Prod.snd = shrink f a m := by
  rw [shrinkLog, shrink]
  split
  · rw [← resizeLog_eq]
    cases resizeLog f a m m.shrunkCapacity <;> rfl
  · rfl

theorem removeLog_eq (a : Allocs) (key : K) :
    (removeLog f a m (some key)).map Prod.snd = remove f a m (some key) := by
  rw [removeLog, remove]
  dsimp only
  rw [← findLog_eq]
  cases findLog f m key with
  | none => rfl
  | some p =>
      obtain ⟨log, hit⟩ := p
      cases hit with
      | none => rfl
      | some index =>
          simp only [Option.bind_eq_bind, Option.bind_some, Option.map_some]
          rw [← shrinkLog_eq]
          cases shrinkLog f a (m.tombstoneAt index) <;> rfl

/-- The records aside, a call with its record is the call. -/
theorem callLog_eq (call' : Op K V × Allocs) :
    (callLog f m call').bind Prod.snd = call f m call' := by
  obtain ⟨op, a⟩ := call'
  cases op with
  | put key value =>
      rw [callLog, call, ← putLog_eq]
      cases putLog f a m (some key) (some value) with
      | none => rfl
      | some p =>
          obtain ⟨log, r⟩ := p
          cases r <;> rfl
  | get key =>
      rw [callLog, call, ← getLog_eq]
      cases getLog f m (some key) <;> rfl
  | remove key =>
      rw [callLog, call, ← removeLog_eq]
      cases removeLog f a m (some key) <;> rfl

/-! ## Where the arguments come from -/

/-- A slot of the map holds `TOMBSTONE`. -/
def HasTombstone (m : HashMap K V) : Prop := ∃ i, (m.entries i).key = some .tombstone

/-- The walk from the home slot of `key` meets two tombstones before a slot that stops a
search for it. -/
def MeetsTwoTombstones (f : Callbacks K) (m : HashMap K V) (key : K) : Prop :=
  ∃ d₁ d₂, d₁ < d₂ ∧ d₂ < m.capacity ∧
    (m.entries (Probe.walk (m.home f key) d₁)).key = some .tombstone ∧
    (m.entries (Probe.walk (m.home f key) d₂)).key = some .tombstone ∧
    ∀ e < d₂, m.stopsAt f key (Probe.walk (m.home f key) e) = false

/-- The call shows a callback a tombstone: a put that grows a table with one, or that walks
over two; a remove that finds its key and shrinks the table. -/
def ShowsTombstone (f : Callbacks K) (m : HashMap K V) : Op K V × Allocs → Prop
  | (.put key _, a) =>
      if 3 * m.capacity ≤ 4 * m.count then a.table (m.capacity * 2) = true ∧ m.HasTombstone
      else m.MeetsTwoTombstones f key
  | (.get _, _) => False
  | (.remove key, a) =>
      (∃ i, m.findSlot f key = some i) ∧ minimumCapacity < m.capacity ∧ 0 < m.count - 1 ∧
        4 * (m.count - 1) ≤ m.capacity ∧ a.table m.shrunkCapacity = true

/-- Each argument is the caller's key, or the key of a slot. -/
def Sourced (key : K) (log : List (Shown K V)) : Prop :=
  ∀ s ∈ log, s.arg = .block key ∨ ∃ i, (s.map.entries i).key = some s.arg

/-- Some argument is `TOMBSTONE`. -/
def ShownTombstone (log : List (Shown K V)) : Prop := ∃ s ∈ log, s.arg = .tombstone

section Log
variable {key : K} {log log' : List (Shown K V)} {s : Shown K V}

/-- Only `TOMBSTONE` is neither the caller's key nor a live one. -/
theorem Sourced.forall_isKey_iff (h : Sourced key log) :
    (∀ s ∈ log, s.IsKey key) ↔ ¬ ShownTombstone log := by
  constructor
  · rintro hkeys ⟨s, hs, htomb⟩
    obtain ⟨k, hk, -⟩ := hkeys s hs
    cases htomb.symm.trans hk
  · intro hno s hs
    cases harg : s.arg with
    | tombstone => exact absurd ⟨s, hs, harg⟩ hno
    | block k =>
        refine ⟨k, harg, ?_⟩
        rcases h s hs with hcaller | hslot
        · exact .inl (KeyPtr.block.inj (harg.symm.trans hcaller))
        · rw [harg] at hslot
          exact .inr hslot

theorem Sourced.nil : Sourced key ([] : List (Shown K V)) := by
  intro s hs
  cases hs

theorem Sourced.append (h : Sourced key log) (h' : Sourced key log') :
    Sourced key (log ++ log') := by
  intro s hs
  rcases List.mem_append.mp hs with hs | hs
  · exact h s hs
  · exact h' s hs

theorem Sourced.cons (hs : s.arg = .block key ∨ ∃ i, (s.map.entries i).key = some s.arg)
    (h : Sourced key log) : Sourced key (s :: log) := by
  intro s' hs'
  rcases List.mem_cons.mp hs' with rfl | hs'
  · exact hs
  · exact h s' hs'

theorem not_shownTombstone_nil : ¬ ShownTombstone ([] : List (Shown K V)) := by
  rintro ⟨s, hs, -⟩
  cases hs

theorem shownTombstone_append : ShownTombstone (log ++ log') ↔
    ShownTombstone log ∨ ShownTombstone log' := by
  simp only [ShownTombstone, List.mem_append, or_and_right, exists_or]

theorem shownTombstone_cons : ShownTombstone (s :: log) ↔
    s.arg = .tombstone ∨ ShownTombstone log := by
  simp only [ShownTombstone, List.mem_cons, or_and_right, exists_or, exists_eq_left]

end Log

/-! ## Resizing -/

/-- The keys of a rehashed table are those of the old one. -/
theorem rehash_key {hc : 0 < c} {new : Fin c → HashEntry K V} (h : rehash f m hc = some new)
    {j : Fin c} {p : KeyPtr K} (hp : (new j).key = some p) : ∃ i, (m.entries i).key = some p := by
  have step : ∀ (l : List (Fin m.capacity)) (T U : Fin c → HashEntry K V),
      (∀ j p, (T j).key = some p → ∃ i, (m.entries i).key = some p) →
      l.foldlM (fun new i => rehashEntry f hc new (m.entries i)) T = some U →
      ∀ j p, (U j).key = some p → ∃ i, (m.entries i).key = some p := by
    intro l
    induction l with
    | nil =>
        intro T U hT hU
        obtain rfl := Option.some.inj hU
        exact hT
    | cons x l ih =>
        intro T U hT hU
        obtain ⟨T', hT', hU⟩ := Option.bind_eq_some_iff.mp hU
        refine ih T' U ?_ hU
        change rehashEntry f hc T (m.entries x) = some T' at hT'
        simp only [rehashEntry] at hT'
        cases hkey : (m.entries x).key with
        | none =>
            simp only [hkey] at hT'
            obtain rfl := Option.some.inj hT'
            exact hT
        | some q =>
            simp only [hkey] at hT'
            obtain ⟨index, -, hT'⟩ := Option.bind_eq_some_iff.mp hT'
            obtain rfl := Option.some.inj hT'
            intro j p hp
            by_cases hj : j = index
            · subst hj
              rw [Function.update_self] at hp
              exact ⟨x, hkey.trans hp⟩
            · rw [Function.update_of_ne hj] at hp
              exact hT j p hp
  exact step _ _ _ (by intro j p hp; cases hp) h j p hp

/-- `hash_map_resize` shows `hash_func` the key of every occupied slot. -/
theorem rehashLog_log {hc : 0 < c} {log : List (Shown K V)} {new : Fin c → HashEntry K V}
    (h : rehashLog f m hc = some (log, new)) :
    log = (List.finRange m.capacity).filterMap fun i => (m.entries i).key.map (Shown.mk m) := by
  have step : ∀ (l : List (Fin m.capacity)) (r r' : List (Shown K V) × (Fin c → HashEntry K V)),
      l.foldlM (fun (r : List (Shown K V) × (Fin c → HashEntry K V)) i => do
        let (log, new) ← rehashEntryLog f m hc r.2 (m.entries i)
        pure (r.1 ++ log, new)) r = some r' →
      r'.1 = r.1 ++ l.filterMap fun i => (m.entries i).key.map (Shown.mk m) := by
    intro l
    induction l with
    | nil =>
        intro r r' h
        obtain rfl := Option.some.inj h
        rw [List.filterMap_nil, List.append_nil]
    | cons x l ih =>
        intro r r' h
        obtain ⟨r₁, hr₁, h⟩ := Option.bind_eq_some_iff.mp h
        obtain ⟨⟨log, new⟩, hlog, hr₁⟩ := Option.bind_eq_some_iff.mp hr₁
        obtain rfl := Option.some.inj hr₁
        rw [ih _ _ h, List.append_assoc]
        congr 1
        rw [rehashEntryLog] at hlog
        cases hkey : (m.entries x).key with
        | none =>
            rw [hkey] at hlog
            obtain ⟨rfl, -⟩ := Prod.mk.inj (Option.some.inj hlog)
            rw [List.filterMap_cons_none (by rw [hkey]; rfl), List.nil_append]
        | some q =>
            rw [hkey] at hlog
            obtain ⟨index, -, hlog⟩ := Option.bind_eq_some_iff.mp hlog
            obtain ⟨rfl, -⟩ := Prod.mk.inj (Option.some.inj hlog)
            rw [List.filterMap_cons_some (by rw [hkey]; rfl)]
            rfl
  exact step _ _ _ h

/-- What a resize with room for the live entries shows: nothing when its allocation fails,
else every occupied slot of the old table. -/
theorem resizeLog_cases (f : Callbacks K) (a : Allocs) {newCapacity : ℕ} (key : K)
    (hlt : Probe.countSlots HashEntry.isLive m.entries < newCapacity) :
    (a.table newCapacity = false ∧
      resizeLog f a m newCapacity = some ([], ⟨-1, some .ENOMEM, m⟩)) ∨
    (a.table newCapacity = true ∧ ∃ log m₁, resizeLog f a m newCapacity = some (log, ⟨0, none, m₁⟩) ∧
      resize f a m newCapacity = some ⟨0, none, m₁⟩ ∧ Sourced key log ∧
      (ShownTombstone log ↔ m.HasTombstone) ∧ (m₁.HasTombstone → m.HasTombstone)) := by
  have hpos : newCapacity ≠ 0 := by omega
  cases ha : a.table newCapacity with
  | false => exact .inl ⟨rfl, by rw [resizeLog, dif_neg hpos, ha]; rfl⟩
  | true =>
      obtain ⟨new, hnew, -⟩ := rehash_spec (f := f) (m := m) (Nat.pos_of_ne_zero hpos) hlt
      rw [← rehashLog_eq, Option.map_eq_some_iff] at hnew
      obtain ⟨⟨log, new'⟩, hlog, rfl⟩ := hnew
      have hrehash : rehash f m (Nat.pos_of_ne_zero hpos) = some new' := by
        rw [← rehashLog_eq, hlog]
        rfl
      have hargs := rehashLog_log hlog
      have hresize : resizeLog f a m newCapacity = some (log, ⟨0, none,
          ⟨newCapacity, Nat.pos_of_ne_zero hpos, new', m.count⟩⟩) := by
        rw [resizeLog, dif_neg hpos, ha, hlog]
        rfl
      refine .inr ⟨rfl, log, _, hresize, by rw [← resizeLog_eq, hresize]; rfl, ?_, ?_, ?_⟩
      · intro s hs
        rw [hargs, List.mem_filterMap] at hs
        obtain ⟨i, -, hi⟩ := hs
        obtain ⟨p, hp, rfl⟩ := Option.map_eq_some_iff.mp hi
        exact .inr ⟨i, hp⟩
      · rw [hargs]
        constructor
        · rintro ⟨s, hs, htomb⟩
          obtain ⟨i, -, hi⟩ := List.mem_filterMap.mp hs
          obtain ⟨p, hp, rfl⟩ := Option.map_eq_some_iff.mp hi
          exact ⟨i, by rw [hp]; exact congrArg some htomb⟩
        · rintro ⟨i, hi⟩
          exact ⟨⟨m, .tombstone⟩, List.mem_filterMap.mpr ⟨i, List.mem_finRange i, by rw [hi]; rfl⟩,
            rfl⟩
      · rintro ⟨j, hj⟩
        exact rehash_key hrehash hj

/-! ## Probing -/

/-- The search of `hash_map_get` and `hash_map_remove` compares with live keys only. -/
theorem findLoopLog_log {key : K} {start : Fin m.capacity} :
    ∀ fuel index log r, findLoopLog f m key start fuel index = some (log, r) →
      Sourced key log ∧ ¬ ShownTombstone log := by
  intro fuel
  induction fuel with
  | zero => intro index log r h; cases h
  | succ fuel ih =>
      intro index log r h
      rw [findLoopLog] at h
      cases hk : (m.entries index).key with
      | none =>
          simp only [hk] at h
          obtain ⟨rfl, -⟩ := Prod.mk.inj (Option.some.inj h)
          exact ⟨.nil, not_shownTombstone_nil⟩
      | some k =>
          simp only [hk] at h
          -- What this slot shows.
          have hshown : Sourced key (if k.isTombstone = true then [] else [⟨m, k⟩] : List (Shown K V)) ∧
              ¬ ShownTombstone (if k.isTombstone = true then [] else [⟨m, k⟩] : List (Shown K V)) := by
            cases k with
            | tombstone => exact ⟨.nil, not_shownTombstone_nil⟩
            | block k =>
                refine ⟨Sourced.nil.cons (.inr ⟨index, hk⟩), ?_⟩
                rintro ⟨s, hs, htomb⟩
                rw [List.mem_singleton.mp hs] at htomb
                cases htomb
          split at h
          · obtain ⟨rfl, -⟩ := Prod.mk.inj (Option.some.inj h)
            exact hshown
          · split at h
            · obtain ⟨rfl, -⟩ := Prod.mk.inj (Option.some.inj h)
              exact hshown
            · obtain ⟨⟨rest, r'⟩, hrest, heq⟩ := Option.bind_eq_some_iff.mp h
              obtain ⟨rfl, -⟩ := Prod.mk.inj (Option.some.inj heq)
              obtain ⟨hsrc, hno⟩ := ih _ _ _ hrest
              exact ⟨hshown.1.append hsrc, fun h => (shownTombstone_append.mp h).elim hshown.2 hno⟩

/-- The probing loop of `hash_map_put` compares with the keys of slots. -/
theorem putLoopLog_sourced {key : K} {start : Fin m.capacity} :
    ∀ fuel index ft log r, putLoopLog f m key start fuel index ft = some (log, r) →
      Sourced key log := by
  intro fuel
  induction fuel with
  | zero => intro index ft log r h; cases h
  | succ fuel ih =>
      intro index ft log r h
      rw [putLoopLog] at h
      cases hk : (m.entries index).key with
      | none =>
          simp only [hk] at h
          obtain ⟨rfl, -⟩ := Prod.mk.inj (Option.some.inj h)
          exact .nil
      | some k =>
          have hshown : Sourced key ([⟨m, k⟩] : List (Shown K V)) :=
            Sourced.nil.cons (.inr ⟨index, hk⟩)
          simp only [hk] at h
          split at h
          · split at h
            · obtain ⟨rfl, -⟩ := Prod.mk.inj (Option.some.inj h)
              exact .nil
            · exact ih _ _ _ _ h
          · split at h
            · obtain ⟨rfl, -⟩ := Prod.mk.inj (Option.some.inj h)
              exact hshown
            · split at h
              · obtain ⟨rfl, -⟩ := Prod.mk.inj (Option.some.inj h)
                exact hshown
              · obtain ⟨⟨rest, r'⟩, hrest, heq⟩ := Option.bind_eq_some_iff.mp h
                obtain ⟨rfl, -⟩ := Prod.mk.inj (Option.some.inj heq)
                exact hshown.append (ih _ _ _ _ hrest)

/-- From place `d` of the walk on, a tombstone comes that is not the first: the first is
before `d` when `seen` is set. -/
private def MeetsSecond (f : Callbacks K) (m : HashMap K V) (key : K) (d : ℕ) (seen : Bool) : Prop :=
  ∃ d₂, d ≤ d₂ ∧ d₂ < m.capacity ∧
    (m.entries (Probe.walk (m.home f key) d₂)).key = some .tombstone ∧
    (∀ e < d₂, m.stopsAt f key (Probe.walk (m.home f key) e) = false) ∧
    (seen = true ∨ ∃ d₁, d ≤ d₁ ∧ d₁ < d₂ ∧
      (m.entries (Probe.walk (m.home f key) d₁)).key = some .tombstone)

section Second
variable {key : K} {d : ℕ} {seen : Bool}

/-- The walk ends at a slot that stops the search. -/
private theorem not_meetsSecond_of_stop (h : (m.entries (Probe.walk (m.home f key) d)).key ≠ some .tombstone)
    (hstop : m.stopsAt f key (Probe.walk (m.home f key) d) = true) :
    ¬ MeetsSecond f m key d seen := by
  rintro ⟨d₂, hle, -, htomb, hpass, -⟩
  rcases Nat.lt_or_eq_of_le hle with hlt | rfl
  · rw [hpass d hlt] at hstop
    cases hstop
  · exact h htomb

/-- The walk ends after a full turn. -/
private theorem not_meetsSecond_of_full_turn (hd : m.capacity ≤ d) :
    ¬ MeetsSecond f m key d seen := by
  rintro ⟨d₂, hle, hlt, -⟩
  omega

/-- A slot with a live key is passed. -/
private theorem meetsSecond_succ (h : (m.entries (Probe.walk (m.home f key) d)).key ≠ some .tombstone) :
    MeetsSecond f m key d seen ↔ MeetsSecond f m key (d + 1) seen := by
  constructor
  · rintro ⟨d₂, hle, hlt, htomb, hpass, hseen⟩
    have hne : d ≠ d₂ := by
      rintro rfl
      exact h htomb
    refine ⟨d₂, by omega, hlt, htomb, hpass, hseen.imp_right ?_⟩
    rintro ⟨d₁, hle₁, hlt₁, htomb₁⟩
    have hne₁ : d ≠ d₁ := by
      rintro rfl
      exact h htomb₁
    exact ⟨d₁, by omega, hlt₁, htomb₁⟩
  · rintro ⟨d₂, hle, hlt, htomb, hpass, hseen⟩
    refine ⟨d₂, by omega, hlt, htomb, hpass, hseen.imp_right ?_⟩
    rintro ⟨d₁, hle₁, hlt₁, htomb₁⟩
    exact ⟨d₁, by omega, hlt₁, htomb₁⟩

/-- The first tombstone is passed, and noted. -/
private theorem meetsSecond_first (h : (m.entries (Probe.walk (m.home f key) d)).key = some .tombstone) :
    MeetsSecond f m key d false ↔ MeetsSecond f m key (d + 1) true := by
  constructor
  · rintro ⟨d₂, hle, hlt, htomb, hpass, hseen | ⟨d₁, hle₁, hlt₁, -⟩⟩
    · cases hseen
    · exact ⟨d₂, by omega, hlt, htomb, hpass, .inl rfl⟩
  · rintro ⟨d₂, hle, hlt, htomb, hpass, -⟩
    exact ⟨d₂, by omega, hlt, htomb, hpass, .inr ⟨d, Nat.le_refl d, by omega, h⟩⟩

end Second

/-- The probing loop of `hash_map_put`, once `d` slots that do not stop it are behind it, shows
`compare_func` the tombstones after the first. -/
private theorem putLoopLog_walk (f : Callbacks K) (m : HashMap K V) (key : K) :
    ∀ fuel d ft log r, d < m.capacity → d + fuel = m.capacity →
      (∀ e < d, m.stopsAt f key (Probe.walk (m.home f key) e) = false) →
      putLoopLog f m key (m.home f key) fuel (Probe.walk (m.home f key) d) ft = some (log, r) →
      (ShownTombstone log ↔ MeetsSecond f m key d ft.isSome) := by
  intro fuel
  induction fuel with
  | zero => intro d ft log r hd hfuel; omega
  | succ fuel ih =>
      intro d ft log r hd hfuel hbefore h
      rw [putLoopLog] at h
      simp only [Probe.next_walk, Probe.walk_succ_eq_start hd] at h
      cases hk : (m.entries (Probe.walk (m.home f key) d)).key with
      | none =>
          simp only [hk] at h
          obtain ⟨rfl, -⟩ := Prod.mk.inj (Option.some.inj h)
          exact iff_of_false not_shownTombstone_nil (not_meetsSecond_of_stop (by rw [hk]; simp)
            (by simp [stopsAt, HashEntry.isOccupied, hk]))
      | some k =>
          simp only [hk] at h
          cases k with
          | tombstone =>
              have hpass := passes_succ hbefore hk (by simp [HashEntry.matchesKey, hk])
              cases ft with
              | none =>
                  simp only [KeyPtr.isTombstone, Option.isNone_none, Bool.and_self, if_true] at h
                  rw [Option.isSome_none, meetsSecond_first hk]
                  by_cases hturn : d + 1 = m.capacity
                  · rw [if_pos hturn] at h
                    obtain ⟨rfl, -⟩ := Prod.mk.inj (Option.some.inj h)
                    exact iff_of_false not_shownTombstone_nil
                      (not_meetsSecond_of_full_turn (Nat.le_of_eq hturn.symm))
                  · rw [if_neg hturn] at h
                    exact ih (d + 1) (some _) log r (by omega) (by omega) hpass h
              | some t =>
                  -- The tombstone is shown, and it is the second.
                  have hmeets : MeetsSecond f m key d (some t).isSome :=
                    ⟨d, Nat.le_refl d, hd, hk, hbefore, .inl rfl⟩
                  refine iff_of_true ?_ hmeets
                  simp only [KeyPtr.isTombstone, Option.isNone_some, Bool.and_false,
                    Bool.false_eq_true, if_false] at h
                  split at h
                  · obtain ⟨rfl, -⟩ := Prod.mk.inj (Option.some.inj h)
                    exact shownTombstone_cons.mpr (.inl rfl)
                  · split at h
                    · obtain ⟨rfl, -⟩ := Prod.mk.inj (Option.some.inj h)
                      exact shownTombstone_cons.mpr (.inl rfl)
                    · obtain ⟨⟨rest, r'⟩, -, heq⟩ := Option.bind_eq_some_iff.mp h
                      obtain ⟨rfl, -⟩ := Prod.mk.inj (Option.some.inj heq)
                      exact shownTombstone_cons.mpr (.inl rfl)
          | block k =>
              have hlive : (m.entries (Probe.walk (m.home f key) d)).key ≠ some .tombstone := by
                rw [hk]
                simp
              have hone : ¬ ShownTombstone ([⟨m, .block k⟩] : List (Shown K V)) := by
                rw [shownTombstone_cons]
                rintro (htomb | hnil)
                · cases htomb
                · exact not_shownTombstone_nil hnil
              simp only [KeyPtr.isTombstone, Bool.false_and, Bool.false_eq_true, if_false] at h
              by_cases hcmp : f.compareFunc key (.block k) = 0
              · rw [if_pos hcmp] at h
                obtain ⟨rfl, -⟩ := Prod.mk.inj (Option.some.inj h)
                exact iff_of_false hone (not_meetsSecond_of_stop hlive
                  (by simp [stopsAt, HashEntry.matchesKey, hk, hcmp]))
              · rw [if_neg hcmp] at h
                rw [meetsSecond_succ hlive]
                by_cases hturn : d + 1 = m.capacity
                · rw [if_pos hturn] at h
                  obtain ⟨rfl, -⟩ := Prod.mk.inj (Option.some.inj h)
                  exact iff_of_false hone (not_meetsSecond_of_full_turn (Nat.le_of_eq hturn.symm))
                · rw [if_neg hturn] at h
                  obtain ⟨⟨rest, r'⟩, hrest, heq⟩ := Option.bind_eq_some_iff.mp h
                  obtain ⟨rfl, -⟩ := Prod.mk.inj (Option.some.inj heq)
                  rw [shownTombstone_cons, or_iff_right (by simp)]
                  have hpass := passes_succ hbefore hk (by simp [HashEntry.matchesKey, hk, hcmp])
                  exact ih (d + 1) ft rest r' (by omega) (by omega) hpass hrest

/-- A put shows `compare_func` a tombstone exactly when it walks over two. -/
theorem putLoopLog_shownTombstone {key : K} {log : List (Shown K V)} {r : PutProbe m.capacity}
    (h : putLoopLog f m key (m.home f key) m.capacity (m.home f key) none = some (log, r)) :
    ShownTombstone log ↔ m.MeetsTwoTombstones f key := by
  have hwalk := putLoopLog_walk f m key m.capacity 0 none log r m.capacity_pos (by omega)
    (by intro e he; omega) (by simpa only [Probe.walk_zero] using h)
  rw [hwalk]
  constructor
  · rintro ⟨d₂, -, hlt, htomb, hpass, hseen | ⟨d₁, -, hlt₁, htomb₁⟩⟩
    · cases hseen
    · exact ⟨d₁, d₂, hlt₁, hlt, htomb₁, htomb, hpass⟩
  · rintro ⟨d₁, d₂, hlt₁, hlt, htomb₁, htomb, hpass⟩
    exact ⟨d₂, Nat.zero_le _, hlt, htomb, hpass, .inr ⟨d₁, Nat.zero_le _, hlt₁, htomb₁⟩⟩

/-! ## Calls -/

section Calls
variable {key : K} {log : List (Shown K V)} {a : Allocs} {r : Result K V}

/-- The search shows the caller's key and live keys. -/
theorem findLog_log {hit : Option (Fin m.capacity)} (h : findLog f m key = some (log, hit)) :
    Sourced key log ∧ ¬ ShownTombstone log ∧ hit = m.findSlot f key := by
  have hhit : find f m key = some hit := by
    rw [← findLog_eq, h]
    rfl
  rw [find_eq] at hhit
  obtain ⟨⟨rest, hit'⟩, hloop, heq⟩ := Option.bind_eq_some_iff.mp h
  obtain ⟨rfl, rfl⟩ := Prod.mk.inj (Option.some.inj heq)
  obtain ⟨hsrc, hno⟩ := findLoopLog_log _ _ _ _ hloop
  refine ⟨hsrc.cons (.inl rfl), ?_, (Option.some.inj hhit).symm⟩
  rw [shownTombstone_cons]
  rintro (htomb | hrest)
  · cases htomb
  · exact hno hrest

/-- A put after the load test shows a tombstone exactly when it walks over two. -/
theorem putEntryLog_log {value : V} {r : Option (Result K V)}
    (h : putEntryLog f a m key value = some (log, r)) :
    Sourced key log ∧ (ShownTombstone log ↔ m.MeetsTwoTombstones f key) := by
  obtain ⟨⟨rest, probe⟩, hloop, heq⟩ := Option.bind_eq_some_iff.mp h
  have hlog : log = ⟨m, .block key⟩ :: rest := by
    cases probe with
    | found i => exact (Prod.mk.inj (Option.some.inj heq)).1.symm
    | absent i ft => exact (Prod.mk.inj (Option.some.inj heq)).1.symm
  rw [hlog]
  refine ⟨(putLoopLog_sourced _ _ _ _ _ hloop).cons (.inl rfl), ?_⟩
  rw [shownTombstone_cons, or_iff_right (by simp)]
  exact putLoopLog_shownTombstone hloop

theorem MeetsTwoTombstones.hasTombstone (h : m.MeetsTwoTombstones f key) : m.HasTombstone := by
  obtain ⟨d₁, d₂, -, -, htomb, -⟩ := h
  exact ⟨_, htomb⟩

/-- What a put shows. -/
theorem putLog_log (H : Load m) {value : V} {r : Option (Result K V)}
    (h : putLog f a m (some key) (some value) = some (log, r)) :
    Sourced key log ∧ (ShownTombstone log ↔ ShowsTombstone f m (.put key value, a)) := by
  by_cases hload : 3 * m.capacity ≤ 4 * m.count
  · have hlt : m.liveSlots < m.capacity * 2 := by have := H.liveSlots_lt; omega
    simp only [putLog, hload, if_true, H.double_mod] at h
    simp only [ShowsTombstone, hload, if_true]
    obtain ⟨⟨log₁, r₁⟩, hresize, h⟩ := Option.bind_eq_some_iff.mp h
    rcases resizeLog_cases f a key hlt with ⟨ha, hr⟩ | ⟨ha, log₂, m₁, hr, -, hsrc, hshown, hhas⟩
    · obtain ⟨rfl, rfl⟩ := Prod.mk.inj (Option.some.inj (hr.symm.trans hresize))
      obtain ⟨rfl, -⟩ := Prod.mk.inj (Option.some.inj h)
      refine ⟨.nil, iff_of_false not_shownTombstone_nil ?_⟩
      rw [ha]
      simp
    · obtain ⟨rfl, rfl⟩ := Prod.mk.inj (Option.some.inj (hr.symm.trans hresize))
      obtain ⟨⟨rest, r'⟩, hentry, heq⟩ := Option.bind_eq_some_iff.mp h
      obtain ⟨rfl, -⟩ := Prod.mk.inj (Option.some.inj heq)
      obtain ⟨hsrc', hshown'⟩ := putEntryLog_log hentry
      refine ⟨hsrc.append hsrc', ?_⟩
      rw [shownTombstone_append, hshown, hshown', ha]
      constructor
      · rintro (htomb | hmeets)
        · exact ⟨rfl, htomb⟩
        · exact ⟨rfl, hhas hmeets.hasTombstone⟩
      · rintro ⟨-, htomb⟩
        exact .inl htomb
  · simp only [putLog, hload, if_false] at h
    simp only [ShowsTombstone, hload, if_false]
    exact putEntryLog_log h

/-- What a remove shows. -/
theorem removeLog_log (H : Load m) (h : removeLog f a m (some key) = some (log, r)) :
    Sourced key log ∧ (ShownTombstone log ↔ ShowsTombstone f m (.remove key, a)) := by
  obtain ⟨⟨log₁, hit⟩, hfind, h⟩ := Option.bind_eq_some_iff.mp h
  obtain ⟨hsrc, hno, rfl⟩ := findLog_log hfind
  simp only [ShowsTombstone]
  cases hslot : m.findSlot f key with
  | none =>
      simp only [hslot] at h
      obtain ⟨rfl, -⟩ := Prod.mk.inj (Option.some.inj h)
      refine ⟨hsrc, iff_of_false hno ?_⟩
      rintro ⟨⟨i, hi⟩, -⟩
      cases hi
  | some i =>
      simp only [hslot] at h
      obtain ⟨⟨rest, r'⟩, hshrink, heq⟩ := Option.bind_eq_some_iff.mp h
      obtain ⟨rfl, -⟩ := Prod.mk.inj (Option.some.inj heq)
      have hlive := HashEntry.isLive_of_matchesKey (matchesKey_of_findSlot hslot)
      have H' := H.tombstoneAt hlive
      have htomb : (m.tombstoneAt i).HasTombstone := by
        refine ⟨(i : Fin m.capacity), ?_⟩
        change (Function.update m.entries i _ i).key = _
        rw [Function.update_self]
      by_cases hcond : minimumCapacity < m.capacity ∧ 0 < m.count - 1 ∧
          4 * (m.count - 1) ≤ m.capacity
      · have hcond' : minimumCapacity < (m.tombstoneAt i).capacity ∧
            0 < (m.tombstoneAt i).count ∧
            4 * (m.tombstoneAt i).count ≤ (m.tombstoneAt i).capacity := hcond
        obtain ⟨hshrunk, -, hlt⟩ := H'.half hcond.1 hcond.2.2
        rw [shrinkLog, if_pos hcond'] at hshrink
        obtain ⟨⟨log₂, r₂⟩, hresize, heq⟩ := Option.bind_eq_some_iff.mp hshrink
        obtain ⟨rfl, -⟩ := Prod.mk.inj (Option.some.inj heq)
        rcases resizeLog_cases f a key (hshrunk ▸ hlt : _ < (m.tombstoneAt i).shrunkCapacity) with
          ⟨ha, hr⟩ | ⟨ha, log₃, m₁, hr, -, hsrc', hshown, -⟩
        · obtain ⟨rfl, -⟩ := Prod.mk.inj (Option.some.inj (hr.symm.trans hresize))
          refine ⟨hsrc.append .nil, iff_of_false ?_ ?_⟩
          · rw [shownTombstone_append]
            rintro (h | h)
            · exact hno h
            · exact not_shownTombstone_nil h
          · rintro ⟨-, -, -, -, ha'⟩
            exact Bool.noConfusion (ha.symm.trans ha')
        · obtain ⟨rfl, -⟩ := Prod.mk.inj (Option.some.inj (hr.symm.trans hresize))
          refine ⟨hsrc.append hsrc', ?_⟩
          rw [shownTombstone_append, hshown, or_iff_right hno]
          exact iff_of_true htomb ⟨⟨i, rfl⟩, hcond.1, hcond.2.1, hcond.2.2, ha⟩
      · have hcond' : ¬ (minimumCapacity < (m.tombstoneAt i).capacity ∧
            0 < (m.tombstoneAt i).count ∧
            4 * (m.tombstoneAt i).count ≤ (m.tombstoneAt i).capacity) := hcond
        rw [shrinkLog, if_neg hcond'] at hshrink
        obtain ⟨rfl, -⟩ := Prod.mk.inj (Option.some.inj hshrink)
        rw [List.append_nil]
        refine ⟨hsrc, iff_of_false hno ?_⟩
        rintro ⟨-, h₁, h₂, h₃, -⟩
        exact hcond ⟨h₁, h₂, h₃⟩

/-- What a call shows. -/
theorem callLog_log (H : Load m) {call' : Op K V × Allocs} {r : Option (Seen V × HashMap K V)}
    (h : callLog f m call' = some (log, r)) :
    Sourced call'.1.key log ∧ (ShownTombstone log ↔ ShowsTombstone f m call') := by
  obtain ⟨op, a⟩ := call'
  cases op with
  | put key value =>
      obtain ⟨⟨log', r'⟩, hput, heq⟩ := Option.bind_eq_some_iff.mp h
      obtain ⟨rfl, -⟩ := Prod.mk.inj (Option.some.inj heq)
      exact putLog_log H hput
  | get key =>
      obtain ⟨⟨log', r'⟩, hget, heq⟩ := Option.bind_eq_some_iff.mp h
      obtain ⟨rfl, -⟩ := Prod.mk.inj (Option.some.inj heq)
      obtain ⟨⟨log₁, hit⟩, hfind, heq⟩ := Option.bind_eq_some_iff.mp hget
      have hlog : log' = log₁ := by
        cases hit with
        | none => exact (Prod.mk.inj (Option.some.inj heq)).1.symm
        | some i => exact (Prod.mk.inj (Option.some.inj heq)).1.symm
      obtain ⟨hsrc, hno, -⟩ := findLog_log hfind
      rw [hlog]
      exact ⟨hsrc, iff_of_false hno id⟩
  | remove key =>
      obtain ⟨⟨log', r'⟩, hremove, heq⟩ := Option.bind_eq_some_iff.mp h
      obtain ⟨rfl, -⟩ := Prod.mk.inj (Option.some.inj heq)
      exact removeLog_log H hremove

/-- The callbacks of a put are all called, whether or not it has a result. -/
theorem putEntryLog_returns (f : Callbacks K) (a : Allocs) (m : HashMap K V) (key : K)
    (value : V) : ∃ log r, putEntryLog f a m key value = some (log, r) := by
  obtain ⟨probe, hprobe, -⟩ := putLoop_ends f m key
  rw [← putLoopLog_eq, Option.map_eq_some_iff] at hprobe
  obtain ⟨⟨rest, probe'⟩, hloop, rfl⟩ := hprobe
  rw [putEntryLog, hloop]
  cases probe' with
  | found i => exact ⟨_, _, rfl⟩
  | absent i ft => exact ⟨_, _, rfl⟩

theorem putLog_returns (f : Callbacks K) (H : Load m) (a : Allocs) (key : K) (value : V) :
    ∃ log r, putLog f a m (some key) (some value) = some (log, r) := by
  by_cases hload : 3 * m.capacity ≤ 4 * m.count
  · have hlt : m.liveSlots < m.capacity * 2 := by have := H.liveSlots_lt; omega
    simp only [putLog, hload, if_true, H.double_mod]
    rcases resizeLog_cases f a key hlt with ⟨-, hr⟩ | ⟨-, log, m₁, hr, -⟩
    · exact ⟨_, _, by rw [hr]; rfl⟩
    · obtain ⟨rest, r, hentry⟩ := putEntryLog_returns f a m₁ key value
      exact ⟨log ++ rest, r, by rw [hr]; simp [hentry]⟩
  · simp only [putLog, hload, if_false]
    exact putEntryLog_returns f a m key value

/-- Every call has its record. -/
theorem callLog_returns (f : Callbacks K) (H : Load m) (call' : Op K V × Allocs) :
    ∃ log r, callLog f m call' = some (log, r) := by
  rcases call_ends f H call' with ⟨o, m', hcall, -⟩ | ⟨key, value, hop, -, -⟩
  · rw [← callLog_eq] at hcall
    obtain ⟨⟨log, r⟩, hlog, -⟩ := Option.bind_eq_some_iff.mp hcall
    exact ⟨log, r, hlog⟩
  · obtain ⟨op, a⟩ := call'
    obtain rfl : op = .put key value := hop
    obtain ⟨log, r, hput⟩ := putLog_returns f H a key value
    exact ⟨_, _, by rw [callLog, hput]; rfl⟩

/-- **The callbacks see keys** in a call on a reached map exactly when the call grows or
shrinks no table with a tombstone and walks over two in no put. -/
theorem callbacks_see_keys (h : Transition.Reachable (Created f) (Step f) m)
    (call' : Op K V × Allocs) :
    ∃ log r, callLog f m call' = some (log, r) ∧ call f m call' = r ∧
      ((∀ s ∈ log, s.IsKey call'.1.key) ↔ ¬ ShowsTombstone f m call') := by
  have H := load_of_reachable h
  obtain ⟨log, r, hlog⟩ := callLog_returns f H call'
  obtain ⟨hsrc, hshown⟩ := callLog_log H hlog
  refine ⟨log, r, hlog, ?_, by rw [hsrc.forall_isKey_iff, hshown]⟩
  rw [← callLog_eq, hlog]
  rfl

end Calls

/-- A table with one tombstone: the put of a fourth PID walks over it and shows `compare_func`
the two keys that are left behind it. -/
theorem callbacks_see_keys_tombstone :
    ∃ (m : HashMap { pid : BitVec 32 // pid ≠ 0 } ℕ) (log : _) (r : _),
      Transition.Reachable (Created (intCallbacks 0)) (Step (intCallbacks 0)) m ∧
      m.HasTombstone ∧
      callLog (intCallbacks 0) m (.put ⟨64, by decide⟩ 4, ⟨true, true, true⟩) = some (log, r) ∧
      log.map Shown.arg =
        [.block ⟨64, by decide⟩, .block ⟨32, by decide⟩, .block ⟨48, by decide⟩] ∧
      ∀ s ∈ log, s.IsKey ⟨64, by decide⟩ := by
  let calls : List (Op { pid : BitVec 32 // pid ≠ 0 } ℕ × Allocs) :=
    [(.put ⟨16, by decide⟩ 1, ⟨true, true, true⟩), (.put ⟨32, by decide⟩ 2, ⟨true, true, true⟩),
      (.put ⟨48, by decide⟩ 3, ⟨true, true, true⟩), (.remove ⟨16, by decide⟩, ⟨true, true, true⟩)]
  let last : Op { pid : BitVec 32 // pid ≠ 0 } ℕ × Allocs :=
    (.put ⟨64, by decide⟩ 4, ⟨true, true, true⟩)
  have hstate : (Transition.exec (call (intCallbacks 0)) empty calls).map (fun r =>
      (decide (∃ i, (r.2.entries i).key = some .tombstone),
        decide (∀ i j, (r.2.entries i).key = some .tombstone →
          (r.2.entries j).key = some .tombstone → i = j),
        decide (3 * r.2.capacity ≤ 4 * r.2.count))) = some (true, true, false) := by
    decide +kernel
  have hargs : (Transition.exec (call (intCallbacks 0)) empty calls).bind (fun r =>
      (callLog (intCallbacks 0) r.2 last).map fun p => p.1.map Shown.arg) =
        some [.block ⟨64, by decide⟩, .block ⟨32, by decide⟩, .block ⟨48, by decide⟩] := rfl
  obtain ⟨⟨os, m⟩, hrun, hstate⟩ := Option.map_eq_some_iff.mp hstate
  simp only [Prod.mk.injEq, decide_eq_true_eq, decide_eq_false_iff_not] at hstate
  obtain ⟨htomb, hone, hroom⟩ := hstate
  have hreach := reachable_of_exec hrun
  obtain ⟨log, r, hlog, -, hiff⟩ := callbacks_see_keys hreach last
  rw [hrun, Option.bind_some, hlog] at hargs
  refine ⟨m, log, r, hreach, htomb, hlog, Option.some.inj hargs, hiff.mpr ?_⟩
  rintro hshows
  simp only [last, ShowsTombstone, if_neg hroom] at hshows
  obtain ⟨d₁, d₂, hlt, hd₂, htomb₁, htomb₂, -⟩ := hshows
  have := Probe.walk_injective (hlt.trans hd₂) hd₂ (hone _ _ htomb₁ htomb₂)
  omega

/-- Three PIDs share a home slot and the first two are removed: the put of a fourth shows
`compare_func` the second tombstone. -/
theorem put_shows_tombstone : ¬ ∀ (m : HashMap { pid : BitVec 32 // pid ≠ 0 } ℕ) call' log r,
    Transition.Reachable (Created (intCallbacks 0)) (Step (intCallbacks 0)) m →
      callLog (intCallbacks 0) m call' = some (log, r) →
        ∀ s ∈ log, s.IsKey call'.1.key := by
  intro hall
  let calls : List (Op { pid : BitVec 32 // pid ≠ 0 } ℕ × Allocs) :=
    [(.put ⟨16, by decide⟩ 1, ⟨true, true, true⟩), (.put ⟨32, by decide⟩ 2, ⟨true, true, true⟩),
      (.put ⟨48, by decide⟩ 3, ⟨true, true, true⟩), (.remove ⟨16, by decide⟩, ⟨true, true, true⟩),
      (.remove ⟨32, by decide⟩, ⟨true, true, true⟩)]
  let last : Op { pid : BitVec 32 // pid ≠ 0 } ℕ × Allocs :=
    (.put ⟨64, by decide⟩ 4, ⟨true, true, true⟩)
  obtain ⟨os, m, hrun⟩ : ∃ os m, Transition.exec (call (intCallbacks 0)) empty calls =
      some (os, m) := ⟨_, _, rfl⟩
  have hreach := reachable_of_exec hrun
  have hshown : (Transition.exec (call (intCallbacks 0)) empty calls).bind (fun r =>
      (callLog (intCallbacks 0) r.2 last).map fun p => p.1.map Shown.arg) =
        some [.block ⟨64, by decide⟩, .tombstone, .block ⟨48, by decide⟩] := rfl
  rw [hrun, Option.bind_some, Option.map_eq_some_iff] at hshown
  obtain ⟨⟨log, r⟩, hlog, hargs⟩ := hshown
  have hmem : KeyPtr.tombstone ∈ log.map Shown.arg := by
    rw [hargs]
    simp
  obtain ⟨s, hs, htomb⟩ := List.mem_map.mp hmem
  obtain ⟨k, hk, -⟩ := hall m last log r hreach hlog s hs
  cases htomb.symm.trans hk

end HashMap
end Ctm
