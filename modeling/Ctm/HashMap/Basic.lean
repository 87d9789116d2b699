import Ctm.Lib.Probe
import Ctm.Libc
import Mathlib.Data.Nat.Notation
import Mathlib.Logic.Function.Basic

/-!
# The hash map

The open-addressing table of `core/hash_map.c`, loop by loop.  A slot is a pair of
pointers; what they point to is kept by value, as the map owns its key and value
blocks.  The callbacks are parameters of every operation, being fixed when the map is
created.

The loops carry fuel equal to the number of slots.  They do not change the table they
scan, so a scan that outlives its fuel would never end.  `none` is the result of those
calls, of which `Ctm.HashMap.Load` shows that there are none, and of a put that writes
through a NULL value.

Each call comes with the outcome of the allocations it may request.  The load factors
are compared by cross-multiplication: `capacity` is a power of two, so the products
with `0.75l` and `0.25l` are exact in the source.

## Main definitions

* `HashMap`, `HashEntry`, `KeyPtr` — the table and its slots.
* `HashMap.create`, `HashMap.resize`, `HashMap.put`, `HashMap.get`, `HashMap.remove`.
* `HashMap.iterNext`, `HashMap.iterAll` — the iterator, and a whole iteration.
* `hashInt`, `hashCompareInt` — the callbacks for integer keys.
-/

namespace Ctm

/-- `MINIMUM_CAPACITY` -/
def minimumCapacity : ℕ := 16

/-- `sizeof(HashEntry)`: two pointers. -/
def sizeofHashEntry : ℕ := 16

/-- What a non-NULL `key` field points to: the one-byte `TOMBSTONE` placeholder, or a
block holding a key. -/
inductive KeyPtr (K : Type)
  | tombstone
  | block (key : K)
  deriving DecidableEq, Repr

/-- A slot of the table; `none` is NULL. -/
structure HashEntry (K V : Type) where
  key : Option (KeyPtr K)
  value : Option V
  deriving DecidableEq, Repr

/-- The user's `hash_func` and `compare_func`.  The code calls both with the address of
`TOMBSTONE` too, so their domain includes it. -/
structure Callbacks (K : Type) where
  hashFunc : KeyPtr K → ℕ
  compareFunc : K → KeyPtr K → ℤ

/-- The map.  `key_size` and `value_size` are the sizes of `K` and `V`. -/
structure HashMap (K V : Type) where
  capacity : ℕ
  capacity_pos : 0 < capacity
  entries : Fin capacity → HashEntry K V
  count : ℕ

/-- Whether the allocator grants the blocks a call may ask for: the new table, the key
block and the value block. -/
structure Allocs where
  calloc : Bool
  mallocKey : Bool
  mallocValue : Bool
  deriving DecidableEq, Repr

/-- `calloc(n, sizeof(HashEntry))` also fails when the product overflows `size_t`. -/
def Allocs.table (a : Allocs) (n : ℕ) : Bool :=
  a.calloc && decide (n * sizeofHashEntry < sizeMod)

/-- The return value of a call, the `errno` it sets if any, and the map it leaves. -/
structure HashMap.Result (K V : Type) where
  ret : ℤ
  errno : Option Errno
  map : HashMap K V

namespace HashEntry
variable {K V : Type}

/-- An entry fresh from `calloc`. -/
def null : HashEntry K V := ⟨none, none⟩

/-- The slot holds neither NULL nor `TOMBSTONE`. -/
def isLive (e : HashEntry K V) : Bool :=
  match e.key with
  | some (.block _) => true
  | _ => false

/-- The slot's key is not NULL. -/
def isOccupied (e : HashEntry K V) : Bool := e.key.isSome

/-- The slot's key compares equal to `key`; the test `get` and `remove` make. -/
def matchesKey (f : Callbacks K) (key : K) (e : HashEntry K V) : Bool :=
  match e.key with
  | some (.block k) => f.compareFunc key (.block k) == 0
  | _ => false

@[simp] theorem isLive_null : (null : HashEntry K V).isLive = false := rfl

theorem isLive_iff {e : HashEntry K V} : e.isLive ↔ ∃ k, e.key = some (.block k) := by
  unfold isLive
  split <;> simp_all

theorem isOccupied_of_isLive {e : HashEntry K V} (h : e.isLive) : e.isOccupied := by
  obtain ⟨k, hk⟩ := isLive_iff.mp h
  simp [isOccupied, hk]

theorem matchesKey_iff {f : Callbacks K} {key : K} {e : HashEntry K V} :
    e.matchesKey f key ↔ ∃ k, e.key = some (.block k) ∧ f.compareFunc key (.block k) = 0 := by
  unfold matchesKey
  split <;> simp_all

theorem isLive_of_matchesKey {f : Callbacks K} {key : K} {e : HashEntry K V}
    (h : e.matchesKey f key) : e.isLive := by
  obtain ⟨k, hk, -⟩ := matchesKey_iff.mp h
  exact isLive_iff.mpr ⟨k, hk⟩

end HashEntry

namespace KeyPtr

/-- The pointer is `TOMBSTONE`. -/
def isTombstone {K : Type} : KeyPtr K → Bool
  | tombstone => true
  | block _ => false

end KeyPtr

/-! ## Creating and resizing -/

/-- The slot `hash % capacity` where a probe starts. -/
def slotOf {c : ℕ} (hc : 0 < c) (hash : ℕ) : Fin c := ⟨hash % c, Nat.mod_lt _ hc⟩

namespace HashMap
variable {K V : Type}

/-- `hash_map_create`: NULL on a zero size, a NULL callback or a failed allocation. -/
def create (keySize valueSize : ℕ) (f : Option (Callbacks K)) (mallocMap : Bool) (a : Allocs) :
    Option (HashMap K V) :=
  if keySize = 0 ∨ valueSize = 0 ∨ f.isNone then none
  else if !mallocMap then none
  else if !a.table minimumCapacity then none
  else some
    { capacity := minimumCapacity
      capacity_pos := by decide
      entries := fun _ => .null
      count := 0 }

/-- The map `hash_map_create` returns. -/
def empty : HashMap K V where
  capacity := minimumCapacity
  capacity_pos := by decide
  entries := fun _ => .null
  count := 0

/-- A successful `hash_map_create` returns the empty map. -/
theorem create_eq_some {keySize valueSize : ℕ} {f : Option (Callbacks K)} {mallocMap : Bool}
    {a : Allocs} {m : HashMap K V} (h : create keySize valueSize f mallocMap a = some m) :
    m = empty := by
  unfold create at h
  split at h
  · cases h
  · split at h
    · cases h
    · split at h
      · cases h
      · exact (Option.some.inj h).symm

/-- `hash_map_count` -/
def hashMapCount (m : HashMap K V) : ℕ := m.count

/-- The inner loop of `hash_map_resize`: step over live slots.  It has no wrap-around
guard, so over a table of live slots it would go round for ever. -/
def freeSlot {c : ℕ} (entries : Fin c → HashEntry K V) : ℕ → Fin c → Option (Fin c)
  | 0, _ => none
  | fuel + 1, index =>
      if (entries index).isLive then freeSlot entries fuel (Probe.next index) else some index

/-- The body of the outer loop of `hash_map_resize`.  A `TOMBSTONE` is moved as if it
were an entry. -/
def rehashEntry (f : Callbacks K) {c : ℕ} (hc : 0 < c) (new : Fin c → HashEntry K V)
    (old : HashEntry K V) : Option (Fin c → HashEntry K V) :=
  match old.key with
  | none => some new
  | some key => do
      let index ← freeSlot new c (slotOf hc (f.hashFunc key))
      pure (Function.update new index ⟨some key, old.value⟩)

/-- The outer loop of `hash_map_resize`, filling the fresh table in slot order. -/
def rehash (f : Callbacks K) (m : HashMap K V) {c : ℕ} (hc : 0 < c) :
    Option (Fin c → HashEntry K V) :=
  (List.finRange m.capacity).foldlM (fun new i => rehashEntry f hc new (m.entries i))
    (fun _ => .null)

/-- `hash_map_resize` -/
def resize (f : Callbacks K) (a : Allocs) (m : HashMap K V) (newCapacity : ℕ) :
    Option (Result K V) :=
  if hc : newCapacity = 0 then some ⟨-1, some .EINVAL, m⟩
  else if !a.table newCapacity then some ⟨-1, some .ENOMEM, m⟩
  else do
    let entries ← rehash f m (Nat.pos_of_ne_zero hc)
    pure ⟨0, none, ⟨newCapacity, Nat.pos_of_ne_zero hc, entries, m.count⟩⟩

/-! ## Put -/

/-- How the probing loop of `hash_map_put` ends: at an entry whose key compares equal,
or with the index it stopped at and the first tombstone it met, if any
(`first_tombstone_index`, whose `(size_t) -1` is `none`). -/
inductive PutProbe (c : ℕ)
  | found (index : Fin c)
  | absent (index : Fin c) (firstTombstone : Option (Fin c))
  deriving DecidableEq, Repr

/-- The probing loop of `hash_map_put`.  Only the first tombstone is recognised; a later
one is passed to `compare_func`. -/
def putLoop (f : Callbacks K) (m : HashMap K V) (key : K) (start : Fin m.capacity) :
    ℕ → Fin m.capacity → Option (Fin m.capacity) → Option (PutProbe m.capacity)
  | 0, _, _ => none
  | fuel + 1, index, firstTombstone =>
      match (m.entries index).key with
      | none => some (.absent index firstTombstone)
      | some k =>
          if k.isTombstone && firstTombstone.isNone then
            if Probe.next index = start then some (.absent start (some index))
            else putLoop f m key start fuel (Probe.next index) (some index)
          else if f.compareFunc key k = 0 then some (.found index)
          else if Probe.next index = start then some (.absent start firstTombstone)
          else putLoop f m key start fuel (Probe.next index) firstTombstone

/-- The slot where the probe for `key` starts. -/
def home (f : Callbacks K) (m : HashMap K V) (key : K) : Fin m.capacity :=
  slotOf m.capacity_pos (f.hashFunc (.block key))

/-- The map with slot `index` overwritten. -/
def setEntry (m : HashMap K V) (index : Fin m.capacity) (e : HashEntry K V) : HashMap K V :=
  { m with entries := Function.update m.entries index e }

/-- The map once a new entry is written to slot `index` and counted. -/
def insertAt (m : HashMap K V) (index : Fin m.capacity) (key : K) (value : V) : HashMap K V :=
  { m.setEntry index ⟨some (.block key), some value⟩ with count := m.count + 1 }

/-- `hash_map_put` once a slot for a new key is chosen: allocate the two blocks unless the
slot is live, write them and count the entry.  A failed allocation leaves a NULL key in
the slot. -/
def putNew (a : Allocs) (m : HashMap K V) (index : Fin m.capacity) (key : K) (value : V) :
    Result K V :=
  if !(m.entries index).isLive && !a.mallocKey then
    ⟨-1, some .ENOMEM, m.setEntry index { m.entries index with key := none }⟩
  else if !(m.entries index).isLive && !a.mallocValue then
    ⟨-1, some .ENOMEM, m.setEntry index ⟨none, none⟩⟩
  else ⟨0, none, m.insertAt index key value⟩

/-- `hash_map_put` after the load test: probe, then update or insert. -/
def putEntry (f : Callbacks K) (a : Allocs) (m : HashMap K V) (key : K) (value : V) :
    Option (Result K V) := do
  let probe ← putLoop f m key (m.home f key) m.capacity (m.home f key) none
  match probe with
  | .found index => do
      -- The value of a `TOMBSTONE` taken for the key is NULL, and `memcpy` has no target.
      let _ ← (m.entries index).value
      pure ⟨0, none, m.setEntry index { m.entries index with value := some value }⟩
  | .absent index firstTombstone =>
      pure (putNew a m (firstTombstone.getD index) key value)

/-- `hash_map_put`.  `none` arguments are NULL. -/
def put (f : Callbacks K) (a : Allocs) (m : HashMap K V) (key : Option K) (value : Option V) :
    Option (Result K V) :=
  match key, value with
  | some key, some value =>
      if 3 * m.capacity ≤ 4 * m.count then do
        let r ← resize f a m (m.capacity * 2 % sizeMod)
        if r.ret ≠ 0 then pure { r with ret := -1 }
        else putEntry f a r.map key value
      else putEntry f a m key value
  | _, _ => some ⟨-1, some .EINVAL, m⟩

/-! ## Get and remove -/

/-- The probing loop of `hash_map_get` and `hash_map_remove`: the index of the entry that
compares equal, or `none` when the probe meets NULL or comes back to its start. -/
def findLoop (f : Callbacks K) (m : HashMap K V) (key : K) (start : Fin m.capacity) :
    ℕ → Fin m.capacity → Option (Option (Fin m.capacity))
  | 0, _ => none
  | fuel + 1, index =>
      match (m.entries index).key with
      | none => some none
      | some k =>
          if !k.isTombstone && f.compareFunc key k == 0 then some (some index)
          else if Probe.next index = start then some none
          else findLoop f m key start fuel (Probe.next index)

/-- The search both `hash_map_get` and `hash_map_remove` make. -/
def find (f : Callbacks K) (m : HashMap K V) (key : K) : Option (Option (Fin m.capacity)) :=
  findLoop f m key (m.home f key) m.capacity (m.home f key)

/-- `hash_map_get`: the value pointer, NULL when the key is absent, and the `errno` set. -/
def get (f : Callbacks K) (m : HashMap K V) (key : Option K) :
    Option (Option V × Option Errno) :=
  match key with
  | none => some (none, some .EINVAL)
  | some key => do
      let hit ← find f m key
      match hit with
      | some index => pure ((m.entries index).value, none)
      | none => pure (none, none)

/-- The table size `hash_map_remove` shrinks to. -/
def shrunkCapacity (m : HashMap K V) : ℕ :=
  if m.capacity / 2 < minimumCapacity then minimumCapacity else m.capacity / 2

/-- The map once the entry in slot `index` is replaced by a tombstone and counted out. -/
def tombstoneAt (m : HashMap K V) (index : Fin m.capacity) : HashMap K V :=
  { m.setEntry index ⟨some .tombstone, none⟩ with count := m.count - 1 }

/-- The end of `hash_map_remove`: shrink a sparse table.  The result of the shrink is
ignored. -/
def shrink (f : Callbacks K) (a : Allocs) (m : HashMap K V) : Option (Result K V) :=
  if minimumCapacity < m.capacity ∧ 0 < m.count ∧ 4 * m.count ≤ m.capacity then do
    let r ← resize f a m m.shrunkCapacity
    pure { r with ret := 1 }
  else some ⟨1, none, m⟩

/-- `hash_map_remove` -/
def remove (f : Callbacks K) (a : Allocs) (m : HashMap K V) (key : Option K) :
    Option (Result K V) :=
  match key with
  | none => some ⟨-1, some .EINVAL, m⟩
  | some key => do
      let hit ← find f m key
      match hit with
      | some index => shrink f a (m.tombstoneAt index)
      | none => pure ⟨0, none, m⟩

/-! ## Iteration -/

/-- The loop of `hash_map_iter_next`, from slot `index` on: the key and value it
stores pointers to, and the index it leaves in the iterator.  `fuel` bounds the slots left. -/
def iterLoop (m : HashMap K V) : ℕ → ℕ → Option (K × Option V) × ℕ
  | 0, index => (none, index)
  | fuel + 1, index =>
      if h : index < m.capacity then
        match (m.entries ⟨index, h⟩).key with
        | some (.block k) => (some (k, (m.entries ⟨index, h⟩).value), index + 1)
        | _ => iterLoop m fuel (index + 1)
      else (none, index)

/-- `hash_map_iter_next` on an iterator standing at `index`; `none` is the return value
`-1`, on which the caller's pointers are not written. -/
def iterNext (m : HashMap K V) (index : ℕ) : Option (K × Option V) × ℕ :=
  iterLoop m (m.capacity - index) index

/-- Successive `hash_map_iter_next` calls from `index` until one returns `-1`. -/
def iterFrom (m : HashMap K V) : ℕ → ℕ → List (K × Option V)
  | 0, _ => []
  | calls + 1, index =>
      match iterNext m index with
      | (some pair, index') => pair :: iterFrom m calls index'
      | (none, _) => []

/-- Everything a fresh iterator yields.  An iterator advances on every successful call, so
`capacity` calls reach the end. -/
def iterAll (m : HashMap K V) : List (K × Option V) := iterFrom m m.capacity 0

end HashMap

/-! ## Callbacks for integer keys -/

/-- `hash_int`: the key sign-extended to `size_t`, times `KNUTHS_CONSTANT`. -/
def hashInt (pid : BitVec 32) : BitVec 64 := pid.signExtend 64 * 2654435761#64

/-- `hash_compare_int` -/
def hashCompareInt (a b : BitVec 32) : ℤ :=
  if a = b then 0 else if a.slt b then -1 else 1

/-- The integer callbacks.  They read four bytes even at the address of `TOMBSTONE`; the
keys are the integers other than the `junk` found there. -/
def intCallbacks (junk : BitVec 32) : Callbacks { pid : BitVec 32 // pid ≠ junk } where
  hashFunc
    | .tombstone => (hashInt junk).toNat
    | .block pid => (hashInt pid).toNat
  compareFunc a
    | .tombstone => hashCompareInt a junk
    | .block b => hashCompareInt a b

end Ctm
