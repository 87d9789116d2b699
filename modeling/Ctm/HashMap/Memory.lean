import Ctm.HashMap.Refinement
import Ctm.Lib.Ledger

/-!
# The hash map and the heap

The operations of `core/hash_map.c` once more, with every `malloc`, `calloc` and `free`
entered in a ledger.  What a slot points to is now a block with a number, and so are the
table and the map itself.  The loops only read the contents, so they are those of
`Ctm.HashMap` on the contents; what is new is which block goes where.

`none` is the result of a call that releases a block which is not outstanding, or writes
through NULL.

## Main definitions

* `Owned` — a block and its contents.
* `HeapMap` — the map in its blocks, and `HeapMap.view`, its contents.
* `HeapMap.create`, `resize`, `put`, `remove`, `hashMapFree` — the operations.
* `HeapMap.blocks` — the blocks the map accounts for.
-/

namespace Ctm

/-- A block of the heap and what is stored in it. -/
structure Owned (α : Type) where
  block : ℕ
  val : α
  deriving DecidableEq, Repr

/-- `memcpy` into the block. -/
def Owned.write {α : Type} (o : Owned α) (val : α) : Owned α := ⟨o.block, val⟩

variable {K V : Type}

/-- `memcpy` into the block of a key. -/
def KeyPtr.write (p : KeyPtr (Owned K)) (key : K) : KeyPtr (Owned K) :=
  match p with
  | .tombstone => .tombstone
  | .block k => .block (k.write key)

/-- The key read through its pointer. -/
def KeyPtr.deref : KeyPtr (Owned K) → KeyPtr K
  | .tombstone => .tombstone
  | .block k => .block k.val

/-- The slot read through its pointers. -/
def HashEntry.deref (e : HashEntry (Owned K) (Owned V)) : HashEntry K V :=
  ⟨e.key.map KeyPtr.deref, e.value.map Owned.val⟩

/-- The table read through its pointers. -/
def HashMap.deref (m : HashMap (Owned K) (Owned V)) : HashMap K V where
  capacity := m.capacity
  capacity_pos := m.capacity_pos
  entries i := (m.entries i).deref
  count := m.count

/-- The callbacks read keys through their pointers. -/
def Callbacks.owned (f : Callbacks K) : Callbacks (Owned K) where
  hashFunc k := f.hashFunc k.deref
  compareFunc a b := f.compareFunc a.val b.deref

/-- The map: its own block, that of its table, and the table. -/
structure HeapMap (K V : Type) where
  block : ℕ
  tableBlock : ℕ
  table : HashMap (Owned K) (Owned V)

namespace HeapMap

/-- The return value of a call, the `errno` it sets if any, and the map and the ledger it
leaves. -/
structure Result (K V : Type) where
  ret : ℤ
  errno : Option Errno
  map : HeapMap K V
  ledger : Ledger

/-- The contents of the map. -/
def view (s : HeapMap K V) : HashMap K V := s.table.deref

/-- The map with its slots overwritten. -/
def withTable (s : HeapMap K V) (table : HashMap (Owned K) (Owned V)) : HeapMap K V :=
  { s with table := table }

/-- `hash_map_create`: the map, or NULL, and the ledger left. -/
def create (keySize valueSize : ℕ) (f : Option (Callbacks K)) (mallocMap : Bool) (a : Allocs)
    (L : Ledger) : Option (Option (HeapMap K V) × Ledger) :=
  if keySize = 0 ∨ valueSize = 0 ∨ f.isNone then some (none, L)
  else
    match L.malloc mallocMap with
    | (none, L) => some (none, L)
    | (some block, L) =>
        match L.malloc (a.table minimumCapacity) with
        | (none, L) => do
            let L ← L.free (some block)
            pure (none, L)
        | (some tableBlock, L) => some (some ⟨block, tableBlock, .empty⟩, L)

/-- `hash_map_resize` -/
def resize (f : Callbacks K) (a : Allocs) (s : HeapMap K V) (L : Ledger) (newCapacity : ℕ) :
    Option (Result K V) :=
  if hc : newCapacity = 0 then some ⟨-1, some .EINVAL, s, L⟩
  else
    match L.malloc (a.table newCapacity) with
    | (none, L) => some ⟨-1, some .ENOMEM, s, L⟩
    | (some newEntries, L) => do
        let entries ← s.table.rehash f.owned (Nat.pos_of_ne_zero hc)
        let L ← L.free (some s.tableBlock)
        let table : HashMap (Owned K) (Owned V) :=
          ⟨newCapacity, Nat.pos_of_ne_zero hc, entries, s.table.count⟩
        pure ⟨0, none, ⟨s.block, newEntries, table⟩, L⟩

/-- `hash_map_put` once a slot for a new key is chosen.  A live slot keeps its blocks and is
written over. -/
def putNew (a : Allocs) (s : HeapMap K V) (L : Ledger) (index : Fin s.table.capacity) (key : K)
    (value : V) : Option (Result K V) :=
  let e := s.table.entries index
  if e.isLive then
    let table := s.table.setEntry index
      ⟨e.key.map fun p => p.write key, e.value.map fun v => v.write value⟩
    some ⟨0, none, s.withTable { table with count := s.table.count + 1 }, L⟩
  else
    match L.malloc a.mallocKey with
    | (none, L) =>
        some ⟨-1, some .ENOMEM, s.withTable (s.table.setEntry index { e with key := none }), L⟩
    | (some keyBlock, L) =>
        match L.malloc a.mallocValue with
        | (none, L) => do
            let L ← L.free (some keyBlock)
            pure ⟨-1, some .ENOMEM, s.withTable (s.table.setEntry index ⟨none, none⟩), L⟩
        | (some valueBlock, L) =>
            some ⟨0, none,
              s.withTable (s.table.insertAt index ⟨keyBlock, key⟩ ⟨valueBlock, value⟩), L⟩

/-- `hash_map_put` after the load test.  An update writes to the value block it finds. -/
def putEntry (f : Callbacks K) (a : Allocs) (s : HeapMap K V) (L : Ledger) (key : K) (value : V) :
    Option (Result K V) := do
  let probe ← HashMap.putLoop f s.view key (s.view.home f key) s.table.capacity
    (s.view.home f key) none
  match probe with
  | .found index => do
      let e := s.table.entries index
      -- The value of a `TOMBSTONE` taken for the key is NULL, and `memcpy` has no target.
      let v ← e.value
      let table := s.table.setEntry index { e with value := some (v.write value) }
      pure ⟨0, none, s.withTable table, L⟩
  | .absent index firstTombstone => putNew a s L (firstTombstone.getD index) key value

/-- `hash_map_put` -/
def put (f : Callbacks K) (a : Allocs) (s : HeapMap K V) (L : Ledger) (key : K) (value : V) :
    Option (Result K V) :=
  if 3 * s.table.capacity ≤ 4 * s.table.count then do
    let r ← resize f a s L (s.table.capacity * 2 % sizeMod)
    if r.ret ≠ 0 then pure { r with ret := -1 }
    else putEntry f a r.map r.ledger key value
  else putEntry f a s L key value

/-- The end of `hash_map_remove`. -/
def shrink (f : Callbacks K) (a : Allocs) (s : HeapMap K V) (L : Ledger) : Option (Result K V) :=
  if minimumCapacity < s.table.capacity ∧ 0 < s.table.count ∧
      4 * s.table.count ≤ s.table.capacity then do
    let r ← resize f a s L s.table.shrunkCapacity
    pure { r with ret := 1 }
  else some ⟨1, none, s, L⟩

/-- `free(entries[index].key)` -/
def freeKey (L : Ledger) (e : HashEntry (Owned K) (Owned V)) : Option Ledger :=
  match e.key with
  | some .tombstone => none
  | some (.block k) => L.free (some k.block)
  | none => L.free none

/-- `hash_map_remove`.  It releases the key block only. -/
def remove (f : Callbacks K) (a : Allocs) (s : HeapMap K V) (L : Ledger) (key : K) :
    Option (Result K V) := do
  let hit ← HashMap.find f s.view key
  match hit with
  | some index => do
      let L ← freeKey L (s.table.entries index)
      shrink f a (s.withTable (s.table.tombstoneAt index)) L
  | none => pure ⟨0, none, s, L⟩

/-- The body of the loop of `hash_map_free`. -/
def freeEntry (L : Ledger) (e : HashEntry (Owned K) (Owned V)) : Option Ledger :=
  match e.key with
  | some (.block k) => do
      let L ← L.free (some k.block)
      L.free (e.value.map Owned.block)
  | _ => some L

/-- `hash_map_free` -/
def hashMapFree (s : HeapMap K V) (L : Ledger) : Option Ledger := do
  let L ← (List.finRange s.table.capacity).foldlM (fun L i => freeEntry L (s.table.entries i)) L
  let L ← L.free (some s.tableBlock)
  L.free (some s.block)

/-- One call, with the outcome of the allocations it may make. -/
def call (f : Callbacks K) (s : HeapMap K V × Ledger) :
    HashMap.Op K V × Allocs → Option (HashMap.Seen V × HeapMap K V × Ledger)
  | (.put key value, a) => do
      let r ← put f a s.1 s.2 key value
      pure (⟨.status r.ret, r.map.table.hashMapCount, r.errno⟩, r.map, r.ledger)
  | (.get key, _) => do
      let r ← HashMap.get f s.1.view (some key)
      pure (⟨.value r.1, s.1.table.hashMapCount, r.2⟩, s)
  | (.remove key, a) => do
      let r ← remove f a s.1 s.2 key
      pure (⟨.status r.ret, r.map.table.hashMapCount, r.errno⟩, r.map, r.ledger)

end HeapMap

/-! ## The blocks accounted for -/

/-- The blocks of a live entry. -/
def HashEntry.blocks (e : HashEntry (Owned K) (Owned V)) : Multiset ℕ :=
  match e.key with
  | some (.block k) => k.block ::ₘ (e.value.map Owned.block).elim 0 fun b => {b}
  | _ => 0

/-- The blocks of the live entries of a table. -/
def HashMap.tableBlocks {c : ℕ} (T : Fin c → HashEntry (Owned K) (Owned V)) : Multiset ℕ :=
  ∑ i, (T i).blocks

/-- The map, its table, and the blocks of the live entries. -/
def HeapMap.blocks (s : HeapMap K V) : Multiset ℕ :=
  s.block ::ₘ s.tableBlock ::ₘ HashMap.tableBlocks s.table.entries

end Ctm
