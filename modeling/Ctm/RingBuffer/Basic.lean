import Ctm.Lib.Block
import Ctm.Libc

/-!
# The ring buffer of `core/ring_buffer.c`

Fixed-size items in one block of bytes.  A slot pointer is an offset into the block.

## Main definitions

* `RingBuffer` — the `struct ring_buffer`.
* `alloc`, `advance`, `peek`, `getCapacity` — the functions of the source.
* `write` — an advance whose slot the caller then fills.
-/

namespace Ctm

/-- The `struct ring_buffer`. -/
structure RingBuffer where
  /-- The number of items to fit in the ring buffer. -/
  capacity : ℕ
  /-- The number of items currently in the buffer. -/
  count : ℕ
  /-- Flattened array of bytes. -/
  buffer : List UInt8
  /-- The size of each item in the buffer in bytes. -/
  itemSize : ℕ
  /-- The index of the most recent item. -/
  head : ℕ
deriving DecidableEq, Repr

namespace RingBuffer

/-- `ring_buffer_alloc`: `mallocOk` and `callocOk` say whether there is memory for the
structure and for the block. -/
def alloc (capacity itemSize : ℕ) (mallocOk callocOk : Bool) : Option RingBuffer :=
  if mallocOk then
    match calloc callocOk capacity itemSize with
    | none => none
    | some buffer => some ⟨capacity, 0, buffer, itemSize, 0⟩
  else none

/-- `ring_buffer_advance`: the pointer to the new current slot.  `none` is a division by
zero. -/
def advance (rb : RingBuffer) : Option (ℕ × RingBuffer) := do
  let head ← (if 0 < rb.count then umod ((rb.head + 1) % sizeMod) rb.capacity
    else some rb.head)
  let count := if rb.count < rb.capacity then (rb.count + 1) % sizeMod else rb.count
  some (head * rb.itemSize % sizeMod, ⟨rb.capacity, count, rb.buffer, rb.itemSize, head⟩)

/-- `ring_buffer_peek`: a slot pointer or NULL, and the `errno` set with NULL. -/
def peek (rb : RingBuffer) (offset : ℕ) : Option (Option ℕ × Option Errno) :=
  if rb.count ≤ offset then some (none, some .EINVAL)
  else do
    -- `head + capacity - offset` in unsigned arithmetic
    let sum := (rb.head + rb.capacity) % sizeMod + (sizeMod - offset)
    let idx ← umod (sum % sizeMod) rb.capacity
    some (some (idx * rb.itemSize % sizeMod), none)

/-- `ring_buffer_get_capacity`, with the `errno` it sets. -/
def getCapacity (rb : Option RingBuffer) : ℕ × Option Errno :=
  match rb with
  | none => (0, some .EINVAL)
  | some rb => (rb.capacity, none)

/-- The item a slot pointer points to. -/
def item (rb : RingBuffer) (slot : ℕ) : Option (List UInt8) := Block.load rb.buffer slot rb.itemSize

/-- An advance whose slot the caller fills with `x`. -/
def write (rb : RingBuffer) (x : List UInt8) : Option RingBuffer := do
  let (slot, rb') ← rb.advance
  let buffer ← Block.store rb'.buffer slot x
  some ⟨rb'.capacity, rb'.count, buffer, rb'.itemSize, rb'.head⟩

end RingBuffer
end Ctm
