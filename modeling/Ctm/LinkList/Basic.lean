import Mathlib.Logic.Function.Basic
import Ctm.Libc

/-!
# The intrusive list of `core/list.c`

Nodes live in memory owned by the caller, and all nodes of a list point to one counter
cell.  A pointer is an address or NULL; following NULL, or an address that holds no node,
is not defined (`none`).

## Main definitions

* `ListNode`, `Heap` — nodes and counter cells in memory.
* `listInit`, `listCount`, `listAddNode`, `listDeleteNode` — the functions of the source.
* `listForeach`, `listForeachSafe` — the iteration macros of the header.
-/

namespace Ctm

/-- The `struct list_node`. -/
structure ListNode (A : Type) where
  next : Option A
  prev : Option A
  count : Option A
deriving DecidableEq, Repr

/-- The memory a list lives in. -/
structure Heap (A : Type) where
  /-- The nodes; `none` where no node can be read. -/
  nodes : A → Option (ListNode A)
  /-- The counter cells. -/
  counts : A → Option ℕ

namespace Heap
variable {A : Type} [DecidableEq A] {h h' : Heap A} {a b : A} {v : Option A}

/-- `p->next`, when `p` points to a node. -/
def next (h : Heap A) (p : Option A) : Option (Option A) := do
  let a ← p
  let node ← h.nodes a
  some node.next

/-- `p->prev` -/
def prev (h : Heap A) (p : Option A) : Option (Option A) := do
  let a ← p
  let node ← h.nodes a
  some node.prev

/-- `p->count` -/
def count (h : Heap A) (p : Option A) : Option (Option A) := do
  let a ← p
  let node ← h.nodes a
  some node.count

/-- The heap with another node at `a`. -/
def setNode (h : Heap A) (a : A) (node : ListNode A) : Heap A :=
  { h with nodes := Function.update h.nodes a (some node) }

/-- `p->next = v` -/
def setNext (h : Heap A) (p v : Option A) : Option (Heap A) := do
  let a ← p
  let node ← h.nodes a
  some (h.setNode a { node with next := v })

/-- `p->prev = v` -/
def setPrev (h : Heap A) (p v : Option A) : Option (Heap A) := do
  let a ← p
  let node ← h.nodes a
  some (h.setNode a { node with prev := v })

/-- `p->count = v` -/
def setCount (h : Heap A) (p v : Option A) : Option (Heap A) := do
  let a ← p
  let node ← h.nodes a
  some (h.setNode a { node with count := v })

/-- `*p = f(*p)` for a counter cell `p`. -/
def updateCount (h : Heap A) (p : Option A) (f : ℕ → ℕ) : Option (Heap A) := do
  let c ← p
  let k ← h.counts c
  some { h with counts := Function.update h.counts c (some (f k)) }

/-- `list_init`: `malloc` is the cell `malloc` returns.  The source does not check it, so
NULL is not defined. -/
def listInit (h : Heap A) (head : A) (malloc : Option A) : Option (Heap A) := do
  let h ← h.setNext head head
  let h ← h.setPrev head head
  let h ← h.setCount head malloc
  let cell ← malloc
  some { h with counts := Function.update h.counts cell (some 0) }

/-- `list_count` -/
def listCount (h : Heap A) (node : A) : Option ℕ := do
  let cell ← (← h.count node)
  h.counts cell

/-- `list_add_node` -/
def listAddNode (h : Heap A) (head newNode : A) : Option (Heap A) := do
  let h ← h.setNext newNode (← h.next head)
  let h ← h.setPrev newNode head
  let h ← h.setCount newNode (← h.count head)
  let h ← h.setPrev (← h.next head) newNode
  let h ← h.setNext head newNode
  h.updateCount (← h.count head) fun k => (k + 1) % sizeMod

/-- `list_delete_node` -/
def listDeleteNode (h : Heap A) (node : A) : Option (Heap A) := do
  let h ← h.setPrev (← h.next node) (← h.prev node)
  let h ← h.setNext (← h.prev node) (← h.next node)
  let h ← h.updateCount (← h.count node) fun k => (k + (sizeMod - 1)) % sizeMod
  let h ← h.setNext node none
  let h ← h.setPrev node none
  h.setCount node none

/-! ## Iteration -/

section Foreach
variable {σ ρ : Type}

/-- The loop of `LIST_FOREACH` from `pos` on.  The body returns from the function (`inl`) or
goes on (`inr`); `none` is an undefined access, or a loop longer than `fuel`. -/
def listForeachFrom (heap : σ → Heap A) (head : A) (body : σ → A → Option (ρ ⊕ σ)) :
    ℕ → σ → Option A → Option (ρ ⊕ σ)
  | 0, _, _ => none
  | fuel + 1, s, pos =>
      if pos = some head then some (.inr s)
      else do
        let curr ← pos
        match ← body s curr with
        | .inl r => some (.inl r)
        | .inr s' => listForeachFrom heap head body fuel s' (← (heap s').next pos)

/-- `LIST_FOREACH(curr, head) body` -/
def listForeach (heap : σ → Heap A) (head : A) (body : σ → A → Option (ρ ⊕ σ)) (fuel : ℕ)
    (s : σ) : Option (ρ ⊕ σ) := do
  listForeachFrom heap head body fuel s (← (heap s).next head)

/-- The loop of `LIST_FOREACH_SAFE` from `pos` on, with `n` read before the body runs. -/
def listForeachSafeFrom (heap : σ → Heap A) (head : A) (body : σ → A → Option σ) :
    ℕ → σ → Option A → Option A → Option σ
  | 0, _, _, _ => none
  | fuel + 1, s, pos, n =>
      if pos = some head then some s
      else do
        let curr ← pos
        let s' ← body s curr
        listForeachSafeFrom heap head body fuel s' n (← (heap s').next n)

/-- `LIST_FOREACH_SAFE(curr, n, head) body` -/
def listForeachSafe (heap : σ → Heap A) (head : A) (body : σ → A → Option σ) (fuel : ℕ)
    (s : σ) : Option σ := do
  let pos ← (heap s).next head
  listForeachSafeFrom heap head body fuel s pos (← (heap s).next pos)

end Foreach

/-! ## The fields of all nodes at once -/

/-- The `next` pointers. -/
def nextOf (h : Heap A) (a : A) : Option A := (h.nodes a).bind ListNode.next

/-- The `prev` pointers. -/
def prevOf (h : Heap A) (a : A) : Option A := (h.nodes a).bind ListNode.prev

/-- The `count` pointers. -/
def countOf (h : Heap A) (a : A) : Option A := (h.nodes a).bind ListNode.count

end Heap
end Ctm
