import Ctm.LinkList.Basic

/-!
# Assignments to the fields of nodes

`h.putNext a v` is the heap after `a->next = v`, for a readable `a`; the other two fields
likewise.  Each assignment changes one field of one node, so a sequence of them is read
field by field.

## Main definitions

* `Readable` — an address that holds a node.
* `putNext`, `putPrev`, `putCount` — one assignment.
-/

namespace Ctm
namespace Heap
variable {A : Type} [DecidableEq A] {h : Heap A} {a b : A} {v : Option A}

/-- `a` holds a node. -/
def Readable (h : Heap A) (a : A) : Prop := h.nodes a ≠ none

/-- The heap after a change of the node at `a`. -/
def modify (h : Heap A) (a : A) (f : ListNode A → ListNode A) : Heap A :=
  { h with nodes := Function.update h.nodes a ((h.nodes a).map f) }

/-- The heap after `a->next = v`. -/
def putNext (h : Heap A) (a : A) (v : Option A) : Heap A := h.modify a fun n => { n with next := v }

/-- The heap after `a->prev = v`. -/
def putPrev (h : Heap A) (a : A) (v : Option A) : Heap A := h.modify a fun n => { n with prev := v }

/-- The heap after `a->count = v`. -/
def putCount (h : Heap A) (a : A) (v : Option A) : Heap A :=
  h.modify a fun n => { n with count := v }

/-- The heap after a counter cell is set. -/
def putCell (h : Heap A) (c : A) (k : ℕ) : Heap A :=
  { h with counts := Function.update h.counts c (some k) }

omit [DecidableEq A] in
theorem Readable.exists_node (ha : h.Readable a) : ∃ node, h.nodes a = some node :=
  Option.ne_none_iff_exists'.mp ha

/-! ## Reading and assigning a field of a readable node -/

omit [DecidableEq A] in
theorem next_some (ha : h.Readable a) : h.next (some a) = some (h.nextOf a) := by
  obtain ⟨node, hnode⟩ := ha.exists_node
  simp [next, nextOf, hnode]

omit [DecidableEq A] in
theorem prev_some (ha : h.Readable a) : h.prev (some a) = some (h.prevOf a) := by
  obtain ⟨node, hnode⟩ := ha.exists_node
  simp [prev, prevOf, hnode]

omit [DecidableEq A] in
theorem count_some (ha : h.Readable a) : h.count (some a) = some (h.countOf a) := by
  obtain ⟨node, hnode⟩ := ha.exists_node
  simp [count, countOf, hnode]

theorem setNext_some (ha : h.Readable a) : h.setNext (some a) v = some (h.putNext a v) := by
  obtain ⟨node, hnode⟩ := ha.exists_node
  simp [setNext, putNext, modify, setNode, hnode]

theorem setPrev_some (ha : h.Readable a) : h.setPrev (some a) v = some (h.putPrev a v) := by
  obtain ⟨node, hnode⟩ := ha.exists_node
  simp [setPrev, putPrev, modify, setNode, hnode]

theorem setCount_some (ha : h.Readable a) : h.setCount (some a) v = some (h.putCount a v) := by
  obtain ⟨node, hnode⟩ := ha.exists_node
  simp [setCount, putCount, modify, setNode, hnode]

theorem updateCount_some {c : A} {k : ℕ} {f : ℕ → ℕ} (hk : h.counts c = some k) :
    h.updateCount (some c) f = some (h.putCell c (f k)) := by
  simp [updateCount, putCell, hk]

/-! ## What an assignment changes -/

section Modify
variable {f : ListNode A → ListNode A}

@[simp] theorem readable_modify : (h.modify a f).Readable b ↔ h.Readable b := by
  by_cases hb : b = a
  · subst hb
    simp [Readable, modify]
  · simp [Readable, modify, Function.update_of_ne hb]

/-- A field that the change keeps is the same field everywhere. -/
theorem bind_modify {g : ListNode A → Option A} (hg : ∀ n, g (f n) = g n) :
    ((h.modify a f).nodes b).bind g = (h.nodes b).bind g := by
  by_cases hb : b = a
  · subst hb
    cases hnode : h.nodes b with
    | none => simp [modify, hnode]
    | some n => simp [modify, hnode, hg]
  · simp [modify, Function.update_of_ne hb]

/-- A field that the change sets is set at `a` only. -/
theorem bind_modify_set {g : ListNode A → Option A} (ha : h.Readable a) (hg : ∀ n, g (f n) = v) :
    ((h.modify a f).nodes b).bind g = Function.update (fun y => (h.nodes y).bind g) a v b := by
  by_cases hb : b = a
  · subst hb
    obtain ⟨n, hnode⟩ := ha.exists_node
    simp [modify, hnode, hg]
  · simp [modify, Function.update_of_ne hb]

end Modify

@[simp] theorem readable_putNext : (h.putNext a v).Readable b ↔ h.Readable b := readable_modify

@[simp] theorem readable_putPrev : (h.putPrev a v).Readable b ↔ h.Readable b := readable_modify

@[simp] theorem readable_putCount : (h.putCount a v).Readable b ↔ h.Readable b := readable_modify

@[simp] theorem readable_putCell {c : A} {k : ℕ} : (h.putCell c k).Readable b ↔ h.Readable b :=
  Iff.rfl

theorem nextOf_putNext (ha : h.Readable a) :
    (h.putNext a v).nextOf = Function.update h.nextOf a v :=
  funext fun _ => bind_modify_set ha fun _ => rfl

@[simp] theorem nextOf_putPrev : (h.putPrev a v).nextOf = h.nextOf :=
  funext fun _ => bind_modify fun _ => rfl

@[simp] theorem nextOf_putCount : (h.putCount a v).nextOf = h.nextOf :=
  funext fun _ => bind_modify fun _ => rfl

@[simp] theorem nextOf_putCell {c : A} {k : ℕ} : (h.putCell c k).nextOf = h.nextOf := rfl

theorem prevOf_putPrev (ha : h.Readable a) :
    (h.putPrev a v).prevOf = Function.update h.prevOf a v :=
  funext fun _ => bind_modify_set ha fun _ => rfl

@[simp] theorem prevOf_putNext : (h.putNext a v).prevOf = h.prevOf :=
  funext fun _ => bind_modify fun _ => rfl

@[simp] theorem prevOf_putCount : (h.putCount a v).prevOf = h.prevOf :=
  funext fun _ => bind_modify fun _ => rfl

@[simp] theorem prevOf_putCell {c : A} {k : ℕ} : (h.putCell c k).prevOf = h.prevOf := rfl

theorem countOf_putCount (ha : h.Readable a) :
    (h.putCount a v).countOf = Function.update h.countOf a v :=
  funext fun _ => bind_modify_set ha fun _ => rfl

@[simp] theorem countOf_putNext : (h.putNext a v).countOf = h.countOf :=
  funext fun _ => bind_modify fun _ => rfl

@[simp] theorem countOf_putPrev : (h.putPrev a v).countOf = h.countOf :=
  funext fun _ => bind_modify fun _ => rfl

@[simp] theorem countOf_putCell {c : A} {k : ℕ} : (h.putCell c k).countOf = h.countOf := rfl

@[simp] theorem counts_putNext : (h.putNext a v).counts = h.counts := rfl

@[simp] theorem counts_putPrev : (h.putPrev a v).counts = h.counts := rfl

@[simp] theorem counts_putCount : (h.putCount a v).counts = h.counts := rfl

@[simp] theorem counts_putCell {c : A} {k : ℕ} :
    (h.putCell c k).counts = Function.update h.counts c (some k) := rfl

end Heap
end Ctm
