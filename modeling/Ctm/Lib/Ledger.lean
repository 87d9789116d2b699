import Mathlib.Data.Finset.Basic
import Mathlib.Algebra.BigOperators.Group.Finset.Basic

/-!
# A ledger of heap blocks

The allocator as its clients see it.  Blocks are numbered in the order they are handed
out, so a number names one allocation and is never given again; `live` holds the numbers
of the blocks not released yet.  `free` answers `none` when it is passed a block that is
not outstanding, which is a double free.

`Owns L bs` says that the outstanding blocks are exactly `bs`, each of them once.  Its
rules are those of a resource: an allocation adds a block, a release takes one away, and
whatever else is owned stays.

## Main definitions

* `Ledger`, `malloc`, `free` — the ledger and its two operations.
* `Owns` — the blocks outstanding.
* `Owns.malloc`, `Owns.free`, `Owns.foldlM` — the rules.
-/

/-- The blocks handed out so far are those below `next`. -/
structure Ledger where
  next : ℕ
  live : Finset ℕ
  live_lt : ∀ b ∈ live, b < next

namespace Ledger

variable {α : Type*} {L L' : Ledger} {b : ℕ} {bs rest : Multiset ℕ}

/-- Nothing is allocated. -/
def empty : Ledger := ⟨0, ∅, by simp⟩

/-- `malloc` and its like: a new block, or NULL when the request is refused. -/
def malloc (L : Ledger) (granted : Bool) : Option ℕ × Ledger :=
  if granted then
    (some L.next, ⟨L.next + 1, insert L.next L.live, by
      intro b hb
      rcases Finset.mem_insert.mp hb with rfl | hb
      · exact Nat.lt_succ_self _
      · exact Nat.lt_succ_of_lt (L.live_lt b hb)⟩)
  else (none, L)

/-- `free`.  Releasing NULL does nothing; `none` is a release of a block that is not
outstanding. -/
def free (L : Ledger) : Option ℕ → Option Ledger
  | none => some L
  | some b =>
      if b ∈ L.live then
        some ⟨L.next, L.live.erase b, fun c hc => L.live_lt c (Finset.mem_of_mem_erase hc)⟩
      else none

/-- The outstanding blocks are exactly `bs`, each of them once. -/
def Owns (L : Ledger) (bs : Multiset ℕ) : Prop := L.live.val = bs

instance (L : Ledger) (bs : Multiset ℕ) : Decidable (L.Owns bs) :=
  inferInstanceAs (Decidable (L.live.val = bs))

theorem owns_empty : empty.Owns 0 := rfl

@[simp] theorem malloc_refused (L : Ledger) : L.malloc false = (none, L) := rfl

/-- A granted request adds one block. -/
theorem Owns.malloc (h : L.Owns bs) :
    ∃ b L', L.malloc true = (some b, L') ∧ L'.Owns (b ::ₘ bs) := by
  have hnew : L.next ∉ L.live := fun hmem => Nat.lt_irrefl _ (L.live_lt _ hmem)
  refine ⟨_, _, rfl, ?_⟩
  change (insert L.next L.live).val = L.next ::ₘ bs
  rw [Finset.insert_val_of_notMem hnew, show L.live.val = bs from h]

/-- An owned block can be released, once. -/
theorem Owns.free (h : L.Owns (b ::ₘ bs)) : ∃ L', L.free (some b) = some L' ∧ L'.Owns bs := by
  have hval : L.live.val = b ::ₘ bs := h
  have hmem : b ∈ L.live := by
    rw [← Finset.mem_val, hval]
    exact Multiset.mem_cons_self b bs
  refine ⟨_, if_pos hmem, ?_⟩
  change (L.live.erase b).val = bs
  rw [Finset.erase_val, hval, Multiset.erase_cons_head]

/-- A loop that releases the blocks of each element in turn. -/
theorem Owns.foldlM {release : Ledger → α → Option Ledger} {blocks : α → Multiset ℕ}
    (hrelease : ∀ x L rest, L.Owns (blocks x + rest) →
      ∃ L', release L x = some L' ∧ L'.Owns rest)
    {xs : List α} (h : L.Owns ((xs.map blocks).sum + rest)) :
    ∃ L', xs.foldlM release L = some L' ∧ L'.Owns rest := by
  induction xs generalizing L with
  | nil =>
      refine ⟨L, rfl, ?_⟩
      rwa [List.map_nil, List.sum_nil, zero_add] at h
  | cons x xs ih =>
      rw [List.map_cons, List.sum_cons, add_assoc] at h
      obtain ⟨L₁, h₁, hL₁⟩ := hrelease x L _ h
      obtain ⟨L₂, h₂, hL₂⟩ := ih hL₁
      exact ⟨L₂, by rw [List.foldlM_cons, h₁]; exact h₂, hL₂⟩

/-- What is owned besides `bs` is what has been forgotten. -/
theorem Owns.iff_eq_zero (h : L.Owns (bs + rest)) : L.Owns bs ↔ rest = 0 := by
  have hval : L.live.val = bs + rest := h
  rw [Owns, hval]
  exact add_eq_left

end Ledger
