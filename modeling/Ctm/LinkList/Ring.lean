import Mathlib.Data.Fintype.Card
import Ctm.Lib.Ring
import Ctm.LinkList.Fields

/-!
# The list is a faithful sequence

In every heap reached from `list_init` by adding nodes that are not in the list and
deleting nodes that are, the nodes form a ring through the head: most recently added
first along `next`, the same backwards along `prev`, and every node reaches the counter
cell that holds their number.

## Main definitions

* `IsList` — the heap holds a list with the given nodes.
* `added`, `deleted` — the assignments of the two operations.
* `listAddNode_spec`, `listDeleteNode_spec` — the two operations.
* `Op`, `run`, `specRun` — sequences of operations, on the heap and on the sequence.
* `run_isList` — the heap after any sequence of operations.
-/

namespace Ctm
namespace Heap
variable {A : Type} [DecidableEq A] {h h' : Heap A} {head cell x y : A} {l : List A}

/-- The heap holds a list with head `head`, counter cell `cell` and nodes `l`. -/
structure IsList (h : Heap A) (head cell : A) (l : List A) : Prop where
  ring : Ring.IsRing h.nextOf h.prevOf head l
  points : ∀ a ∈ head :: l, h.countOf a = some cell
  counted : h.counts cell = some (l.length % sizeMod)

omit [DecidableEq A] in
theorem IsList.readable (H : IsList h head cell l) (hx : x ∈ head :: l) : h.Readable x := by
  intro hnone
  have := H.points x hx
  rw [countOf, hnone] at this
  cases this

omit [DecidableEq A] in
/-- The two neighbours of a node of the list. -/
theorem IsList.neighbours (H : IsList h head cell l) (hx : x ∈ head :: l) :
    ∃ p n, h.nextOf x = some n ∧ h.prevOf x = some p ∧ n ∈ head :: l ∧ p ∈ head :: l := by
  have hnext : ∀ {next prev : A → Option A} {l : List A}, Ring.IsRing next prev head l →
      x ∈ head :: l → ∃ n, next x = some n := by
    intro next prev l hring hx
    rcases List.mem_cons.mp hx with rfl | hx
    · exact ⟨_, hring.seg.next_start⟩
    · obtain ⟨l₁, l₂, rfl⟩ := List.append_of_mem hx
      exact ⟨_, (Ring.seg_append.mp hring.seg).2.next_start⟩
  have hx' : x ∈ head :: l.reverse := by simpa using hx
  obtain ⟨n, hn⟩ := hnext H.ring hx
  obtain ⟨p, hp⟩ := hnext H.ring.reverse hx'
  have hpm := (H.ring.reverse.prev_of_next hx' hp).1
  exact ⟨p, n, hn, hp, (H.ring.prev_of_next hx hn).1, by simpa using hpm⟩

omit [DecidableEq A] in
/-- A heap that agrees on the nodes of the list and on the counter cells holds it too. -/
theorem IsList.frame (H : IsList h head cell l) (hnodes : ∀ a ∈ head :: l, h'.nodes a = h.nodes a)
    (hcounts : h'.counts = h.counts) : IsList h' head cell l where
  ring := by
    refine ⟨H.ring.nodup, H.ring.seg.frame ?_ ?_⟩
    · intro a ha
      rw [nextOf, hnodes a ha, nextOf]
    · intro a ha
      rw [prevOf, hnodes a (by simpa [or_comm] using ha), prevOf]
  points a ha := by
    rw [countOf, hnodes a ha]
    exact H.points a ha
  counted := by rw [hcounts, H.counted]

/-- `list_init` makes an empty list, when it has a head and a cell. -/
theorem listInit_spec (hhead : h.Readable head) (cell : A) :
    ∃ h', h.listInit head (some cell) = some h' ∧ IsList h' head cell [] ∧
      ∀ y, h'.Readable y ↔ h.Readable y := by
  refine ⟨(((h.putNext head head).putPrev head head).putCount head cell).putCell cell 0,
    ?_, ⟨.empty ?_ ?_, ?_, ?_⟩, by simp⟩
  · have h₁ : (h.putNext head head).Readable head := by simpa using hhead
    have h₂ : ((h.putNext head head).putPrev head head).Readable head := by simpa using hhead
    simp only [listInit, setNext_some hhead, setPrev_some h₁, setCount_some h₂,
      Option.bind_eq_bind, Option.bind_some]
    rfl
  · simp [nextOf_putNext hhead]
  · simp [prevOf_putPrev, hhead]
  · intro a ha
    obtain rfl := List.mem_singleton.mp ha
    simp [countOf_putCount, hhead]
  · simp

/-- Whatever `list_init` returns is an empty list. -/
theorem listInit_isList {malloc : Option A} (hinit : h.listInit head malloc = some h') :
    ∃ cell, IsList h' head cell [] := by
  have hhead : h.Readable head := by
    intro hnone
    simp [listInit, setNext, hnone] at hinit
  cases malloc with
  | none => simp [listInit] at hinit
  | some cell =>
      obtain ⟨h'', hinit', H, -⟩ := listInit_spec hhead cell
      obtain rfl := Option.some.inj (hinit'.symm.trans hinit)
      exact ⟨cell, H⟩

/-- The assignments of `list_add_node`, when `n` was the first node. -/
def added (h : Heap A) (head cell x n : A) (k : ℕ) : Heap A :=
  ((((((h.putNext x n).putPrev x head).putCount x cell).putPrev n x).putNext head x).putCell cell
    ((k % sizeMod + 1) % sizeMod))

/-- The assignments of `list_delete_node`, when `p` and `n` were the neighbours. -/
def deleted (h : Heap A) (cell x p n : A) (k : ℕ) : Heap A :=
  ((((((h.putPrev n p).putNext p n).putCell cell
    (((k + 1) % sizeMod + (sizeMod - 1)) % sizeMod)).putNext x none).putPrev x none).putCount x none)

/-- `list_add_node` makes its assignments. -/
theorem listAddNode_eq (H : IsList h head cell l) (hx : x ∉ head :: l) (hread : h.Readable x)
    {n : A} (hn : h.nextOf head = some n) (hnread : h.Readable n) :
    h.listAddNode head x = some (h.added head cell x n l.length) := by
  have hhead := H.readable (x := head) (by simp)
  have hcount := H.points head (by simp)
  have hcounted := H.counted
  have hne : head ≠ x := fun he => hx (by simp [he])
  simp [listAddNode, added, next_some, count_some, setNext_some, setPrev_some, setCount_some,
    updateCount_some, nextOf_putNext, countOf_putCount, Function.update_of_ne, hhead, hread,
    hnread, hn, hcount, hcounted, hne]

/-- `list_delete_node` makes its assignments. -/
theorem listDeleteNode_eq {l₁ l₂ : List A} (H : IsList h head cell (l₁ ++ x :: l₂)) {p n : A}
    (hn : h.nextOf x = some n) (hp : h.prevOf x = some p) (hpread : h.Readable p)
    (hnread : h.Readable n) (hxn : x ≠ n) :
    h.listDeleteNode x = some (h.deleted cell x p n (l₁.length + l₂.length)) := by
  have hread := H.readable (x := x) (by simp)
  have hcount := H.points x (by simp)
  have hcounted : h.counts cell = some ((l₁.length + l₂.length + 1) % sizeMod) := by
    rw [H.counted, List.length_append, List.length_cons]
    rfl
  simp [listDeleteNode, deleted, next_some, prev_some, count_some, setNext_some, setPrev_some,
    setCount_some, updateCount_some, prevOf_putPrev, Function.update_of_ne, hread, hpread,
    hnread, hn, hp, hcount, hcounted, hxn]

/-- `list_add_node` puts a new node first. -/
theorem listAddNode_spec (H : IsList h head cell l) (hx : x ∉ head :: l) (hread : h.Readable x) :
    ∃ h', h.listAddNode head x = some h' ∧ IsList h' head cell (x :: l) ∧
      ∀ y, h'.Readable y ↔ h.Readable y := by
  obtain ⟨-, n, hn, -, hnmem, -⟩ := H.neighbours (x := head) (by simp)
  have hhead := H.readable (x := head) (by simp)
  have hnread := H.readable hnmem
  have hxh : x ≠ head := fun he => hx (by simp [he])
  have hxn : x ≠ n := fun he => hx (he ▸ hnmem)
  have hnext : (h.added head cell x n l.length).nextOf =
      Function.update (Function.update h.nextOf x (some n)) head (some x) := by
    simp [added, nextOf_putNext, hread, hhead]
  have hprev : (h.added head cell x n l.length).prevOf =
      Function.update (Function.update h.prevOf x (some head)) n (some x) := by
    simp [added, prevOf_putPrev, hread, hnread]
  have hcountOf : (h.added head cell x n l.length).countOf =
      Function.update h.countOf x (some cell) := by
    simp [added, countOf_putCount, hread]
  refine ⟨_, listAddNode_eq H hx hread hn hnread, ⟨?_, ?_, ?_⟩, by simp [added]⟩
  · refine H.ring.insert hx hn ?_ ?_ ?_ ?_ ?_ ?_
    · simp [hnext]
    · simp [hprev, Function.update_of_ne hxn]
    · simp [hnext, Function.update_of_ne hxh]
    · simp [hprev]
    · intro y hyh hyx
      simp [hnext, Function.update_of_ne hyh, Function.update_of_ne hyx]
    · intro y hyn hyx
      simp [hprev, Function.update_of_ne hyn, Function.update_of_ne hyx]
  · intro a ha
    rw [hcountOf]
    by_cases hax : a = x
    · rw [hax, Function.update_self]
    · rw [Function.update_of_ne hax]
      apply H.points
      simp only [List.mem_cons] at ha ⊢
      tauto
  · simp [added, Nat.add_mod]

/-- `list_delete_node` takes a node out. -/
theorem listDeleteNode_spec {l₁ l₂ : List A} (H : IsList h head cell (l₁ ++ x :: l₂)) :
    ∃ h', h.listDeleteNode x = some h' ∧ IsList h' head cell (l₁ ++ l₂) ∧
      ∀ y, h'.Readable y ↔ h.Readable y := by
  have hxmem : x ∈ head :: (l₁ ++ x :: l₂) := by simp
  obtain ⟨p, n, hn, hp, hnmem, hpmem⟩ := H.neighbours hxmem
  have hread := H.readable hxmem
  have hpread := H.readable hpmem
  have hnread := H.readable hnmem
  have hxp : x ≠ p := H.ring.reverse.ne_next (by simp) hp
  have hxn : x ≠ n := H.ring.ne_next (by simp) hn
  have hnext : (h.deleted cell x p n (l₁.length + l₂.length)).nextOf =
      Function.update (Function.update h.nextOf p (some n)) x none := by
    simp [deleted, nextOf_putNext, hread, hpread]
  have hprev : (h.deleted cell x p n (l₁.length + l₂.length)).prevOf =
      Function.update (Function.update h.prevOf n (some p)) x none := by
    simp [deleted, prevOf_putPrev, hread, hnread]
  have hcountOf : (h.deleted cell x p n (l₁.length + l₂.length)).countOf =
      Function.update h.countOf x none := by
    simp [deleted, countOf_putCount, hread]
  refine ⟨_, listDeleteNode_eq H hn hp hpread hnread hxn, ⟨?_, ?_, ?_⟩, by simp [deleted]⟩
  · refine H.ring.splice hp hn ?_ ?_ ?_ ?_
    · simp [hnext, Function.update_of_ne (Ne.symm hxp)]
    · simp [hprev, Function.update_of_ne (Ne.symm hxn)]
    · intro y hyp hyx
      simp [hnext, Function.update_of_ne hyp, Function.update_of_ne hyx]
    · intro y hyn hyx
      simp [hprev, Function.update_of_ne hyn, Function.update_of_ne hyx]
  · intro a ha
    have hax : a ≠ x := by
      rintro rfl
      have hnd : (a :: (head :: (l₁ ++ l₂))).Nodup := by
        refine (List.Perm.nodup_iff ?_).mp H.ring.nodup
        exact (List.perm_middle.cons head).trans (List.Perm.swap a head _)
      exact (List.nodup_cons.mp hnd).1 ha
    rw [hcountOf, Function.update_of_ne hax]
    apply H.points
    simp only [List.mem_cons, List.mem_append] at ha ⊢
    tauto
  · simp [deleted, succ_mod_pred_mod sizeMod_pos]

/-! ## Sequences of operations -/

/-- An operation on the list. -/
inductive Op (A : Type)
  | add (node : A)
  | delete (node : A)

/-- One operation on the heap. -/
def call (head : A) (h : Heap A) : Op A → Option (Heap A)
  | .add node => h.listAddNode head node
  | .delete node => h.listDeleteNode node

/-- A sequence of operations on the heap. -/
def run (head : A) (h : Heap A) (ops : List (Op A)) : Option (Heap A) := ops.foldlM (call head) h

/-- One operation on the sequence of nodes: a node that is not in the list comes first, or a
node of the list goes.  Others are not allowed. -/
def specCall (head : A) (l : List A) : Op A → Option (List A)
  | .add node => if node ∈ head :: l then none else some (node :: l)
  | .delete node => if node ∈ l then some (l.erase node) else none

/-- A sequence of allowed operations on the sequence of nodes. -/
def specRun (head : A) (l : List A) (ops : List (Op A)) : Option (List A) :=
  ops.foldlM (specCall head) l

/-- An allowed operation on the heap is the operation on the sequence. -/
theorem call_isList (H : IsList h head cell l) {op : Op A} {l' : List A}
    (hspec : specCall head l op = some l') (hread : ∀ node, op = .add node → h.Readable node) :
    ∃ h', call head h op = some h' ∧ IsList h' head cell l' ∧ ∀ y, h'.Readable y ↔ h.Readable y := by
  cases op with
  | add node =>
      simp only [specCall] at hspec
      split at hspec
      · cases hspec
      · rename_i hnew
        obtain rfl := Option.some.inj hspec
        exact listAddNode_spec H hnew (hread node rfl)
  | delete node =>
      simp only [specCall] at hspec
      split at hspec
      · rename_i hmem
        obtain rfl := Option.some.inj hspec
        obtain ⟨l₁, l₂, hnotin, rfl, herase⟩ := List.exists_erase_eq hmem
        rw [herase]
        exact listDeleteNode_spec H
      · cases hspec

/-- Every sequence of allowed operations keeps the list. -/
theorem run_isList (H : IsList h head cell l) {ops : List (Op A)} {l' : List A}
    (hspec : specRun head l ops = some l') (hread : ∀ node, .add node ∈ ops → h.Readable node) :
    ∃ h', run head h ops = some h' ∧ IsList h' head cell l' := by
  induction ops generalizing h l with
  | nil =>
      obtain rfl := Option.some.inj hspec
      exact ⟨h, rfl, H⟩
  | cons op ops ih =>
      rw [specRun, List.foldlM_cons] at hspec
      obtain ⟨l₁, h₁, hspec⟩ := Option.bind_eq_some_iff.mp hspec
      obtain ⟨h₁', hcall, H₁, hreads⟩ := call_isList H h₁ (by
        rintro node rfl
        exact hread node (by simp))
      obtain ⟨h', hrun, H'⟩ := ih H₁ hspec (fun node hnode =>
        (hreads node).mpr (hread node (List.mem_cons_of_mem _ hnode)))
      refine ⟨h', ?_, H'⟩
      rw [run, List.foldlM_cons, hcall]
      exact hrun

/-- The heap shows the sequence `l`: forwards from the head, backwards, through mutually
inverse links, and in the counter cell every node reaches. -/
structure Shows (h : Heap A) (head : A) (l : List A) : Prop where
  nodup : (head :: l).Nodup
  forward : ∀ fuel, l.length < fuel → Ring.follow h.nextOf head fuel head = some l
  backward : ∀ fuel, l.length < fuel → Ring.follow h.prevOf head fuel head = some l.reverse
  next_prev : ∀ a ∈ head :: l, ∃ b ∈ head :: l, h.nextOf a = some b ∧ h.prevOf b = some a
  prev_next : ∀ a ∈ head :: l, ∃ b ∈ head :: l, h.prevOf a = some b ∧ h.nextOf b = some a
  count : ∀ a ∈ head :: l, h.listCount a = some l.length

omit [DecidableEq A] in
/-- Every node reaches the counter cell. -/
theorem IsList.listCount (H : IsList h head cell l) (hx : x ∈ head :: l) :
    h.listCount x = some (l.length % sizeMod) := by
  simp only [Heap.listCount, count_some (H.readable hx), H.points x hx, Option.bind_eq_bind,
    Option.bind_some, H.counted]

/-- A list shorter than the range of `size_t` shows its nodes. -/
theorem IsList.shows (H : IsList h head cell l) (hlen : l.length < sizeMod) : Shows h head l where
  nodup := H.ring.nodup
  forward fuel hfuel := H.ring.follow hfuel
  backward fuel hfuel := H.ring.reverse.follow (by rw [List.length_reverse]; exact hfuel)
  next_prev a ha := by
    obtain ⟨p, n, hn, hp, hnmem, hpmem⟩ := H.neighbours ha
    exact ⟨n, hnmem, hn, (H.ring.prev_of_next ha hn).2⟩
  prev_next a ha := by
    obtain ⟨p, n, hn, hp, hnmem, hpmem⟩ := H.neighbours ha
    exact ⟨p, hpmem, hp, (H.ring.reverse.prev_of_next (by simpa using ha) hp).2⟩
  count a ha := by rw [H.listCount ha, Nat.mod_eq_of_lt hlen]

end Heap

/-- A machine address. -/
abbrev Addr := BitVec 64

/-- There are no more distinct bit vectors than numbers of that width. -/
theorem length_le_of_nodup {w : ℕ} {l : List (BitVec w)} (h : l.Nodup) : l.length ≤ 2 ^ w := by
  have hinj : Function.Injective (BitVec.toFin : BitVec w → Fin (2 ^ w)) :=
    fun _ _ hab => BitVec.toFin_inj.mp hab
  have hcard := (h.map hinj).length_le_card
  rwa [List.length_map, Fintype.card_fin] at hcard

namespace Heap

/-- **The circular list is a faithful sequence.**  After `list_init` and any sequence of
allowed operations on readable nodes, the heap shows the nodes added and not yet deleted,
the most recently added first. -/
theorem run_shows {h₀ h₁ : Heap Addr} {head : Addr} {malloc : Option Addr}
    (hinit : h₀.listInit head malloc = some h₁) {ops : List (Op Addr)} {l : List Addr}
    (hspec : specRun head [] ops = some l) (hread : ∀ node, .add node ∈ ops → h₁.Readable node) :
    ∃ h, run head h₁ ops = some h ∧ Shows h head l := by
  obtain ⟨cell, H⟩ := listInit_isList hinit
  obtain ⟨h, hrun, H'⟩ := run_isList H hspec hread
  -- The head has an address too, so the number of nodes is below the range of `size_t`.
  exact ⟨h, hrun, H'.shows (length_le_of_nodup H'.ring.nodup)⟩

/-- A node added, deleted and added again, with another one below it. -/
theorem run_shows_three : ∃ h : Heap Addr, Shows h 1 [2, 3] := by
  let h₀ : Heap Addr := ⟨fun _ => some ⟨none, none, none⟩, fun _ => none⟩
  have hread : ∀ a : Addr, h₀.Readable a := fun a => Option.some_ne_none _
  obtain ⟨h₁, hinit, -, hreads⟩ := listInit_spec (hread 1) 9
  have hspec : specRun (1 : Addr) [] [.add 2, .add 3, .delete 2, .add 2] = some [2, 3] := rfl
  obtain ⟨h, -, H⟩ := run_shows hinit hspec (fun node _ => (hreads node).mpr (hread node))
  exact ⟨h, H⟩

end Heap
end Ctm
