import Ctm.Process.Records

/-!
# The sweep is safe and exact

`remove_inactive_processes` deletes records while it runs through the list.  Here it is run
in a memory that is stricter than the code's: from the moment a node is taken out of the
list, before its record is destroyed, the node can no longer be read.  The sweep still
returns, so it reads no such node, and it ends with the memory and the callbacks of the code.

Each removal leaves a trace of what is done to the record, and in which order.

## Main definitions

* `SweepEvent`, `Sweep` — what is done to a record, and the state of the sweep.
* `sweepInactiveProcesses` — `remove_inactive_processes` in the stricter memory.
* `sweep_exact` — what it does, and that the code does the same.
-/

namespace Ctm
namespace ProcessList

/-- What the sweep does to a record, by its address. -/
inductive SweepEvent
  | unlinked (a : ℕ)
  /-- The callback is called with the record. -/
  | called (a : ℕ) (p : Process)
  | destroyed (a : ℕ)
deriving DecidableEq, Repr

/-- The call of the callback, if it is one. -/
def SweepEvent.event : SweepEvent → Option Event
  | .called _ p => some (.removed p)
  | _ => none

/-- The state of the sweep: the memory, and what was done so far. -/
structure Sweep where
  memory : Memory
  trace : List SweepEvent

/-- The state of the code that began with `log`. -/
def Sweep.refresh (log : List Event) (s : Sweep) : Refresh :=
  ⟨s.memory, log ++ s.trace.filterMap SweepEvent.event⟩

/-- The memory with the node at `a` no longer readable. -/
def Memory.hide (m : Memory) (a : ℕ) : Memory :=
  { m with heap := { m.heap with nodes := Function.update m.heap.nodes a none } }

/-- `removeBody` in the stricter memory. -/
def sweepBody (onProcessRemoved : Bool) (s : Sweep) (curr : ℕ) : Option Sweep := do
  let process ← s.memory.records curr
  if !process.isActive then do
    let heap ← s.memory.heap.listDeleteNode curr
    let memory := { s.memory with heap := heap }.hide curr
    let trace := s.trace ++ [.unlinked curr]
    -- The callback reads the record, which is still there.
    let process ← memory.records curr
    let trace := if onProcessRemoved then trace ++ [.called curr process] else trace
    let memory ← memory.free curr
    some ⟨memory, trace ++ [.destroyed curr]⟩
  else some s

/-- `remove_inactive_processes` in the stricter memory. -/
def sweepInactiveProcesses (s : Sweep) (processNode : Option ℕ) (onProcessRemoved : Bool)
    (fuel : ℕ) : Option (ProcessResult × Sweep) :=
  match processNode with
  | none => some (.errInvalidArg, s)
  | some head => do
      let s ← Heap.listForeachSafe (fun s : Sweep => s.memory.heap) head
        (sweepBody onProcessRemoved) fuel s
      some (.successRead, s)

/-- What is done to a record that is removed. -/
def removal (onProcessRemoved : Bool) (q : ℕ × Process) : List SweepEvent :=
  .unlinked q.1 :: if onProcessRemoved then [.called q.1 q.2, .destroyed q.1] else [.destroyed q.1]

variable {m m' : Memory} {list fuel a : ℕ} {ps l₁ l₂ : List (ℕ × Process)} {p : Process}
  {callback : Bool} {s s' : Sweep}

/-! ## The code does what the sweep does -/

/-- A destroyed record's node cannot be read, whether or not it could before. -/
theorem Memory.free_hide : (m.hide a).free a = m.free a := by
  simp [Memory.free, Memory.hide, Function.update_idem]

/-- The code does at one record what the sweep does. -/
theorem removeBody_of_sweepBody (log : List Event) (h : sweepBody callback s a = some s') :
    removeBody callback (s.refresh log) a = some (s'.refresh log) := by
  obtain ⟨p, hp, h⟩ := Option.bind_eq_some_iff.mp h
  cases hactive : p.isActive with
  | true =>
      rw [hactive] at h
      obtain rfl := Option.some.inj h
      simp [removeBody, Sweep.refresh, hp, hactive]
  | false =>
      rw [hactive] at h
      obtain ⟨heap, hheap, h⟩ := Option.bind_eq_some_iff.mp h
      obtain ⟨p', hp', h⟩ := Option.bind_eq_some_iff.mp h
      obtain ⟨m', hfree, h⟩ := Option.bind_eq_some_iff.mp h
      obtain rfl : p = p' := Option.some.inj (hp.symm.trans hp')
      obtain rfl := Option.some.inj h
      have hfree' : Memory.free ⟨heap, s.memory.records, s.memory.used⟩ a = some m' := by
        rw [← Memory.free_hide]
        exact hfree
      cases callback with
      | true =>
          simp [removeBody, Sweep.refresh, Refresh.notify, List.filterMap_cons, SweepEvent.event, hp,
            hactive, hheap, hfree']
      | false =>
          simp [removeBody, Sweep.refresh, Refresh.notify, List.filterMap_cons, SweepEvent.event, hp,
            hactive, hheap, hfree']

/-- The code ends as the sweep does. -/
theorem removeInactiveProcesses_of_sweep {r : ProcessResult} (log : List Event)
    (h : sweepInactiveProcesses s (some list) callback fuel = some (r, s')) :
    removeInactiveProcesses (s.refresh log) (some list) callback fuel =
      some (r, s'.refresh log) := by
  obtain ⟨s₁, hloop, h⟩ := Option.bind_eq_some_iff.mp h
  obtain ⟨rfl, rfl⟩ := Prod.mk.inj (Option.some.inj h)
  have hview : Heap.listForeachSafe (fun s : Refresh => s.memory.heap) list
      (removeBody callback) fuel (s.refresh log) = some (s₁.refresh log) :=
    Heap.listForeachSafe_view (Sweep.refresh log) (fun _ => rfl)
      (fun _ _ _ => removeBody_of_sweepBody log) hloop
  simp only [removeInactiveProcesses, hview, Option.bind_eq_bind, Option.bind_some]

/-- The callbacks of some removals. -/
theorem filterMap_removals (qs : List (ℕ × Process)) :
    (qs.flatMap (removal callback)).filterMap SweepEvent.event =
      if callback then qs.map (fun q => .removed q.2) else [] := by
  cases callback with
  | true =>
      induction qs with
      | nil => rfl
      | cons q qs ih => simpa [removal, List.filterMap_cons, SweepEvent.event] using ih
  | false =>
      induction qs with
      | nil => rfl
      | cons q qs ih => simpa [removal, List.filterMap_cons, SweepEvent.event] using ih

/-! ## What the sweep does -/

/-- The head keeps its counter cell when a node of the list goes. -/
theorem Holds.countOf_listDeleteNode (H : Holds m list (l₁ ++ (a, p) :: l₂)) {h' : Heap ℕ}
    (hdelete : m.heap.listDeleteNode a = some h') : h'.countOf list = m.heap.countOf list := by
  obtain ⟨cell, hlist⟩ := H.isList
  rw [List.map_append, List.map_cons] at hlist
  obtain ⟨h'', hdelete', hlist', -⟩ := Heap.listDeleteNode_spec hlist
  obtain rfl := Option.some.inj (hdelete.symm.trans hdelete')
  rw [hlist.points list List.mem_cons_self, hlist'.points list List.mem_cons_self]

/-- The sweep at one record. -/
theorem sweepBody_spec (H : Holds s.memory list (l₁ ++ (a, p) :: l₂)) (callback : Bool) :
    ∃ m', sweepBody callback s a = some ⟨m', s.trace ++
        ([(a, p)].filter (fun q => !q.2.isActive)).flatMap (removal callback)⟩ ∧
      Holds m' list (l₁ ++ [(a, p)].filter (fun q => q.2.isActive) ++ l₂) ∧
      m'.heap.countOf list = s.memory.heap.countOf list := by
  have hrec : s.memory.records a = some p := H.record (a, p) (by simp)
  cases hactive : p.isActive with
  | true =>
      refine ⟨s.memory, ?_, by simpa [hactive] using H, rfl⟩
      simp [sweepBody, hrec, hactive]
  | false =>
      obtain ⟨h', hdelete, D⟩ := H.listDeleteNode
      obtain ⟨m', hfree, H'⟩ := D.free
      have hne : list ≠ a := by
        rintro rfl
        exact D.notMem List.mem_cons_self
      have hcell : m'.heap.countOf list = h'.countOf list := by
        rw [Memory.free, if_pos D.used] at hfree
        obtain rfl := Option.some.inj hfree
        simp [Heap.countOf, Function.update_of_ne hne]
      have hrec' : (Memory.hide { s.memory with heap := h' } a).records a = some p := hrec
      have hfree' : (Memory.hide { s.memory with heap := h' } a).free a = some m' := by
        rw [Memory.free_hide]
        exact hfree
      refine ⟨m', ?_, by simpa [hactive] using H', hcell.trans (H.countOf_listDeleteNode hdelete)⟩
      cases callback with
      | true => simp [sweepBody, hrec, hactive, hdelete, hrec', hfree', removal]
      | false => simp [sweepBody, hrec, hactive, hdelete, hrec', hfree', removal]

/-- The sweep that began in `s₀` is past the records `qs`. -/
structure Sweeping (s₀ : Sweep) (list : ℕ) (callback : Bool) (qs rs : List (ℕ × Process))
    (s : Sweep) : Prop where
  holds : Holds s.memory list (qs.filter (fun q => q.2.isActive) ++ rs)
  cell : s.memory.heap.countOf list = s₀.memory.heap.countOf list
  trace : s.trace =
    s₀.trace ++ (qs.filter fun q => !q.2.isActive).flatMap (removal callback)

/-- The whole sweep. -/
theorem sweepInactiveProcesses_spec (H : Holds s.memory list ps) (hfuel : ps.length < fuel)
    (callback : Bool) :
    ∃ s', sweepInactiveProcesses s (some list) callback fuel = some (.successRead, s') ∧
      Sweeping s list callback ps [] s' := by
  have hlist : ∀ qs rs s', Sweeping s list callback qs rs s' →
      ∃ cell kept, s'.memory.heap.IsList list cell (kept ++ rs.map Prod.fst) := by
    intro qs rs s' S
    obtain ⟨cell, hlist⟩ := S.holds.isList
    exact ⟨cell, _, by rwa [List.map_append] at hlist⟩
  have hbody : ∀ qs q rs s', Sweeping s list callback qs (q :: rs) s' →
      ∃ s'', sweepBody callback s' q.1 = some s'' ∧
        Sweeping s list callback (qs ++ [q]) rs s'' := by
    intro qs q rs s' S
    obtain ⟨m', hbody, H', hcell⟩ := sweepBody_spec S.holds callback
    refine ⟨_, hbody, ?_, hcell.trans S.cell, ?_⟩
    · rwa [List.filter_append]
    · rw [S.trace, List.filter_append, List.flatMap_append, List.append_assoc]
  obtain ⟨s', hloop, S⟩ := Heap.listForeachSafe_spec (Sweeping s list callback) hlist hbody hfuel
    H.isList ⟨H, rfl, (List.append_nil _).symm⟩
  refine ⟨s', ?_, S⟩
  simp only [sweepInactiveProcesses, hloop, Option.bind_eq_bind, Option.bind_some]

/-- **The sweep is safe and exact.**  On every list of records it returns, though no unlinked
or destroyed node can be read; the active records stay, in their order; the counter goes down
by the number removed; and each inactive record is unlinked, passed to the callback and
destroyed, once each and in this order, the records in the order of the list.  The code ends
with the same memory, and calls the callback for the same records. -/
theorem sweep_exact (H : Holds m list ps) (hfuel : ps.length < fuel) (callback : Bool) :
    ∃ m', sweepInactiveProcesses ⟨m, []⟩ (some list) callback fuel = some (.successRead,
        ⟨m', (ps.filter fun q => !q.2.isActive).flatMap (removal callback)⟩) ∧
      Holds m' list (ps.filter fun q => q.2.isActive) ∧
      (∃ cell k k', m.heap.countOf list = some cell ∧ m'.heap.countOf list = some cell ∧
        m.heap.counts cell = some k ∧ m'.heap.counts cell = some k' ∧
        (k' + (ps.filter fun q => !q.2.isActive).length) % sizeMod = k) ∧
      ∀ log, removeInactiveProcesses ⟨m, log⟩ (some list) callback fuel = some (.successRead,
        ⟨m', log ++ if callback then
          (ps.filter fun q => !q.2.isActive).map (fun q => .removed q.2) else []⟩) := by
  obtain ⟨⟨m', trace⟩, hsweep, S⟩ := sweepInactiveProcesses_spec (s := ⟨m, []⟩) H hfuel callback
  obtain rfl : trace = _ := S.trace
  have H' : Holds m' list (ps.filter fun q => q.2.isActive) := by simpa using S.holds
  refine ⟨m', hsweep, H', ?_, ?_⟩
  · obtain ⟨cell, hlist⟩ := H.isList
    obtain ⟨cell', hlist'⟩ := H'.isList
    have hcell := hlist.points list List.mem_cons_self
    have hcell' := hlist'.points list List.mem_cons_self
    obtain rfl := Option.some.inj (hcell'.symm.trans (S.cell.trans hcell))
    refine ⟨cell', _, _, hcell, hcell', hlist.counted, hlist'.counted, ?_⟩
    rw [Nat.mod_add_mod, List.length_map, List.length_map, ← List.length_eq_length_filter_add]
  · intro log
    have hcode := removeInactiveProcesses_of_sweep log hsweep
    simp only [Sweep.refresh, List.nil_append, filterMap_removals] at hcode
    simpa using hcode

/-- The records at both ends of a list of three go. -/
theorem sweep_exact_ends : ∃ m m' : Memory,
    Stores m 0 [⟨1, .zero, false⟩, ⟨2, .zero, true⟩, ⟨3, .zero, false⟩] ∧
      Stores m' 0 [⟨2, .zero, true⟩] ∧
      removeInactiveProcesses ⟨m, []⟩ (some 0) true 4 = some (.successRead,
        ⟨m', [.removed ⟨1, .zero, false⟩, .removed ⟨3, .zero, false⟩]⟩) := by
  obtain ⟨m, ps, H, hps⟩ :=
    exists_stores [⟨1, .zero, false⟩, ⟨2, .zero, true⟩, ⟨3, .zero, false⟩]
  have hlen : ps.length < 4 := by
    rw [← List.length_map (f := Prod.snd), hps]
    decide
  obtain ⟨m', -, H', -, hcode⟩ := sweep_exact H hlen true
  have hfilter : ∀ f : Process → Bool,
      (ps.filter fun q => f q.2).map Prod.snd = (ps.map Prod.snd).filter f :=
    fun _ => List.filter_map.symm
  refine ⟨m, m', ⟨ps, H, hps⟩, ⟨_, H', ?_⟩, ?_⟩
  · rw [hfilter, hps]
    rfl
  · have hremoved : (ps.filter fun q => !q.2.isActive).map (fun q => Event.removed q.2) =
        ((ps.map Prod.snd).filter fun p => !p.isActive).map Event.removed := by
      rw [← hfilter fun p => !p.isActive, List.map_map]
      rfl
    rw [hcode, hremoved, hps]
    rfl

end ProcessList
end Ctm
