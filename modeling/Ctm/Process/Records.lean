import Mathlib.Data.List.MinMax
import Ctm.LinkList.Foreach
import Ctm.Process.Table

/-!
# Records in memory

The memory holds a table when the list runs through the nodes of its records.  Each
function of the process list is described once, by what it does to the records it holds.

## Main definitions

* `Holds`, `Stores` — the memory holds records at given addresses, or a table.
* `Detached` — a record that is not in the list.
* `markProcessesInactive_spec`, `findProcessByPid_spec`, `updateProcess_spec`,
  `addProcess_spec`, `removeInactiveProcesses_spec` — the functions.
-/

namespace Ctm
namespace ProcessList

/-- The callback of an event is not NULL. -/
def Callbacks.wants (callbacks : Callbacks) : Event → Bool
  | .added _ => callbacks.added
  | .updated _ => callbacks.updated
  | .removed _ => callbacks.removed

variable {m m' : Memory} {list fuel : ℕ} {ps l₁ l₂ : List (ℕ × Process)} {a : ℕ} {p : Process}

/-- The list with head `list` runs through the records `ps`, given with their addresses. -/
structure Holds (m : Memory) (list : ℕ) (ps : List (ℕ × Process)) : Prop where
  isList : ∃ cell, m.heap.IsList list cell (ps.map Prod.fst)
  record : ∀ q ∈ ps, m.records q.1 = some q.2
  used : ∀ b ∈ list :: ps.map Prod.fst, b ∈ m.used

theorem Holds.nodup (H : Holds m list ps) : (list :: ps.map Prod.fst).Nodup := by
  obtain ⟨cell, hlist⟩ := H.isList
  exact hlist.ring.nodup

/-- The record at an address of the list is at no other place of the list. -/
theorem Holds.ne_of_mem (H : Holds m list (l₁ ++ (a, p) :: l₂)) {q : ℕ × Process}
    (hq : q ∈ l₁ ++ l₂) : q.1 ≠ a := by
  intro hqa
  have hnd := H.nodup
  simp only [List.map_append, List.map_cons] at hnd
  rw [List.nodup_cons, List.nodup_middle, List.nodup_cons, ← List.map_append, ← hqa] at hnd
  exact hnd.2.1 (List.mem_map_of_mem hq)

/-- Memory away from the list can change. -/
theorem Holds.frame (H : Holds m list ps)
    (hnodes : ∀ b ∈ list :: ps.map Prod.fst, m'.heap.nodes b = m.heap.nodes b)
    (hcounts : m'.heap.counts = m.heap.counts)
    (hrecords : ∀ b ∈ ps.map Prod.fst, m'.records b = m.records b)
    (hused : ∀ b ∈ list :: ps.map Prod.fst, b ∈ m'.used) : Holds m' list ps where
  isList := by
    obtain ⟨cell, hlist⟩ := H.isList
    exact ⟨cell, hlist.frame hnodes hcounts⟩
  record q hq := by
    rw [hrecords q.1 (List.mem_map_of_mem hq)]
    exact H.record q hq
  used := hused

/-- An assignment to the record at one address. -/
theorem Holds.modify (H : Holds m list (l₁ ++ (a, p) :: l₂)) (f : Process → Process) :
    ∃ m', m.modify a f = some m' ∧ Holds m' list (l₁ ++ (a, f p) :: l₂) := by
  have hrec : m.records a = some p := H.record (a, p) (by simp)
  refine ⟨{ m with records := Function.update m.records a (some (f p)) }, ?_, ?_, ?_, ?_⟩
  · rw [Memory.modify, hrec]
    rfl
  · simpa using H.isList
  · intro q hq
    change Function.update m.records a (some (f p)) q.1 = some q.2
    rcases List.mem_append.mp hq with hq | hq
    · rw [Function.update_of_ne (H.ne_of_mem (by simp [hq]))]
      exact H.record q (by simp [hq])
    · rcases List.mem_cons.mp hq with rfl | hq
      · rw [Function.update_self]
      · rw [Function.update_of_ne (H.ne_of_mem (by simp [hq]))]
        exact H.record q (by simp [hq])
  · simpa using H.used

/-! ## A record that is not in the list -/

/-- A block of its own, next to the list. -/
structure Detached (m : Memory) (list : ℕ) (ps : List (ℕ × Process)) (a : ℕ) (p : Process) :
    Prop where
  holds : Holds m list ps
  notMem : a ∉ list :: ps.map Prod.fst
  readable : m.heap.Readable a
  record : m.records a = some p
  used : a ∈ m.used

theorem place_notMem (m : Memory) (want : ℕ) : m.place want ∉ m.used := by
  rw [Memory.place]
  by_cases hwant : want ∈ m.used
  · rw [if_pos hwant]
    intro hmem
    have := List.le_max_of_le' 0 hmem le_rfl
    omega
  · rwa [if_neg hwant]

/-- A record from `calloc`. -/
theorem Holds.calloc (H : Holds m list ps) (want : ℕ) :
    ∃ a m', m.calloc true want = some (a, m') ∧ Detached m' list ps a .zero := by
  have hfree := place_notMem m want
  have hne : ∀ b ∈ list :: ps.map Prod.fst, b ≠ m.place want := by
    rintro b hb rfl
    exact hfree (H.used _ hb)
  refine ⟨_, _, rfl, ⟨?_, ?_, ?_, ?_, ?_⟩⟩
  · refine H.frame ?_ rfl ?_ ?_
    · intro b hb
      exact Function.update_of_ne (hne b hb) _ _
    · intro b hb
      exact Function.update_of_ne (hne b (List.mem_cons_of_mem _ hb)) _ _
    · intro b hb
      exact List.mem_cons_of_mem _ (H.used b hb)
  · intro hmem
    exact hne _ hmem rfl
  · simp [Heap.Readable, Heap.setNode]
  · simp
  · simp

namespace Detached

/-- An assignment to the record. -/
theorem modify (D : Detached m list ps a p) (f : Process → Process) :
    ∃ m', m.modify a f = some m' ∧ Detached m' list ps a (f p) := by
  have hne : ∀ b ∈ ps.map Prod.fst, b ≠ a := by
    rintro b hb rfl
    exact D.notMem (List.mem_cons_of_mem _ hb)
  refine ⟨{ m with records := Function.update m.records a (some (f p)) }, ?_, ?_⟩
  · rw [Memory.modify, D.record]
    rfl
  · refine ⟨D.holds.frame (fun _ _ => rfl) rfl ?_ D.holds.used, D.notMem, D.readable, ?_, D.used⟩
    · intro b hb
      exact Function.update_of_ne (hne b hb) _ _
    · exact Function.update_self _ _ _

/-- `free` of the record. -/
theorem free (D : Detached m list ps a p) : ∃ m', m.free a = some m' ∧ Holds m' list ps := by
  have hne : ∀ b ∈ list :: ps.map Prod.fst, b ≠ a := by
    rintro b hb rfl
    exact D.notMem hb
  refine ⟨_, if_pos D.used, D.holds.frame ?_ rfl ?_ ?_⟩
  · intro b hb
    exact Function.update_of_ne (hne b hb) _ _
  · intro b hb
    exact Function.update_of_ne (hne b (List.mem_cons_of_mem _ hb)) _ _
  · intro b hb
    exact (List.mem_erase_of_ne (hne b hb)).mpr (D.holds.used b hb)

/-- `list_add_node` of the record. -/
theorem listAddNode (D : Detached m list ps a p) :
    ∃ h', m.heap.listAddNode list a = some h' ∧ Holds { m with heap := h' } list ((a, p) :: ps) := by
  obtain ⟨cell, hlist⟩ := D.holds.isList
  obtain ⟨h', hadd, hlist', -⟩ := Heap.listAddNode_spec hlist D.notMem D.readable
  refine ⟨h', hadd, ⟨⟨cell, hlist'⟩, ?_, ?_⟩⟩
  · intro q hq
    rcases List.mem_cons.mp hq with rfl | hq
    · exact D.record
    · exact D.holds.record q hq
  · intro b hb
    simp only [List.map_cons, List.mem_cons] at hb
    rcases hb with rfl | rfl | hb
    · exact D.holds.used _ (by simp)
    · exact D.used
    · exact D.holds.used b (List.mem_cons_of_mem _ hb)

end Detached

/-- `list_delete_node` of a record of the list. -/
theorem Holds.listDeleteNode (H : Holds m list (l₁ ++ (a, p) :: l₂)) :
    ∃ h', m.heap.listDeleteNode a = some h' ∧
      Detached { m with heap := h' } list (l₁ ++ l₂) a p := by
  obtain ⟨cell, hlist⟩ := H.isList
  rw [List.map_append, List.map_cons] at hlist
  obtain ⟨h', hdelete, hlist', hread⟩ := Heap.listDeleteNode_spec hlist
  refine ⟨h', hdelete, ⟨⟨⟨cell, by rwa [List.map_append]⟩, ?_, ?_⟩, ?_, ?_, ?_, ?_⟩⟩
  · intro q hq
    exact H.record q (by simp only [List.mem_append, List.mem_cons] at hq ⊢; tauto)
  · intro b hb
    exact H.used b (by
      simp only [List.map_append, List.map_cons, List.mem_cons, List.mem_append] at hb ⊢; tauto)
  · intro hmem
    rcases List.mem_cons.mp hmem with hhead | hmem
    · exact (List.nodup_cons.mp H.nodup).1 (by simp [← hhead])
    · obtain ⟨q, hq, hqa⟩ := List.mem_map.mp hmem
      exact H.ne_of_mem hq hqa
  · exact (hread a).mpr (hlist.readable (by simp))
  · exact H.record (a, p) (by simp)
  · exact H.used a (by simp)

/-! ## The functions -/

/-- Marking one record. -/
theorem markBody_spec (H : Holds m list (l₁ ++ (a, p) :: l₂)) :
    ∃ m', markBody m a = some (.inr m') ∧ Holds m' list (l₁ ++ (a, p.deactivate) :: l₂) := by
  obtain ⟨m', hmodify, H'⟩ := H.modify fun p => { p with isActive := false }
  refine ⟨m', ?_, H'⟩
  rw [markBody, hmodify]
  rfl

/-- The records `qs` of the list are marked. -/
def Marked (list : ℕ) (ps qs : List (ℕ × Process)) (m : Memory) : Prop :=
  ∃ rs, ps = qs ++ rs ∧ Holds m list (qs.map (fun q => (q.1, q.2.deactivate)) ++ rs)

/-- `mark_processes_inactive` -/
theorem markProcessesInactive_spec (H : Holds m list ps) (hfuel : ps.length < fuel) :
    ∃ m', markProcessesInactive m (some list) fuel = some (.successRead, m') ∧
      Holds m' list (ps.map fun q => (q.1, q.2.deactivate)) := by
  have hlist : ∀ qs m, Marked list ps qs m →
      ∃ cell, m.heap.IsList list cell (ps.map Prod.fst) := by
    rintro qs m ⟨rs, hps, H₁⟩
    simpa [hps, Function.comp_def] using H₁.isList
  have hbody : ∀ qs q rs m, qs ++ q :: rs = ps → Marked list ps qs m →
      (∃ r, markBody m q.1 = some (.inl r) ∧ False) ∨
      ∃ m', markBody m q.1 = some (.inr m') ∧ Marked list ps (qs ++ [q]) m' := by
    rintro qs ⟨a, p⟩ rs m hps ⟨rs', hps', H₁⟩
    obtain rfl : rs' = (a, p) :: rs := List.append_cancel_left (hps'.symm.trans hps.symm)
    obtain ⟨m', hmark, H'⟩ := markBody_spec H₁
    exact .inr ⟨m', hmark, rs, by simp [← hps], by simpa using H'⟩
  rcases Heap.listForeach_spec (Marked list ps) (fun _ => False) hlist hbody hfuel ⟨ps, rfl, H⟩
    with ⟨r, -, hfalse⟩ | ⟨m', hloop, rs, hps, H'⟩
  · exact hfalse.elim
  · obtain rfl : rs = [] := by simpa using hps
    refine ⟨m', ?_, by simpa using H'⟩
    simp only [markProcessesInactive, hloop, Option.bind_eq_bind, Option.bind_some]

/-- `find_process_by_pid` finds the first record of the pid. -/
theorem findProcessByPid_spec (H : Holds m list ps) {pid : Pid} (hpid : pid ≠ 0)
    (hfuel : ps.length < fuel) :
    (∃ l₁ a p l₂, ps = l₁ ++ (a, p) :: l₂ ∧ p.pid = pid ∧ (∀ q ∈ l₁, q.2.pid ≠ pid) ∧
      findProcessByPid m list pid fuel = some (.successRead, some a)) ∨
    ((∀ q ∈ ps, q.2.pid ≠ pid) ∧
      findProcessByPid m list pid fuel = some (.errNotFound, none)) := by
  have hlist : ∀ (qs : List (ℕ × Process)) m', m' = m ∧ (∀ q ∈ qs, q.2.pid ≠ pid) →
      ∃ cell, m'.heap.IsList list cell (ps.map Prod.fst) := by
    rintro qs _ ⟨rfl, -⟩
    exact H.isList
  have hbody : ∀ qs q rs m', qs ++ q :: rs = ps → m' = m ∧ (∀ q ∈ qs, q.2.pid ≠ pid) →
      (∃ a, findBody pid m' q.1 = some (.inl a) ∧ ∃ l₁ p l₂, ps = l₁ ++ (a, p) :: l₂ ∧
        p.pid = pid ∧ ∀ q ∈ l₁, q.2.pid ≠ pid) ∨
      ∃ m'', findBody pid m' q.1 = some (.inr m'') ∧
        m'' = m ∧ ∀ q' ∈ qs ++ [q], q'.2.pid ≠ pid := by
    rintro qs ⟨a, p⟩ rs m' hps ⟨rfl, hqs⟩
    have hrec : m'.records a = some p := H.record (a, p) (by simp [← hps])
    by_cases hp : p.pid = pid
    · refine .inl ⟨a, ?_, qs, p, rs, hps.symm, hp, hqs⟩
      simp only [findBody, hrec, Option.bind_eq_bind, Option.bind_some, if_pos hp]
    · refine .inr ⟨m', ?_, rfl, ?_⟩
      · simp only [findBody, hrec, Option.bind_eq_bind, Option.bind_some, if_neg hp]
      · intro q hq
        rcases List.mem_append.mp hq with hq | hq
        · exact hqs q hq
        · rw [List.mem_singleton.mp hq]
          exact hp
  rcases Heap.listForeach_spec _ _ hlist hbody hfuel ⟨rfl, by simp⟩ with
    ⟨a, hloop, l₁, p, l₂, hps, hp, hl₁⟩ | ⟨m', hloop, -, hps⟩
  · refine .inl ⟨l₁, a, p, l₂, hps, hp, hl₁, ?_⟩
    simp only [findProcessByPid, if_neg hpid, hloop, Option.bind_eq_bind, Option.bind_some]
  · refine .inr ⟨hps, ?_⟩
    simp only [findProcessByPid, if_neg hpid, hloop, Option.bind_eq_bind, Option.bind_some]

@[simp] theorem notify_eq (callbacks : Callbacks) (s : Refresh) (e : Event) :
    s.notify (callbacks.wants e) e = ⟨s.memory, s.log ++ [e].filter callbacks.wants⟩ := by
  cases hwants : callbacks.wants e with
  | true => simp [Refresh.notify, hwants]
  | false => simp [Refresh.notify, hwants]

/-- The branch for a process of the list. -/
theorem updateProcess_spec {s : Refresh} (H : Holds s.memory list (l₁ ++ (a, p) :: l₂))
    (callbacks : Callbacks) (read : ReadOutcome) :
    ∃ m', updateProcess callbacks s a read = some ⟨m', s.log ++
        (if read.succeeded then [.updated (p.reread read)] else []).filter callbacks.wants⟩ ∧
      Holds m' list (l₁ ++ (a, p.reread read) :: l₂) := by
  obtain ⟨m₁, hm₁, H₁⟩ := H.modify fun p => { p with data := read.apply p.data }
  obtain ⟨m₂, hm₂, H₂⟩ := H₁.modify fun p =>
    { p with isActive := decide (read.result = .successRead) }
  cases read with
  | success data =>
      refine ⟨m₂, ?_, H₂⟩
      have hrec := H₂.record (a, _) (List.mem_append_right _ List.mem_cons_self)
      simp only [updateProcess, hm₁, hm₂, Option.bind_eq_bind, Option.bind_some, hrec]
      exact congrArg some (notify_eq callbacks ⟨m₂, s.log⟩ (.updated _))
  | failure result errno partly =>
      obtain ⟨m₃, hm₃, H₃⟩ := H₂.modify fun p => { p with isActive := false }
      refine ⟨m₃, ?_, H₃⟩
      simp only [updateProcess, hm₁, hm₂, hm₃, Option.bind_eq_bind, Option.bind_some]
      have hresult : (ReadOutcome.failure result errno partly).result ≠ .successRead := result.2
      rw [if_neg hresult]
      simp [ReadOutcome.succeeded]

/-- The memory holds the table. -/
def Stores (m : Memory) (list : ℕ) (t : Table) : Prop :=
  ∃ ps, Holds m list ps ∧ ps.map Prod.snd = t

/-- A list after `list_init` holds no record. -/
theorem stores_listInit {h : Heap ℕ} {malloc : Option ℕ}
    (hinit : m.heap.listInit list malloc = some h) (hused : list ∈ m.used) :
    Stores { m with heap := h } list [] := by
  obtain ⟨cell, hlist⟩ := Heap.listInit_isList hinit
  exact ⟨[], ⟨⟨cell, hlist⟩, by simp, by simpa using hused⟩, rfl⟩

/-- Every table has a memory that holds it. -/
theorem exists_stores (t : Table) : ∃ m, Stores m 0 t := by
  induction t with
  | nil =>
      let h₀ : Heap ℕ := ⟨fun _ => some ⟨none, none, none⟩, fun _ => none⟩
      have hread : h₀.Readable 0 := Option.some_ne_none _
      obtain ⟨h, hinit, -, -⟩ := Heap.listInit_spec hread 1
      exact ⟨_, stores_listInit (m := ⟨h₀, fun _ => none, [0]⟩) hinit List.mem_cons_self⟩
  | cons p t ih =>
      obtain ⟨m, ps, H, rfl⟩ := ih
      obtain ⟨a, m₁, -, D⟩ := H.calloc 1
      obtain ⟨m₂, -, D⟩ := D.modify fun _ => p
      obtain ⟨h, -, H'⟩ := D.listAddNode
      exact ⟨_, _, H', rfl⟩

/-- The code ends with the result, the callbacks and the table of `r`. -/
def Yields {R : Type} (list : ℕ) (callbacks : Callbacks) (log : List Event)
    (x : Option (R × Refresh)) (r : R × List Event × Table) : Prop :=
  ∃ m', x = some (r.1, ⟨m', log ++ r.2.1.filter callbacks.wants⟩) ∧ Stores m' list r.2.2

/-- The branch for a process that is not in the list puts what it adds in front. -/
theorem addProcess_holds {s : Refresh} (H : Holds s.memory list ps) (callbacks : Callbacks)
    (pid : Pid) (e : Entry) :
    ∃ m' new, addProcess list callbacks s pid e =
        some ((Table.add (ps.map Prod.snd) pid e).1, ⟨m', s.log ++
          (Table.add (ps.map Prod.snd) pid e).2.1.filter callbacks.wants⟩) ∧
      Holds m' list (new ++ ps) ∧
      (Table.add (ps.map Prod.snd) pid e).2.2 = (new ++ ps).map Prod.snd := by
  cases hok : e.callocOk with
  | false =>
      refine ⟨s.memory, [], ?_, H, ?_⟩
      · simp [addProcess, Memory.calloc, Table.add, hok]
      · simp [Table.add, hok]
  | true =>
      obtain ⟨a, m₁, hm₁, D⟩ := H.calloc e.want
      obtain ⟨m₂, hm₂, D₂⟩ := D.modify fun p => { p with data := e.read.apply p.data }
      cases hread : e.read with
      | failure result errno partly =>
          obtain ⟨m₃, hm₃, H₃⟩ := D₂.free
          refine ⟨m₃, [], ?_, H₃, by simp [Table.add, hok, hread]⟩
          rw [hread] at hm₂
          simp only [addProcess, hok, hm₁, hread, Option.bind_eq_bind, hm₂, hm₃, Option.bind_some]
          by_cases herrno : errno = .ENOENT
          · simp [Table.add, hok, hread, herrno]
          · simp [Table.add, hok, hread, herrno]
      | success data =>
          obtain ⟨m₃, hm₃, D₃⟩ := D₂.modify fun p => { p with pid := pid, isActive := true }
          obtain ⟨h', hadd, H'⟩ := D₃.listAddNode
          rw [hread] at hm₂ D₃ H'
          have hrec : m₃.records a = some ⟨pid, data, true⟩ := D₃.record
          have hresult : Table.add (ps.map Prod.snd) pid e =
              (none, [.added ⟨pid, data, true⟩], ⟨pid, data, true⟩ :: ps.map Prod.snd) := by
            simp [Table.add, hok, hread]
          rw [hresult]
          refine ⟨{ m₃ with heap := h' }, [(a, _)], ?_, H', rfl⟩
          simp only [addProcess, hok, hm₁, hread, Option.bind_eq_bind, hm₂, hm₃, hadd, hrec,
            Option.bind_some]
          exact congrArg (fun s => some (none, s)) (notify_eq callbacks _ (.added ⟨pid, data, true⟩))

/-- The branch for a process that is not in the list. -/
theorem addProcess_spec {s : Refresh} {t : Table} (H : Stores s.memory list t)
    (callbacks : Callbacks) (pid : Pid) (e : Entry) :
    Yields list callbacks s.log (addProcess list callbacks s pid e) (t.add pid e) := by
  obtain ⟨ps, H, rfl⟩ := H
  obtain ⟨m', new, hadd, H', htable⟩ := addProcess_holds H callbacks pid e
  exact ⟨m', hadd, _, H', htable.symm⟩

/-- The sweep at one record. -/
theorem removeBody_spec {s : Refresh} (H : Holds s.memory list (l₁ ++ (a, p) :: l₂))
    (callbacks : Callbacks) :
    ∃ m', removeBody callbacks.removed s a =
        some ⟨m', s.log ++ (Table.swept [p]).filter callbacks.wants⟩ ∧
      Holds m' list (l₁ ++ [(a, p)].filter (fun q => q.2.isActive) ++ l₂) := by
  have hrec : s.memory.records a = some p := H.record (a, p) (by simp)
  cases hactive : p.isActive with
  | true =>
      refine ⟨s.memory, ?_, by simpa [hactive] using H⟩
      simp [removeBody, Table.swept, Table.inactive, hrec, hactive]
  | false =>
      obtain ⟨h', hdelete, D⟩ := H.listDeleteNode
      obtain ⟨m', hfree, H'⟩ := D.free
      have hnotify := notify_eq callbacks ⟨{ s.memory with heap := h' }, s.log⟩ (.removed p)
      rw [Callbacks.wants] at hnotify
      refine ⟨m', ?_, by simpa [hactive] using H'⟩
      simp [removeBody, Table.swept, Table.inactive, hrec, hactive, hdelete, hnotify, hfree]

/-- The sweep that began in `s₀` is past the records `qs`. -/
def Swept (s₀ : Refresh) (list : ℕ) (callbacks : Callbacks) (qs rs : List (ℕ × Process))
    (s : Refresh) : Prop :=
  Holds s.memory list (qs.filter (fun q => q.2.isActive) ++ rs) ∧
    s.log = s₀.log ++ (Table.swept (qs.map Prod.snd)).filter callbacks.wants

/-- `remove_inactive_processes` -/
theorem removeInactiveProcesses_spec {s : Refresh} {t : Table} (H : Stores s.memory list t)
    (callbacks : Callbacks) (hfuel : t.length < fuel) :
    ∃ m', removeInactiveProcesses s (some list) callbacks.removed fuel =
        some (.successRead, ⟨m', s.log ++ t.swept.filter callbacks.wants⟩) ∧
      Stores m' list t.active := by
  obtain ⟨ps, H, rfl⟩ := H
  have hlist : ∀ qs rs s', Swept s list callbacks qs rs s' →
      ∃ cell kept, s'.memory.heap.IsList list cell (kept ++ rs.map Prod.fst) := by
    rintro qs rs s' ⟨H', -⟩
    obtain ⟨cell, hlist⟩ := H'.isList
    exact ⟨cell, _, by rwa [List.map_append] at hlist⟩
  have hbody : ∀ qs q rs s', Swept s list callbacks qs (q :: rs) s' →
      ∃ s'', removeBody callbacks.removed s' q.1 = some s'' ∧
        Swept s list callbacks (qs ++ [q]) rs s'' := by
    rintro qs ⟨a, p⟩ rs s' ⟨H', hlog⟩
    obtain ⟨m', hremove, H''⟩ := removeBody_spec H' callbacks
    refine ⟨_, hremove, ?_, ?_⟩
    · rwa [List.filter_append]
    · simp [hlog, Table.swept, Table.inactive, List.filter_append]
  obtain ⟨s', hloop, H', hlog⟩ := Heap.listForeachSafe_spec (Swept s list callbacks) hlist hbody
    (by simpa using hfuel) H.isList ⟨H, by simp [Table.swept, Table.inactive]⟩
  refine ⟨s'.memory, ?_, ps.filter fun q => q.2.isActive, by simpa using H', ?_⟩
  · simp only [removeInactiveProcesses, hloop, Option.bind_eq_bind, Option.bind_some, ← hlog]
  · rw [Table.active, List.filter_map]
    rfl

end ProcessList
end Ctm
