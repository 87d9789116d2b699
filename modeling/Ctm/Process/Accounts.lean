import Ctm.Lib.Transition
import Ctm.Process.Lookups
import Mathlib.Algebra.Order.Group.Multiset
import Mathlib.Tactic.Abel

/-!
# The blocks of the process list

Every record that `process_list_refresh` allocates is in the list or has been freed, and so
has every buffer of `ctm_getusername_by_uid`.  The names it returns are another matter:
`process_read` copies them and drops the pointer.  So next to the records of the list one
block is outstanding for each name given, and no other.

## Main definitions

* `Accounts` — the blocks in use are the caller's, those of the list, and `n` names.
* `updateProcess_accounts`, `addProcess_accounts`, `removeInactiveProcesses_accounts`,
  `processListRefresh_accounts` — the functions.
* `refresh_outstanding_iff` — the blocks outstanding after any run.
-/

namespace Ctm
namespace ProcessList

variable {m m' m₁ : Memory} {list fuel n : ℕ} {ps ps' l₁ l₂ : List (ℕ × Process)} {a : ℕ}
  {p : Process} {names : List ℕ}

/-! ## The ledger under the functions without lookups -/

theorem Memory.modify_used {f : Process → Process} (h : m.modify a f = some m') :
    m'.used = m.used := by
  obtain ⟨p, -, hp⟩ := Option.bind_eq_some_iff.mp h
  obtain rfl := Option.some.inj hp
  rfl

theorem Memory.free_used (h : m.free a = some m') : m'.used = m.used.erase a := by
  rw [Memory.free] at h
  split at h
  · obtain rfl := Option.some.inj h
    rfl
  · cases h

@[simp] theorem Refresh.notify_memory (s : Refresh) (callback : Bool) (e : Event) :
    (s.notify callback e).memory = s.memory := by
  cases callback <;> rfl

/-- Marking frees nothing. -/
theorem markProcessesInactive_used {r : ProcessResult}
    (h : markProcessesInactive m (some list) fuel = some (r, m')) : m'.used = m.used := by
  have hbody : ∀ (s : Memory) curr s', s.used = m.used → markBody s curr = some (.inr s') →
      s'.used = m.used := by
    intro s curr s' hs h
    obtain ⟨m₁, hm₁, h⟩ := Option.bind_eq_some_iff.mp h
    obtain rfl : m₁ = s' := by simpa using h
    exact (Memory.modify_used hm₁).trans hs
  obtain ⟨x, hloop, h⟩ := Option.bind_eq_some_iff.mp h
  cases x with
  | inl e => exact e.elim
  | inr m₁ =>
      obtain ⟨-, rfl⟩ := Prod.mk.inj (Option.some.inj h)
      exact Heap.listForeach_preserves (I := fun s => s.used = m.used) hbody rfl hloop

/-- The sweep frees the record it takes out. -/
theorem removeBody_used {s s' : Refresh} {callback : Bool} (hrec : s.memory.records a = some p)
    (h : removeBody callback s a = some s') :
    s'.memory.used = if p.isActive then s.memory.used else s.memory.used.erase a := by
  rw [removeBody, hrec, Option.bind_eq_bind, Option.bind_some] at h
  cases hactive : p.isActive with
  | true =>
      obtain rfl : s = s' := by simpa [hactive] using h
      rfl
  | false =>
      simp only [hactive, Bool.not_false, if_true] at h
      obtain ⟨heap, -, h⟩ := Option.bind_eq_some_iff.mp h
      obtain ⟨m₁, hfree, h⟩ := Option.bind_eq_some_iff.mp h
      obtain rfl := Option.some.inj h
      rw [Refresh.notify_memory] at hfree
      have hused := Memory.free_used hfree
      exact hused

/-! ## A call of `process_read` -/

/-- The list is kept where blocks are gained. -/
theorem Holds.gains (H : Holds m list ps) (G : m.Gains m₁ names) : Holds m₁ list ps := by
  refine H.frame ?_ G.counts ?_ ?_
  · exact fun b hb => G.nodes b (H.used b hb)
  · exact fun b hb => G.records b (H.used b (List.mem_cons_of_mem _ hb))
  · intro b hb
    rw [G.used]
    exact List.mem_append_right _ (H.used b hb)

theorem Detached.gains (D : Detached m list ps a p) (G : m.Gains m₁ names) :
    Detached m₁ list ps a p where
  holds := D.holds.gains G
  notMem := D.notMem
  readable := by
    rw [Heap.Readable, G.nodes a D.used]
    exact D.readable
  record := (G.records a D.used).trans D.record
  used := by
    rw [G.used]
    exact List.mem_append_right _ D.used

/-- A read of a record of the list. -/
theorem Holds.read (H : Holds m list (l₁ ++ (a, p) :: l₂)) (call : ReadCall) :
    ∃ m' names, m.read a call = some m' ∧ m'.used = names ++ m.used ∧
      names.length = call.username.toList.length ∧
      Holds m' list (l₁ ++ (a, { p with data := call.outcome.apply p.data }) :: l₂) := by
  have hmem : (a, p) ∈ l₁ ++ (a, p) :: l₂ := by simp
  obtain ⟨m₁, names, hgains, hlen, hread⟩ := Memory.read_spec (H.record _ hmem) call
  obtain ⟨m', hm', H'⟩ := (H.gains hgains).modify fun p =>
    { p with data := call.outcome.apply p.data }
  exact ⟨m', names, hread.trans hm', (Memory.modify_used hm').trans hgains.used, hlen, H'⟩

/-- A read of a record that is not in the list. -/
theorem Detached.read (D : Detached m list ps a p) (call : ReadCall) :
    ∃ m' names, m.read a call = some m' ∧ m'.used = names ++ m.used ∧
      names.length = call.username.toList.length ∧
      Detached m' list ps a { p with data := call.outcome.apply p.data } := by
  obtain ⟨m₁, names, hgains, hlen, hread⟩ := Memory.read_spec D.record call
  obtain ⟨m', hm', D'⟩ := (D.gains hgains).modify fun p =>
    { p with data := call.outcome.apply p.data }
  exact ⟨m', names, hread.trans hm', (Memory.modify_used hm').trans hgains.used, hlen, D'⟩

/-! ## The accounts -/

/-- The blocks in use are those of the caller, `base`, those of the records of the list, and `n`
names. -/
structure Accounts (m : Memory) (list : ℕ) (base : Multiset ℕ) (ps : List (ℕ × Process)) (n : ℕ) :
    Prop where
  holds : Holds m list ps
  ledger : ∃ lost : Multiset ℕ, lost.card = n ∧
    (m.used : Multiset ℕ) = (ps.map Prod.fst : List ℕ) + lost + base

/-- The pids of the list. -/
def pidsOf (ps : List (ℕ × Process)) : List Pid := ps.map fun q => q.2.pid

variable {base : Multiset ℕ} {callbacks : Callbacks}

/-- Names are gained, and records change in place. -/
theorem Accounts.gain (A : Accounts m list base ps n) (H : Holds m' list ps')
    (hps : ps'.map Prod.fst = ps.map Prod.fst) (hused : m'.used.Perm (names ++ m.used)) :
    Accounts m' list base ps' (n + names.length) := by
  obtain ⟨lost, hcard, hledger⟩ := A.ledger
  refine ⟨H, lost + names, by simp [hcard], ?_⟩
  rw [Multiset.coe_eq_coe.mpr hused, ← Multiset.coe_add, hledger, hps]
  abel

/-- Records change in place. -/
theorem Accounts.keep (A : Accounts m list base ps n) (H : Holds m' list ps')
    (hps : ps'.map Prod.fst = ps.map Prod.fst) (hused : m'.used = m.used) :
    Accounts m' list base ps' n := by
  have hnone : m'.used.Perm ([] ++ m.used) := .of_eq hused
  exact A.gain H hps hnone

/-- A record comes into the list with the blocks gained. -/
theorem Accounts.enter (A : Accounts m list base ps n) (H : Holds m' list ((a, p) :: ps))
    (hused : m'.used = names ++ a :: m.used) :
    Accounts m' list base ((a, p) :: ps) (n + names.length) := by
  obtain ⟨lost, hcard, hledger⟩ := A.ledger
  refine ⟨H, lost + names, by simp [hcard], ?_⟩
  rw [hused, ← Multiset.coe_add, ← Multiset.cons_coe, hledger, List.map_cons, ← Multiset.cons_coe,
    ← Multiset.singleton_add, ← Multiset.singleton_add]
  abel

/-- A record goes out of the list and is freed. -/
theorem Accounts.release (A : Accounts m list base (l₁ ++ (a, p) :: l₂) n)
    (H : Holds m' list (l₁ ++ l₂)) (hused : m'.used = m.used.erase a) :
    Accounts m' list base (l₁ ++ l₂) n := by
  obtain ⟨lost, hcard, hledger⟩ := A.ledger
  refine ⟨H, lost, hcard, ?_⟩
  have hcons : ((l₁ ++ (a, p) :: l₂).map Prod.fst : Multiset ℕ) =
      a ::ₘ ((l₁ ++ l₂).map Prod.fst : List ℕ) := by
    rw [List.map_append, List.map_cons, List.map_append, Multiset.cons_coe, Multiset.coe_eq_coe]
    exact List.perm_middle
  rw [hused, ← Multiset.coe_erase, hledger, hcons, Multiset.cons_add, Multiset.cons_add,
    Multiset.erase_cons_head]

/-- The names are what is outstanding next to the records. -/
theorem Accounts.outstanding_iff (A : Accounts m list base ps n) :
    (m.used : Multiset ℕ) = (ps.map Prod.fst : List ℕ) + base ↔ n = 0 := by
  obtain ⟨lost, rfl, hledger⟩ := A.ledger
  rw [hledger, Multiset.card_eq_zero, add_right_comm]
  exact add_eq_left

/-- `mark_processes_inactive` -/
theorem markProcessesInactive_accounts (A : Accounts m list base ps n) (hfuel : ps.length < fuel) :
    ∃ m', markProcessesInactive m (some list) fuel = some (.successRead, m') ∧
      Accounts m' list base (ps.map fun q => (q.1, q.2.deactivate)) n := by
  obtain ⟨m', hmark, H'⟩ := markProcessesInactive_spec A.holds hfuel
  refine ⟨m', hmark, A.keep H' ?_ (markProcessesInactive_used hmark)⟩
  simp [Function.comp_def]

/-- `remove_inactive_processes` -/
theorem removeInactiveProcesses_accounts {s : Refresh} (A : Accounts s.memory list base ps n)
    (callbacks : Callbacks) (hfuel : ps.length < fuel) :
    ∃ s', removeInactiveProcesses s (some list) callbacks.removed fuel = some (.successRead, s') ∧
      Accounts s'.memory list base (ps.filter fun q => q.2.isActive) n := by
  let P (qs rs : List (ℕ × Process)) (s : Refresh) : Prop :=
    Accounts s.memory list base (qs.filter (fun q => q.2.isActive) ++ rs) n
  have hlist : ∀ qs rs s', P qs rs s' →
      ∃ cell kept, s'.memory.heap.IsList list cell (kept ++ rs.map Prod.fst) := by
    intro qs rs s' A'
    obtain ⟨cell, hlist⟩ := A'.holds.isList
    exact ⟨cell, _, by rwa [List.map_append] at hlist⟩
  have hbody : ∀ qs q rs s', P qs (q :: rs) s' →
      ∃ s'', removeBody callbacks.removed s' q.1 = some s'' ∧ P (qs ++ [q]) rs s'' := by
    rintro qs ⟨a, p⟩ rs s' A'
    obtain ⟨m', hremove, H'⟩ := removeBody_spec A'.holds callbacks
    have hrec : s'.memory.records a = some p := A'.holds.record (a, p) (by simp)
    have hused := removeBody_used hrec hremove
    refine ⟨_, hremove, ?_⟩
    change Accounts m' list base (List.filter _ (qs ++ [(a, p)]) ++ rs) n
    rw [List.filter_append]
    cases hactive : p.isActive with
    | true =>
        rw [hactive, if_pos rfl] at hused
        simp only [List.filter_cons, hactive, if_true, List.filter_nil] at H' ⊢
        exact A'.keep H' (by simp) hused
    | false =>
        rw [hactive, if_neg Bool.false_ne_true] at hused
        simp only [List.filter_cons, hactive, Bool.false_eq_true, if_false, List.filter_nil,
          List.append_nil] at H' ⊢
        exact A'.release H' hused
  obtain ⟨s', hloop, A'⟩ := Heap.listForeachSafe_spec P hlist hbody hfuel A.holds.isList A
  refine ⟨s', ?_, by simpa [P] using A'⟩
  simp only [removeInactiveProcesses, hloop, Option.bind_eq_bind, Option.bind_some]

namespace Lookups

/-- The branch for a process of the list. -/
theorem updateProcess_accounts {s : Refresh}
    (A : Accounts s.memory list base (l₁ ++ (a, p) :: l₂) n) (callbacks : Callbacks)
    (read : ReadCall) :
    ∃ s', updateProcess callbacks s a read = some s' ∧
      Accounts s'.memory list base (l₁ ++ (a, p.reread read.outcome) :: l₂) (n + given [read]) := by
  obtain ⟨m₁, names, hread, hused, hlen, H₁⟩ := A.holds.read read
  obtain ⟨m₂, hm₂, H₂⟩ := H₁.modify fun p =>
    { p with isActive := decide (read.outcome.result = .successRead) }
  have hused₂ := (Memory.modify_used hm₂).trans hused
  have hrec := H₂.record (a, _) (List.mem_append_right _ List.mem_cons_self)
  rw [given_singleton, ← hlen]
  cases houtcome : read.outcome with
  | success data =>
      have hrun : updateProcess callbacks s a read =
          some ((Refresh.mk m₂ s.log).notify callbacks.updated
            (.updated (p.reread read.outcome))) := by
        have hresult : read.outcome.result = .successRead := by rw [houtcome]; rfl
        simp only [updateProcess, hread, hm₂, hrec, if_pos hresult, Option.bind_eq_bind,
          Option.bind_some]
        rw [Process.reread, houtcome]
        rfl
      refine ⟨_, hrun, ?_⟩
      rw [Refresh.notify_memory]
      rw [houtcome] at H₂
      exact A.gain H₂ (by simp) (.of_eq hused₂)
  | failure result errno partly =>
      obtain ⟨m₃, hm₃, H₃⟩ := H₂.modify fun p => { p with isActive := false }
      have hresult : read.outcome.result ≠ .successRead := by
        rw [houtcome]
        exact result.2
      have hrun : updateProcess callbacks s a read = some ⟨m₃, s.log⟩ := by
        simp only [updateProcess, hread, hm₂, hm₃, if_neg hresult, Option.bind_eq_bind,
          Option.bind_some]
      rw [houtcome] at H₃
      exact ⟨_, hrun, A.gain H₃ (by simp) (.of_eq ((Memory.modify_used hm₃).trans hused₂))⟩

/-- The code goes on or ends as `visit` says, with at most `k` records in the list and the names
of its calls accounted for. -/
def Ends (list : ℕ) (base : Multiset ℕ) (n k : ℕ) (x : Option (Option ProcessResult × Refresh))
    (visit : List ReadCall × Option (List Pid)) : Prop :=
  ∃ r s' ps', x = some (r, s') ∧ Accounts s'.memory list base ps' (n + given visit.1) ∧
    ps'.length ≤ k ∧ visit.2 = if r.isNone then some (pidsOf ps') else none

/-- The branch for a process that is not in the list. -/
theorem addProcess_accounts {s : Refresh} (A : Accounts s.memory list base ps n)
    (callbacks : Callbacks) (pid : Pid) (e : Entry) :
    Ends list base n (ps.length + 1) (addProcess list callbacks s pid e)
      (e.enter pid (pidsOf ps)) := by
  cases hok : e.callocOk with
  | false =>
      refine ⟨some .errInternal, s, ps, ?_, ?_, Nat.le_succ _, ?_⟩
      · simp [addProcess, Memory.calloc, hok]
      · simpa [Entry.enter, hok] using A
      · simp [Entry.enter, hok]
  | true =>
      obtain ⟨a, m₁, hm₁, D⟩ := A.holds.calloc e.want
      have hused₁ : m₁.used = a :: s.memory.used := by
        obtain ⟨rfl, rfl⟩ := Prod.mk.inj (Option.some.inj hm₁)
        rfl
      obtain ⟨m₂, names, hread, hused₂, hlen, D₂⟩ := D.read e.read
      rw [hused₁] at hused₂
      cases houtcome : e.read.outcome with
      | failure result errno partly =>
          obtain ⟨m₃, hm₃, H₃⟩ := D₂.free
          -- The record goes, the name stays.
          have hused₃ : m₃.used.Perm (names ++ s.memory.used) := by
            have hmiddle : (names ++ a :: s.memory.used).Perm (a :: (names ++ s.memory.used)) :=
              List.perm_middle
            have hperm := hmiddle.erase a
            rwa [List.erase_cons_head, ← hused₂, ← Memory.free_used hm₃] at hperm
          have A₃ := A.gain H₃ rfl hused₃
          have henter : e.enter pid (pidsOf ps) =
              ([e.read], if errno = .ENOENT then some (pidsOf ps) else none) := by
            simp [Entry.enter, hok, houtcome]
          rw [hlen, ← given_singleton] at A₃
          rw [henter]
          by_cases herrno : errno = .ENOENT
          · refine ⟨none, ⟨m₃, s.log⟩, ps, ?_, A₃, Nat.le_succ _, by simp [herrno]⟩
            simp only [addProcess, hok, hm₁, hread, houtcome, hm₃, Option.bind_eq_bind,
              Option.bind_some, if_pos herrno]
          · refine ⟨some .errInternal, ⟨m₃, s.log⟩, ps, ?_, A₃, Nat.le_succ _, by simp [herrno]⟩
            simp only [addProcess, hok, hm₁, hread, houtcome, hm₃, Option.bind_eq_bind,
              Option.bind_some, if_neg herrno]
      | success data =>
          obtain ⟨m₃, hm₃, D₃⟩ := D₂.modify fun p => { p with pid := pid, isActive := true }
          obtain ⟨h', hadd, H'⟩ := D₃.listAddNode
          have A' := A.enter H' ((Memory.modify_used hm₃).trans hused₂)
          have henter : e.enter pid (pidsOf ps) = ([e.read], some (pid :: pidsOf ps)) := by
            simp [Entry.enter, hok, houtcome]
          have hrec : m₃.records a = some ⟨pid, data, true⟩ := by
            rw [D₃.record, houtcome]
            rfl
          rw [hlen, ← given_singleton] at A'
          rw [henter]
          refine ⟨none, (Refresh.mk { m₃ with heap := h' } s.log).notify callbacks.added
            (.added ⟨pid, data, true⟩), _, ?_, by rwa [Refresh.notify_memory], le_refl _, rfl⟩
          simp only [addProcess, hok, hm₁, hread, houtcome, hm₃, hadd, hrec, Option.bind_eq_bind,
            Option.bind_some]

/-- An iteration of the loop. -/
theorem refreshEntry_accounts {s : Refresh} (A : Accounts s.memory list base ps n)
    (callbacks : Callbacks) (e : Entry) (hfuel : ps.length < fuel) :
    Ends list base n (ps.length + 1) (refreshEntry list callbacks fuel s e)
      (e.visit (pidsOf ps)) := by
  rw [refreshEntry, Entry.visit]
  cases entryName e.name with
  | skip => exact ⟨none, s, ps, rfl, A, Nat.le_succ _, rfl⟩
  | outOfRange => exact ⟨some .errInternal, s, ps, rfl, A, Nat.le_succ _, rfl⟩
  | process pid =>
      by_cases hpid : pid = 0
      · have hzero : ¬ (pid ≠ 0 ∧ pid ∈ pidsOf ps) := fun h => h.1 hpid
        simp only [findProcessByPid, if_pos hpid, if_neg hzero, Option.bind_eq_bind,
          Option.bind_some]
        exact addProcess_accounts A callbacks pid e
      · rcases findProcessByPid_spec A.holds hpid hfuel with
          ⟨l₁, a, p, l₂, rfl, hp, -, hfind⟩ | ⟨hps, hfind⟩
        · obtain ⟨s', hupdate, A'⟩ := updateProcess_accounts A callbacks e.read
          have hmem : pid ≠ 0 ∧ pid ∈ pidsOf (l₁ ++ (a, p) :: l₂) := ⟨hpid, by simp [pidsOf, hp]⟩
          simp only [hfind, hupdate, if_pos hmem, Option.bind_eq_bind, Option.bind_some]
          exact ⟨none, s', _, rfl, A', by simp, by simp [pidsOf]⟩
        · have hnone : ¬ (pid ≠ 0 ∧ pid ∈ pidsOf ps) := by
            rintro ⟨-, hmem⟩
            obtain ⟨q, hq, rfl⟩ := List.mem_map.mp hmem
            exact hps q hq rfl
          simp only [hfind, if_neg hnone, Option.bind_eq_bind, Option.bind_some]
          exact addProcess_accounts A callbacks pid e

/-- The loop over the directory. -/
theorem refreshEntries_accounts {s : Refresh} (A : Accounts s.memory list base ps n)
    (callbacks : Callbacks) (entries : List Entry) (hfuel : ps.length + entries.length ≤ fuel) :
    ∃ r s' ps', refreshEntries list callbacks fuel s entries = some (r, s') ∧
      Accounts s'.memory list base ps' (n + given (reads (pidsOf ps) entries)) ∧
      ps'.length ≤ ps.length + entries.length := by
  induction entries generalizing s ps n with
  | nil => exact ⟨none, s, ps, rfl, A, le_refl _⟩
  | cons e entries ih =>
      rw [List.length_cons] at hfuel
      obtain ⟨r, s₁, ps₁, hentry, A₁, hlen₁, hvisit⟩ :=
        refreshEntry_accounts A callbacks e (show ps.length < fuel by omega)
      rw [List.length_cons]
      simp only [refreshEntries, hentry, Option.bind_eq_bind, Option.bind_some, reads, hvisit,
        given_append]
      cases r with
      | some r => exact ⟨some r, s₁, ps₁, rfl, A₁, by omega⟩
      | none =>
          obtain ⟨r, s₂, ps₂, hentries, A₂, hlen₂⟩ :=
            ih A₁ (show ps₁.length + entries.length ≤ fuel by omega)
          rw [Nat.add_assoc] at A₂
          exact ⟨r, s₂, ps₂, hentries, A₂, by omega⟩

/-- `process_list_refresh` -/
theorem processListRefresh_accounts (A : Accounts m list base ps n) (dir : Option (List Entry))
    (callbacks : Callbacks) (hfuel : ps.length + (dir.getD []).length < fuel) :
    ∃ r s' ps', processListRefresh m (some list) dir callbacks fuel = some (r, s') ∧
      Accounts s'.memory list base ps' (n + given (reads (pidsOf ps) (dir.getD []))) ∧
      ps'.length ≤ ps.length + (dir.getD []).length := by
  cases dir with
  | none => exact ⟨.errOpen, ⟨m, []⟩, ps, rfl, A, Nat.le_add_right _ _⟩
  | some entries =>
      rw [Option.getD_some] at hfuel ⊢
      obtain ⟨m₁, hmark, A₁⟩ := markProcessesInactive_accounts A (show ps.length < fuel by omega)
      have hpids : pidsOf (ps.map fun q => (q.1, q.2.deactivate)) = pidsOf ps := by
        simp [pidsOf, Function.comp_def]
      obtain ⟨r, s₂, ps₂, hentries, A₂, hlen₂⟩ := refreshEntries_accounts (s := ⟨m₁, []⟩) A₁
        callbacks entries (show _ ≤ fuel by rw [List.length_map]; omega)
      rw [hpids] at A₂
      rw [List.length_map] at hlen₂
      simp only [processListRefresh, hmark, hentries, Option.bind_eq_bind, Option.bind_some]
      cases r with
      | some r => exact ⟨r, s₂, ps₂, rfl, A₂, hlen₂⟩
      | none =>
          obtain ⟨s₃, hremove, A₃⟩ := removeInactiveProcesses_accounts A₂ callbacks
            (show ps₂.length < fuel by omega)
          simp only [hremove, Option.bind_some]
          exact ⟨.successRead, s₃, _, rfl, A₃, (List.length_filter_le _ _).trans hlen₂⟩

/-! ## Runs -/

/-- A refresh of a run: the directory and the callbacks it is called with. -/
def call (list fuel : ℕ) (m : Memory) (x : Option (List Entry) × Callbacks) :
    Option (ProcessResult × Memory) := do
  let (result, s) ← processListRefresh m (some list) x.1 x.2 fuel
  some (result, s.memory)

/-- No read of the refresh is given the name of a user. -/
def Nameless (list : ℕ) (m : Memory) (x : Option (List Entry) × Callbacks) : Prop :=
  ∀ ps, Holds m list ps → ∀ read ∈ reads (pidsOf ps) (x.1.getD []), read.username = none

/-- The records are those at the addresses of the list. -/
theorem map_records (H : Holds m list ps) :
    (ps.map Prod.fst).map (fun a => (a, (m.records a).getD .zero)) = ps := by
  rw [List.map_map]
  refine (List.map_congr_left ?_).trans (List.map_id ps)
  intro q hq
  simp [H.record q hq]

/-- The memory holds one sequence of records only. -/
theorem holds_unique (H : Holds m list ps) (H' : Holds m list ps') : ps = ps' := by
  obtain ⟨cell, hlist⟩ := H.isList
  obtain ⟨cell', hlist'⟩ := H'.isList
  have hshort : (ps.map Prod.fst).length < ps.length + ps'.length + 1 := by
    rw [List.length_map]
    omega
  have hshort' : (ps'.map Prod.fst).length < ps.length + ps'.length + 1 := by
    rw [List.length_map]
    omega
  have haddresses : ps.map Prod.fst = ps'.map Prod.fst :=
    Option.some.inj ((hlist.ring.follow hshort).symm.trans (hlist'.ring.follow hshort'))
  rw [← map_records H, ← map_records H', haddresses]

theorem nameless_iff (H : Holds m list ps) {x : Option (List Entry) × Callbacks} :
    Nameless list m x ↔ given (reads (pidsOf ps) (x.1.getD [])) = 0 := by
  rw [given_eq_zero]
  constructor
  · exact fun h => h ps H
  · intro h ps' H'
    rwa [← holds_unique H H']

/-- A run of refreshes. -/
theorem run_accounts {calls : List (Option (List Entry) × Callbacks)}
    (A : Accounts m list base ps n)
    (hfuel : ps.length + (calls.map fun x => (x.1.getD []).length).sum < fuel) :
    ∃ os m' ps' k, Transition.exec (call list fuel) m calls = some (os, m') ∧
      Accounts m' list base ps' (n + k) ∧
      (k = 0 ↔ Transition.Along (Nameless list) (call list fuel) m calls) := by
  induction calls generalizing m ps n with
  | nil => exact ⟨[], m, ps, 0, rfl, A, Iff.intro (fun _ => trivial) fun _ => rfl⟩
  | cons x calls ih =>
      rw [List.map_cons, List.sum_cons] at hfuel
      obtain ⟨r, s₁, ps₁, hrefresh, A₁, hlen⟩ := processListRefresh_accounts A x.1 x.2
        (show ps.length + (x.1.getD []).length < fuel by omega)
      have hcall : call list fuel m x = some (r, s₁.memory) := by
        simp only [call, hrefresh, Option.bind_eq_bind, Option.bind_some]
      obtain ⟨os, m₂, ps₂, k, hrun, A₂, hk⟩ := ih A₁ (by omega)
      rw [Nat.add_assoc] at A₂
      refine ⟨r :: os, m₂, ps₂, _, ?_, A₂, ?_⟩
      · exact Transition.exec_cons_eq_some.mpr ⟨r, _, os, m₂, hcall, hrun, rfl⟩
      · rw [Transition.along_cons hcall, nameless_iff A.holds, ← hk, Nat.add_eq_zero_iff]

/-- After `list_init` nothing is outstanding but what the caller has. -/
theorem accounts_listInit {h : Heap ℕ} {malloc : Option ℕ}
    (hinit : m.heap.listInit list malloc = some h) (hused : list ∈ m.used) :
    Accounts { m with heap := h } list m.used [] 0 := by
  obtain ⟨cell, hlist⟩ := Heap.listInit_isList hinit
  exact ⟨⟨⟨cell, hlist⟩, by simp, by simpa using hused⟩, 0, rfl, by simp⟩

/-- No user of the directory has a name. -/
theorem nameless_of_entries {x : Option (List Entry) × Callbacks}
    (h : ∀ e ∈ x.1.getD [], e.read.username = none) (m : Memory) : Nameless list m x := by
  intro ps _ read hread
  obtain ⟨e, he, rfl⟩ := exists_of_mem_reads hread
  exact h e he

/-- **What a run of refreshes leaves allocated.**  Every run returns, so that no block is freed
twice.  After it the blocks outstanding are the records of the list, one for each node, if and
only if no read of the run was given the name of a user. -/
theorem refresh_outstanding_iff {h : Heap ℕ} {malloc : Option ℕ}
    (hinit : m.heap.listInit list malloc = some h) (hused : list ∈ m.used)
    {calls : List (Option (List Entry) × Callbacks)}
    (hfuel : (calls.map fun x => (x.1.getD []).length).sum < fuel) :
    ∃ os m' ps, Transition.exec (call list fuel) { m with heap := h } calls = some (os, m') ∧
      Holds m' list ps ∧ (list :: ps.map Prod.fst).Nodup ∧
      (m'.used.Perm (ps.map Prod.fst ++ m.used) ↔
        Transition.Along (Nameless list) (call list fuel) { m with heap := h } calls) := by
  have hfuel' : ([] : List (ℕ × Process)).length +
      (calls.map fun x => (x.1.getD []).length).sum < fuel := by
    simpa using hfuel
  obtain ⟨os, m', ps, k, hrun, A, hk⟩ := run_accounts (accounts_listInit hinit hused) hfuel'
  rw [Nat.zero_add] at A
  refine ⟨os, m', ps, hrun, A.holds, A.holds.nodup, ?_⟩
  rw [← hk, ← A.outstanding_iff, Multiset.coe_add, Multiset.coe_eq_coe]

/-- A process that is read with this lookup of its user. -/
def oneProcess (user : UserLookup) : Option (List Entry) × Callbacks :=
  (some [⟨[55], .looked (.success .zero) user, true, 1⟩], ⟨true, true, true⟩)

/-- The process comes, is read again and goes; its user has no name. -/
def namelessCalls : List (Option (List Entry) × Callbacks) :=
  [oneProcess ⟨true, 2, none, true, 3⟩, oneProcess ⟨true, 2, none, true, 3⟩,
    (some [], ⟨true, true, true⟩)]

theorem refresh_outstanding_nameless : ∃ h os m ps,
    Transition.exec (call 0 9) ⟨h, fun _ => none, [0]⟩ namelessCalls = some (os, m) ∧
      Holds m 0 ps ∧ m.used.Perm (ps.map Prod.fst ++ [0]) := by
  let h₀ : Heap ℕ := ⟨fun _ => some ⟨none, none, none⟩, fun _ => none⟩
  have hread : h₀.Readable 0 := Option.some_ne_none _
  obtain ⟨h, hinit, -, -⟩ := Heap.listInit_spec hread 1
  have hnames : ∀ x ∈ namelessCalls, ∀ e ∈ x.1.getD [], e.read.username = none := by decide
  have hfuel : (namelessCalls.map fun x => (x.1.getD []).length).sum < 9 := by decide
  obtain ⟨os, m, ps, hrun, H, -, hiff⟩ := refresh_outstanding_iff (m := ⟨h₀, fun _ => none, [0]⟩)
    hinit List.mem_cons_self hfuel
  refine ⟨h, os, m, ps, hrun, H, hiff.mpr ?_⟩
  exact Transition.along_of_forall fun x hx m => nameless_of_entries (hnames x hx) m

/-- The name of one user is outstanding after the refresh that reads it. -/
theorem name_outstanding : ¬ ∀ (m : Memory) h malloc list fuel calls os m' ps,
    m.heap.listInit list malloc = some h → list ∈ m.used →
      Transition.exec (call list fuel) { m with heap := h } calls = some (os, m') →
        Holds m' list ps → m'.used.Perm (ps.map Prod.fst ++ m.used) := by
  intro hall
  let h₀ : Heap ℕ := ⟨fun _ => some ⟨none, none, none⟩, fun _ => none⟩
  have hread : h₀.Readable 0 := Option.some_ne_none _
  obtain ⟨h, hinit, -, -⟩ := Heap.listInit_spec hread 1
  let m₀ : Memory := ⟨h₀, fun _ => none, [0]⟩
  let calls := [oneProcess ⟨true, 2, some [114, 111, 111, 116], true, 3⟩]
  have hused : 0 ∈ m₀.used := List.mem_cons_self
  have A₀ := accounts_listInit hinit hused
  have hfuel : ([] : List (ℕ × Process)).length +
      (calls.map fun x => (x.1.getD []).length).sum < 2 := by
    decide
  obtain ⟨os, m', ps, k, hrun, A, hk⟩ := run_accounts A₀ hfuel
  have hperm := hall m₀ h (some 1) 0 2 calls os m' ps hinit hused hrun A.holds
  rw [Nat.zero_add] at A
  have hzero : k = 0 := by
    rw [← A.outstanding_iff, Multiset.coe_add, Multiset.coe_eq_coe]
    exact hperm
  have hgiven := (nameless_iff A₀.holds).mp (hk.mp hzero).1
  exact absurd hgiven (by decide)

end Lookups
end ProcessList
end Ctm
