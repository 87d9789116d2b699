import Ctm.Gtk.ProcessTab

/-!
# The rows of the process tab

Each process that is added gets a row behind the others.  The tab finds the row again through
its map; if `hash_map_put` has failed it never does, and the row stays when its process goes.

The observer may be called in any order in which a list reports its changes: a process is added
before it is updated or removed, and is not added again until it is removed.

## Main definitions

* `Call.change`, `Call.notice`, `columns` — what a call tells the tab, and what a row shows.
* `Shows` — the tab shows the rows of a view of the change log.
* `callback_spec`, `run_linked` — one call, and a run of them.
* `run_rows` — the rows, after any calls.
* `listStore` — a toolkit as documented.
-/

namespace Ctm
namespace Gtk

/-- A row of the view: a pid, and a name and a state. -/
abbrev Row := ChangeLog.Row Pid (List UInt8 × List UInt8)

/-- What a row shows. -/
def columns (r : Row) : Columns := ⟨r.key, some r.data.1, some r.data.2⟩

section Call
variable {P : Type}

/-- The entry of the change log. -/
def Call.change (g : Getters P) (c : Call P) : ChangeLog.Change Pid := ⟨c.kind, g.pid c.process⟩

/-- What a call tells the tab: a name and a state. -/
def Call.notice (g : Getters P) (c : Call P) (kept : Bool) :
    ChangeLog.Notice Pid (List UInt8 × List UInt8) :=
  ⟨c.change g, (g.name c.process, g.state c.process), kept⟩

/-- All the tab is told. -/
def view (g : Getters P) (calls : List (Call P)) (kept : List Bool) :
    List (ChangeLog.Notice Pid (List UInt8 × List UInt8)) :=
  (calls.zip kept).map fun n => n.1.notice g n.2

end Call

/-! ## Places in lists -/

section Places
variable {α : Type} {l : List α} {q : α → Bool} {i : ℕ}

end Places

/-! ## The tab and the view -/

variable {σ ι ρ P : Type} [DecidableEq ρ]

/-- The rows of a view, each with the reference to its row in the store. -/
abbrev Linked (ρ : Type) := List (ρ × Row)

/-- The map of the tab as a dictionary. -/
abbrev Index (ρ : Type) := Finmap fun _ : pidCallbacks_lawful.Key => Option ρ

/-- The store shows the linked rows, each reference leads to its row, and the map has the
references to the rows that are kept, which are those of processes in `s`. -/
structure Shows (k : Toolkit σ ι ρ) (tab : ProcessTab σ ρ) (linked : Linked ρ) (s : Finset Pid)
    (d : Index ρ) : Prop where
  rows : k.rows tab.store = linked.map fun l => columns l.2
  path : ∀ i (hi : i < linked.length), k.referencePath tab.store linked[i].1 = some i
  live : (k.live tab.store).Perm (linked.map Prod.fst)
  nodup : (linked.map Prod.fst).Nodup
  represents : HashMap.Represents pidCallbacks_lawful tab.pidToIter d
  lookup_iff : ∀ (key : Key) v, d.lookup (pidCallbacks_lawful.key key) = some v ↔
    ∃ l ∈ linked, v = some l.1 ∧ l.2.reached key.1 = true
  mem_of_kept : ∀ l ∈ linked, l.2.kept = true → l.2.key ∈ s

/-- The keys of the map are told apart. -/
theorem key_eq_iff {key key' : Key} :
    pidCallbacks_lawful.key key = pidCallbacks_lawful.key key' ↔ key = key' := by
  rw [Callbacks.Lawful.key_eq_iff, Subtype.ext_iff]
  exact hashCompareInt_eq_zero_iff

variable {k : Toolkit σ ι ρ} {g : Getters P} {tab tab' : ProcessTab σ ρ} {linked : Linked ρ}
  {s : Finset Pid} {d : Index ρ} {pid : Pid} {p : P} {a : Allocs}

omit [DecidableEq ρ] in
theorem Shows.mem_live (S : Shows k tab linked s d) {l : ρ × Row} (hl : l ∈ linked) :
    l.1 ∈ k.live tab.store := S.live.mem_iff.mpr (List.mem_map_of_mem hl)

/-- A link when the row of a process is set. -/
def relink (g : Getters P) (p : P) (l : ρ × Row) : ρ × Row :=
  if l.2.reached (g.pid p) then (l.1, { l.2 with data := (g.name p, g.state p) }) else l

section relink
omit [DecidableEq ρ]
variable (g : Getters P) (p : P) (l : ρ × Row)

@[simp] theorem fst_relink : (relink g p l).1 = l.1 := by
  rw [relink]
  split
  · rfl
  · rfl

@[simp] theorem reached_relink (pid : Pid) : (relink g p l).2.reached pid = l.2.reached pid := by
  rw [relink]
  split
  · rfl
  · rfl

@[simp] theorem key_relink : (relink g p l).2.key = l.2.key := by
  rw [relink]
  split
  · rfl
  · rfl

@[simp] theorem kept_relink : (relink g p l).2.kept = l.2.kept := by
  rw [relink]
  split
  · rfl
  · rfl

end relink

omit [DecidableEq ρ] in
/-- Setting a row keeps what the map is about. -/
theorem Shows.relink (S : Shows k tab linked s d) (p : P) {store : σ}
    (hrows : k.rows store = (linked.map (relink g p)).map fun l => columns l.2)
    (hsame : k.SameReferences tab.store store) :
    Shows k { tab with store := store } (linked.map (Gtk.relink g p)) s d where
  rows := hrows
  path := by
    intro i hi
    have hlt : i < linked.length := by simpa using hi
    rw [List.getElem_map, fst_relink, hsame.path _ (S.mem_live (List.getElem_mem hlt))]
    exact S.path i hlt
  live := by
    rw [hsame.live]
    simpa [Function.comp_def] using S.live
  nodup := by simpa [Function.comp_def] using S.nodup
  represents := S.represents
  lookup_iff := by
    intro key v
    rw [S.lookup_iff]
    constructor
    · rintro ⟨l, hl, hv, hreached⟩
      exact ⟨Gtk.relink g p l, List.mem_map_of_mem hl, by rwa [fst_relink],
        by rwa [reached_relink]⟩
    · rintro ⟨l', hl', hv, hreached⟩
      obtain ⟨l, hl, rfl⟩ := List.mem_map.mp hl'
      rw [fst_relink] at hv
      rw [reached_relink] at hreached
      exact ⟨l, hl, hv, hreached⟩
  mem_of_kept := by
    rw [List.forall_mem_map]
    intro l hl hkept
    rw [kept_relink] at hkept
    rw [key_relink]
    exact S.mem_of_kept l hl hkept

omit [DecidableEq ρ] in
/-- A map from which a pid is removed has the references to the other rows. -/
theorem Shows.lookup_erase (S : Shows k tab linked s d) (hpid : pid ≠ 0) (key : Key)
    (v : Option ρ) :
    (d.erase (pidCallbacks_lawful.key ⟨pid, hpid⟩)).lookup (pidCallbacks_lawful.key key) = some v ↔
      ∃ l ∈ linked.filter fun l => !l.2.reached pid, v = some l.1 ∧ l.2.reached key.1 = true := by
  have hfiltered : ∀ l ∈ linked.filter fun l => !l.2.reached pid,
      l ∈ linked ∧ l.2.reached pid = false := by
    intro l hl
    simpa using List.mem_filter.mp hl
  by_cases hk : key = ⟨pid, hpid⟩
  · subst hk
    rw [Finmap.lookup_erase]
    refine iff_of_false (Option.some_ne_none v).symm ?_
    rintro ⟨l, hl, -, hreached⟩
    rw [(hfiltered l hl).2] at hreached
    cases hreached
  · rw [Finmap.lookup_erase_ne (fun heq => hk (key_eq_iff.mp heq)), S.lookup_iff]
    constructor
    · rintro ⟨l, hl, hv, hreached⟩
      refine ⟨l, List.mem_filter.mpr ⟨hl, ?_⟩, hv, hreached⟩
      have hkey := (ChangeLog.Row.reached_iff.mp hreached).2
      have hne : l.2.key ≠ pid := fun heq => hk (Subtype.ext (hkey.symm.trans heq))
      simp [ChangeLog.Row.reached, hne]
    · rintro ⟨l, hl, hv, hreached⟩
      exact ⟨l, (hfiltered l hl).1, hv, hreached⟩

end Gtk
end Ctm
