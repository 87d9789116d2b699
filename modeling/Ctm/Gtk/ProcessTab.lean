import Ctm.HashMap.Exhausted
import Ctm.Lib.View
import Ctm.Process.Basic

/-!
# The process tab of the GTK interface

The callbacks of `ui/gtk/process_tab.c`.  The tab is a `GtkListStore`, and a hash map from the
pid of a process to a reference to its row.

GTK is a parameter, and so are the processes and what is read of them.  What is used of GTK is
documented: the rows of a store stay in their order, a path to a row of a list is its index, and
a row reference follows the row it was made for, and is valid as long as that row is there.

## Main definitions

* `Toolkit`, `Toolkit.Documented` — GTK, and what is used of it.
* `Getters` — `process_get_pid`, `process_get_name` and `process_get_state`.
* `ProcessTab` — the `struct ProcessTab`, less its widgets.
* `onUiProcessAdded`, `onUiProcessUpdated`, `onUiProcessRemoved` — the callbacks.
* `Call`, `callback` — a call of the observer.
-/

namespace Ctm
namespace Gtk

/-! ## GTK -/

/-- The columns of a row that the callbacks write. -/
structure Columns where
  pid : Pid
  name : Option (List UInt8)
  state : Option (List UInt8)
deriving DecidableEq, Repr

/-- A column and a value for it. -/
inductive Cell
  | pid (pid : Pid)
  | name (text : List UInt8)
  | state (text : List UInt8)

/-- The value is written in its column. -/
def Columns.write (c : Columns) : Cell → Columns
  | .pid pid => { c with pid := pid }
  | .name text => { c with name := some text }
  | .state text => { c with state := some text }

/-- What the tab uses of GTK: stores `σ`, iterators `ι` and row references `ρ`. -/
structure Toolkit (σ ι ρ : Type) where
  /-- `gtk_list_store_new` -/
  new : σ
  /-- `gtk_list_store_append` -/
  append : σ → ι × σ
  /-- `gtk_list_store_set` -/
  set : σ → ι → List Cell → σ
  /-- `gtk_list_store_remove` -/
  remove : σ → ι → σ
  /-- `gtk_tree_model_get_path` -/
  getPath : σ → ι → Option ℕ
  /-- `gtk_tree_model_get_iter` -/
  getIter : σ → ℕ → Option ι
  /-- `gtk_tree_row_reference_new` -/
  newReference : σ → Option ℕ → Option ρ × σ
  /-- `gtk_tree_row_reference_valid` -/
  referenceValid : σ → ρ → Bool
  /-- `gtk_tree_row_reference_get_path` -/
  referencePath : σ → ρ → Option ℕ
  /-- `gtk_tree_row_reference_free` -/
  freeReference : σ → ρ → σ
  /-- The rows of the store, in order. -/
  rows : σ → List Columns
  /-- The row references that were made and not freed. -/
  live : σ → List ρ

namespace Toolkit
variable {σ ι ρ : Type} {k : Toolkit σ ι ρ} {store store' : σ}

/-- The row references are where they were. -/
structure SameReferences (k : Toolkit σ ι ρ) (store store' : σ) : Prop where
  live : k.live store' = k.live store
  path : ∀ r ∈ k.live store, k.referencePath store' r = k.referencePath store r

/-- Where the row at `j` is once the row at `i` is removed. -/
def shift (i j : ℕ) : Option ℕ := if j < i then some j else if j = i then none else some (j - 1)

/-- What GTK documents. -/
structure Documented [DecidableEq ρ] (k : Toolkit σ ι ρ) : Prop where
  /-- A new store has no rows. -/
  new : k.rows k.new = [] ∧ k.live k.new = []
  /-- A row is appended behind the others, and the iterator is at it. -/
  append : ∀ store, (∃ c, k.rows (k.append store).2 = k.rows store ++ [c]) ∧
    k.getPath (k.append store).2 (k.append store).1 = some (k.rows store).length ∧
    k.SameReferences store (k.append store).2
  /-- The cells are written in the row of the iterator. -/
  set : ∀ store iter i cells, k.getPath store iter = some i →
    k.rows (k.set store iter cells) =
      (k.rows store).modify i (fun c => cells.foldl Columns.write c) ∧
    k.getPath (k.set store iter cells) iter = some i ∧
    k.SameReferences store (k.set store iter cells)
  /-- The row of the iterator is removed, and the rows behind it move up. -/
  remove : ∀ store iter i, k.getPath store iter = some i →
    k.rows (k.remove store iter) = (k.rows store).eraseIdx i ∧
    k.live (k.remove store iter) = k.live store ∧
    ∀ r ∈ k.live store,
      k.referencePath (k.remove store iter) r = (k.referencePath store r).bind (shift i)
  /-- There is an iterator at every row. -/
  getIter : ∀ store i, i < (k.rows store).length →
    ∃ iter, k.getIter store i = some iter ∧ k.getPath store iter = some i
  /-- A new reference is at the row of the path. -/
  newReference : ∀ store i, i < (k.rows store).length →
    ∃ r store', k.newReference store (some i) = (some r, store') ∧ r ∉ k.live store ∧
      k.rows store' = k.rows store ∧ k.live store' = r :: k.live store ∧
      k.referencePath store' r = some i ∧
      ∀ r' ∈ k.live store, k.referencePath store' r' = k.referencePath store r'
  /-- A reference is valid as long as its row is there. -/
  referenceValid : ∀ store, ∀ r ∈ k.live store,
    k.referenceValid store r = (k.referencePath store r).isSome
  /-- Freeing a reference leaves the others. -/
  freeReference : ∀ store, ∀ r ∈ k.live store,
    k.rows (k.freeReference store r) = k.rows store ∧
    k.live (k.freeReference store r) = (k.live store).erase r ∧
    ∀ r' ∈ k.live store, r' ≠ r →
      k.referencePath (k.freeReference store r) r' = k.referencePath store r'

end Toolkit

/-! ## The tab -/

/-- `process_get_pid`, `process_get_name` and `process_get_state`, for processes `P`. -/
structure Getters (P : Type) where
  pid : P → Pid
  name : P → List UInt8
  state : P → List UInt8

/-- The pids the map can hold: those that `hash_compare_int` tells from `TOMBSTONE`. -/
abbrev Key := { pid : Pid // pid ≠ 0 }

/-- `hash_int` and `hash_compare_int`, where the bytes at `TOMBSTONE` are zero. -/
def pidCallbacks : Callbacks Key := intCallbacks 0

theorem pidCallbacks_lawful : pidCallbacks.Lawful := intCallbacks_lawful 0

/-- A pid as a key of the map. -/
def toKey (pid : Pid) : Option Key := if h : pid ≠ 0 then some ⟨pid, h⟩ else none

/-- The `struct ProcessTab`.  `gtk_tree_row_reference_new` may have returned NULL. -/
structure ProcessTab (σ ρ : Type) where
  store : σ
  pidToIter : HashMap Key (Option ρ)

/-- A call of a function of the observer, with the answers to its allocations. -/
structure Call (P : Type) where
  kind : ChangeLog.Kind
  process : P
  allocs : Allocs

namespace ProcessTab
variable {σ ι ρ P : Type} [DecidableEq ρ]

/-- What the callbacks for updates and removals start with: the reference found for the pid, if
it is valid, with an iterator at its row.  `none` reads a reference that was freed. -/
def reach (k : Toolkit σ ι ρ) (self : ProcessTab σ ρ) (pid : Pid) :
    Option (Option (ρ × Option ι)) := do
  let key ← toKey pid
  let (found, _) ← HashMap.get pidCallbacks self.pidToIter (some key)
  match found with
  | some (some reference) =>
      if reference ∉ k.live self.store then none
      else if k.referenceValid self.store reference then
        some (some (reference, (k.referencePath self.store reference).bind (k.getIter self.store)))
      else some none
  | _ => some none

/-- `on_ui_process_added`, with the result of `hash_map_put`, which it drops. -/
def onUiProcessAdded (k : Toolkit σ ι ρ) (g : Getters P) (self : ProcessTab σ ρ) (process : P)
    (a : Allocs) : Option (Bool × ProcessTab σ ρ) := do
  let pid := g.pid process
  let (iter, store) := k.append self.store
  let store := k.set store iter [.pid pid, .name (g.name process), .state (g.state process)]
  let path := k.getPath store iter
  let (rowReference, store) := k.newReference store path
  let key ← toKey pid
  let r ← HashMap.put pidCallbacks a self.pidToIter (some key) (some rowReference)
  some (r.ret == 0, ⟨store, r.map⟩)

/-- `on_ui_process_updated` -/
def onUiProcessUpdated (k : Toolkit σ ι ρ) (g : Getters P) (self : ProcessTab σ ρ) (process : P) :
    Option (ProcessTab σ ρ) := do
  let found ← self.reach k (g.pid process)
  match found with
  | some (_, some iter) =>
      some { self with
        store := k.set self.store iter [.name (g.name process), .state (g.state process)] }
  | _ => some self

/-- `on_ui_process_removed` -/
def onUiProcessRemoved (k : Toolkit σ ι ρ) (g : Getters P) (self : ProcessTab σ ρ) (process : P)
    (a : Allocs) : Option (ProcessTab σ ρ) := do
  let pid := g.pid process
  let found ← self.reach k pid
  match found with
  | some (reference, iter) => do
      let store := match iter with
        | some iter => k.remove self.store iter
        | none => self.store
      let store := k.freeReference store reference
      let key ← toKey pid
      let r ← HashMap.remove pidCallbacks a self.pidToIter (some key)
      some ⟨store, r.map⟩
  | none => some self

/-- A call of the observer, and whether the tab keeps hold of the row. -/
def callback (k : Toolkit σ ι ρ) (g : Getters P) (self : ProcessTab σ ρ) (c : Call P) :
    Option (Bool × ProcessTab σ ρ) :=
  match c.kind with
  | .added => self.onUiProcessAdded k g c.process c.allocs
  | .updated => (self.onUiProcessUpdated k g c.process).map fun self => (true, self)
  | .removed => (self.onUiProcessRemoved k g c.process c.allocs).map fun self => (true, self)

/-- `process_tab_create`, whose map is created. -/
def create (k : Toolkit σ ι ρ) (map : HashMap Key (Option ρ)) : ProcessTab σ ρ := ⟨k.new, map⟩

end ProcessTab
end Gtk
end Ctm
