import Ctm.Process.Decode
import Ctm.Tui.Screen
import Ctm.Tui.Scroll

/-!
# From the system to the screen

The whole way of a process: its directory below `/proc`, the line of its stat file, the
record of the list, the row of the pad.  At the end the row shows the name of the directory,
the name of the command and the word for the state.

## Main definitions

* `entryRecord` — the record an entry leads to.
* `Table.scan_live` — a directory all of whose processes can be read.
* `Listed` — an entry whose stat file holds a line.
* `uiStart_shows_system` — the rows of the processes of the system.
-/

namespace Ctm

namespace StatLine
open ProcessList
variable {line : StatLine} {answers : ReadAnswers} {uid : ℕ} {tail : List UInt8}

/-- How the call ends for a whole line. -/
theorem outcome_line (hstate : line.state ≠ 0) (huid : answers.uid = some uid)
    (htail : ∀ c ∈ tail, isspace c = true) (hfields : 21 ≤ line.fields.length)
    (hrange : line.InRange) (hlen : (line.text ++ tail).length ≤ 1023)
    (hfile : answers.file = .content (line.text ++ tail)) :
    answers.call.outcome =
      .success (line.data uid (snprintfString usernameMax answers.user.username)) := by
  have htext : line.text ++ tail =
      line.head ++ (32 :: line.state :: fieldsText line.fields ++ tail) := by
    simp [text]
  rw [htext] at hlen hfile
  have hclose : 41 ∉ 32 :: line.state :: fieldsText line.fields ++ tail :=
    notMem_rest (by decide) (by decide) (by decide) line.state_ne htail
  have hnul : 0 ∉ 32 :: line.state :: fieldsText line.fields ++ tail :=
    notMem_rest (by decide) (by decide) (by decide) hstate htail
  obtain ⟨pos, hpos, hcall⟩ := call_head huid (ioReadFile_head hlen hnul hfile) hclose
  obtain rfl : pos = line.state :: (fieldsText line.fields ++ tail) := hpos
  rw [sscanf_line hfields hrange htail] at hcall
  rw [hcall]
  rfl

end StatLine

namespace ProcessList

/-- The record an entry leads to, when its process can be read. -/
def entryRecord (e : Entry) : Option Process := (pidOf e.name).bind fun pid => recordOf pid e.read

namespace Table
variable {t : Table} {e : Entry} {es : List Entry}

/-- An entry that can be read is announced with its record. -/
theorem entry_live
    (h : (pidOf e.name).isSome = true → e.callocOk = true ∧ e.read.succeeded = true) :
    (t.entry e).1 = none ∧ (t.entry e).2.1.map Event.process = (entryRecord e).toList := by
  rw [entry, entryRecord]
  cases hpid : pidOf e.name with
  | none => exact ⟨rfl, rfl⟩
  | some pid =>
      obtain ⟨hok, hread⟩ := h (by rw [hpid]; rfl)
      obtain ⟨data, hdata⟩ : ∃ data, e.read = .success data := by
        cases hr : e.read with
        | success data => exact ⟨data, rfl⟩
        | failure result errno partly => simp [hr, ReadOutcome.succeeded] at hread
      simp only [process, Option.bind_some]
      cases hlookup : t.lookup pid with
      | none => simp [add, hok, hdata, recordOf, Event.process]
      | some p =>
          have hp : p.pid = pid := (mem_of_lookup hlookup).2
          simp [hdata, ReadOutcome.succeeded, recordOf, Event.process, Process.reread,
            ReadOutcome.apply, hp]

/-- A directory all of whose processes can be read: they are announced in its order. -/
theorem scan_live
    (h : ∀ e ∈ es, (pidOf e.name).isSome = true → e.callocOk = true ∧ e.read.succeeded = true) :
    (t.scan es).1 = none ∧ (t.scan es).2.1.map Event.process = es.filterMap entryRecord := by
  induction es generalizing t with
  | nil => exact ⟨rfl, rfl⟩
  | cons e es ih =>
      obtain ⟨hnone, hevents⟩ := entry_live (t := t) (h e List.mem_cons_self)
      rcases hr : t.entry e with ⟨r, events, t'⟩
      rw [hr] at hnone hevents
      obtain rfl : r = none := hnone
      obtain ⟨hscan, hrest⟩ := ih (t := t') fun e' he' => h e' (List.mem_cons_of_mem _ he')
      simp only [scan, hr]
      refine ⟨hscan, ?_⟩
      rw [List.map_append, hrest, hevents, List.filterMap_cons]
      cases entryRecord e <;> rfl

end Table
end ProcessList

namespace Tui
open ProcessList

/-- The entry is a process of the kernel, and its stat file holds the line. -/
structure Listed (e : Entry) (line : StatLine) : Prop where
  canonical : Canonical e.name
  callocOk : e.callocOk = true
  /-- The answers of the system from which the line is read. -/
  read : ∃ (answers : ReadAnswers) (uid : ℕ) (tail : List UInt8),
    e.read = answers.call.outcome ∧ answers.uid = some uid ∧
    (∀ c ∈ tail, isspace c = true) ∧ (line.text ++ tail).length ≤ 1023 ∧
    answers.file = .content (line.text ++ tail)
  state : line.state ≠ 0
  fields : 21 ≤ line.fields.length
  range : line.InRange

/-- The record of a process of the kernel. -/
theorem Listed.record {e : Entry} {line : StatLine} (L : Listed e line) :
    ∃ p, entryRecord e = some p ∧ p.pid = BitVec.ofNat 32 (decimal e.name) ∧
      p.data.name = line.name ∧ p.data.state = line.state := by
  obtain ⟨answers, uid, tail, hread, huid, htail, hlen, hfile⟩ := L.read
  have hpid : pidOf e.name = some (BitVec.ofNat 32 (decimal e.name)) := by
    rw [pidOf, if_pos ⟨L.canonical.1, List.all_eq_true.mpr L.canonical.2.1⟩]
  have houtcome := StatLine.outcome_line L.state huid htail L.fields L.range hlen hfile
  refine ⟨⟨_, line.data uid (snprintfString usernameMax answers.user.username), true⟩, ?_, rfl,
    rfl, rfl⟩
  rw [entryRecord, hpid, hread, houtcome]
  rfl

/-- The records come in the order of the entries. -/
theorem getElem?_records {es : List Entry} {stats : List StatLine}
    (h : List.Forall₂ Listed es stats) {i : ℕ} (hi : i < es.length) :
    (es.filterMap entryRecord)[i]? = entryRecord es[i] := by
  induction h generalizing i with
  | nil => exact absurd hi (Nat.not_lt_zero i)
  | cons L _ ih =>
      obtain ⟨p, hp, -⟩ := L.record
      rw [List.filterMap_cons, hp]
      cases i with
      | zero => exact hp.symm
      | succ i => simpa using ih (by simpa using hi)

/-- The entries that are processes. -/
def processes (entries : List Entry) : List Entry :=
  entries.filter fun e => (pidOf e.name).isSome

/-- The first rows of a round that can read every process are theirs, in the directory's
order. -/
theorem rows_live {v : View} {frame : Frame} {entries : List Entry} {stats : List StatLine}
    (hdir : frame.dir = some entries) (hlisted : List.Forall₂ Listed (processes entries) stats) :
    ∃ rest, v.rows frame = (processes entries).filterMap entryRecord ++ rest := by
  have hlive : ∀ e ∈ entries, (pidOf e.name).isSome = true →
      e.callocOk = true ∧ e.read.succeeded = true := by
    intro e he hsome
    have hmem : e ∈ processes entries := List.mem_filter.mpr ⟨he, hsome⟩
    obtain ⟨i, hi, rfl⟩ := List.getElem_of_mem hmem
    have hi' : i < stats.length := hlisted.length_eq ▸ hi
    have L : Listed (processes entries)[i] stats[i] := hlisted.get hi hi'
    obtain ⟨answers, uid, tail, hread, huid, htail, hlen, hfile⟩ := L.read
    refine ⟨L.callocOk, ?_⟩
    rw [hread, StatLine.outcome_line L.state huid htail L.fields L.range hlen hfile]
    rfl
  obtain ⟨hnone, hevents⟩ := Table.scan_live (t := v.table.map Process.deactivate) hlive
  have hfilter : entries.filterMap entryRecord = (processes entries).filterMap entryRecord := by
    rw [processes, List.filterMap_filter]
    refine List.filterMap_congr fun e _ => ?_
    cases hpid : pidOf e.name with
    | none => simp [entryRecord, hpid]
    | some pid => simp
  rw [View.rows, hdir, shown, Table.refresh]
  rcases hr : Table.scan (v.table.map Process.deactivate) entries with ⟨r, events, t'⟩
  rw [hr] at hnone hevents
  obtain rfl : r = none := hnone
  simp only [List.map_append, List.append_assoc]
  exact ⟨_, by rw [← hfilter, ← hevents]⟩

variable {ω : Type*} {c : Curses ω}

/-- **From the system to the screen.**  On a terminal of 73 columns or more, and when every
process drawn is plain: after any run, a round that can read every process of the directory shows
them in the directory's order, from the first row on: in row `i + 2` the name of the `i`-th
directory, the name of its command, and the word for its state. -/
theorem uiStart_shows_system (D : c.Documented) (m : Memory) (lines cols : ℤ) (frames : List Frame)
    (frame : Frame) (pad : ω) {list fuel : ℕ} {h : Heap ℕ} {malloc : Option ℕ}
    (hinit : m.heap.listInit list malloc = some h) (hused : list ∈ m.used)
    (hnames : ∀ f ∈ frames ++ [frame], ∀ e ∈ f.dir.getD [], ValidName e.name)
    (hfuel : ((frames ++ [frame]).map fun f => (f.dir.getD []).length).sum < fuel)
    (hcols : 73 ≤ cols) (hch : ∀ f ∈ frames, f.ch ≠ 113)
    (hplain : ∀ r ∈ ((View.start lines cols).run (frames ++ [frame])).2.1, ∀ p ∈ r.1.rows r.2,
      Plain p)
    {entries : List Entry} {stats : List StatLine} (hdir : frame.dir = some entries)
    (hlisted : List.Forall₂ Listed (processes entries) stats) :
    ∃ b s pad', uiStart list malloc fuel m lines cols (frames ++ [frame]) = some (b, s) ∧
      s.calls.foldl c.call pad = pad' ∧
      ∀ i (hi : i < (processes entries).length) (hi' : i < stats.length), i < 98 →
        Reads c pad' (i + 2) 1 (leftJustify 6 (processes entries)[i].name) ∧
        Reads c pad' (i + 2) 8 (leftJustify 50 stats[i].name) ∧
        ∃ word ∈ stateName stats[i].state, Reads c pad' (i + 2) 59 (leftJustify 10 word) := by
  obtain ⟨s, hrun, L⟩ := uiStart_layered D m lines cols (frames ++ [frame]) pad hinit hused
    hnames hfuel hcols hplain
  have hround : (((View.start lines cols).after frames).run [frame]).2.1 =
      [((View.start lines cols).after frames, frame)] := by
    simp only [View.run]
    split
    · rfl
    · rfl
  obtain ⟨rest, hrows⟩ := rows_live (v := (View.start lines cols).after frames) hdir hlisted
  rw [View.run_append hch, hround, List.map_append, List.map_singleton, hrows] at L
  refine ⟨_, s, _, hrun, rfl, ?_⟩
  intro i hi hi' hsmall
  have Li : Listed (processes entries)[i] stats[i] := hlisted.get hi hi'
  obtain ⟨p, hp, hpid, hname, hstate⟩ := Li.record
  have hrecord : ((processes entries).filterMap entryRecord)[i]? = some p :=
    (getElem?_records hlisted hi).trans hp
  have hlatest : Layers.latest (((View.start lines cols).run frames).2.1.map
      (fun r => r.1.rows r.2) ++ [(processes entries).filterMap entryRecord ++ rest]) i = some p := by
    have hlt := (List.getElem?_eq_some_iff.mp hrecord).1
    rw [Layers.latest_concat, List.getElem?_append_left hlt, hrecord, Option.some_or]
  have hrowNum : padRows = 100 := rfl
  obtain ⟨hp', hshows⟩ := L.shows i p (by omega) hlatest
  have hcanonical := Li.canonical
  -- The pid is printed as the directory is named.
  have hnum : p.pid.toNat = decimal (processes entries)[i].name := by
    have hvalid : ValidName (processes entries)[i].name :=
      hnames frame (by simp) _ (by
        rw [hdir]
        exact List.mem_of_mem_filter (List.getElem_mem hi))
    have hlt := (hvalid ⟨hcanonical.1, List.all_eq_true.mpr hcanonical.2.1⟩).2
    rw [hpid, BitVec.toNat_ofNat, Nat.mod_eq_of_lt hlt]
  obtain ⟨word, hword⟩ := Option.isSome_iff_exists.mp hp'.state
  refine ⟨?_, ?_, word, ?_, hshows.state word hword⟩
  · have hread := hshows.pid
    rwa [hp'.pidText.1, hnum, unsignedText_decimal hcanonical] at hread
  · rw [← hname]
    exact hshows.name
  · rw [← hstate]
    exact hword

/-- The directory lists the process with the imitating name. -/
def imitationEntry : Entry :=
  ⟨[55], (StatLine.imitationAnswers (StatLine.imitation.text ++ [10])).call.outcome, true, 1⟩

theorem listed_imitation : Listed imitationEntry StatLine.imitation where
  canonical := by decide +kernel
  callocOk := by rw [imitationEntry]
  read := ⟨StatLine.imitationAnswers (StatLine.imitation.text ++ [10]), 7, [10], rfl,
    rfl, List.forall_mem_singleton.mpr rfl, by decide, rfl⟩
  state := by decide
  fields := by decide
  range := by decide

theorem uiStart_shows_system_imitation : ∃ b s pad,
    uiStart 0 (some 1) 9 ⟨⟨fun _ => some ⟨none, none, none⟩, fun _ => none⟩, fun _ => none, [0]⟩
        24 80 [⟨some [⟨[46], .success .zero, true, 1⟩, imitationEntry], fun _ => ⟨0, [], []⟩, 0, 24,
          80⟩] = some (b, s) ∧
      s.calls.foldl grid.call (Pad.blank 0 0 0) = pad ∧
      Reads grid pad 2 1 [55, 32, 32, 32, 32, 32] ∧
      Reads grid pad 2 59 [82, 117, 110, 110, 105, 110, 103, 32, 32, 32] := by
  have hread : (⟨fun _ => some ⟨none, none, none⟩, fun _ => none⟩ : Heap ℕ).Readable 0 :=
    Option.some_ne_none _
  obtain ⟨h, hinit, -, -⟩ := Heap.listInit_spec hread 1
  have hplain : ∀ r ∈ ((View.start 24 80).run ([] ++ [(⟨some [⟨[46], .success .zero, true, 1⟩,
      imitationEntry], fun _ => ⟨0, [], []⟩, 0, 24, 80⟩ : Frame)])).2.1, ∀ p ∈ r.1.rows r.2,
      Plain p := by decide +kernel
  obtain ⟨b, s, pad, hrun, hpad, hrows⟩ := uiStart_shows_system grid_documented
    ⟨⟨fun _ => some ⟨none, none, none⟩, fun _ => none⟩, fun _ => none, [0]⟩ 24 80 []
    ⟨some [⟨[46], .success .zero, true, 1⟩, imitationEntry], fun _ => ⟨0, [], []⟩, 0, 24, 80⟩
    (Pad.blank 0 0 0) hinit List.mem_cons_self (by decide)
    (show (_ : ℕ) < 9 by decide) (by decide) (by decide) hplain rfl
    (show List.Forall₂ Listed [imitationEntry] [StatLine.imitation] from
      .cons listed_imitation .nil)
  obtain ⟨hpid, -, word, hword, hstate⟩ := hrows 0 (by decide) (by decide) (by decide)
  obtain rfl := Option.some.inj hword
  exact ⟨b, s, pad, hrun, hpad, hpid, hstate⟩

end Tui
end Ctm
