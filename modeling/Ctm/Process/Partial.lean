import Ctm.Process.Read

/-!
# What a call of `process_read` leaves in the record

`process_read` writes straight to the fields of the record.  Its exits before the name is
found leave the record alone; the exit after `sscanf` leaves behind the name, the owner and
the items scanned so far.  The name is cut to the size of another buffer, not to that of
its field.

## Main definitions

* `nameBytes`, `ShortNames` — what `get_process_name` stores, and when that fits.
* `nameBytes_fits_iff` — the two agree.
* `AllOrNothing`, `NothingNew` — a call that fails leaves the record alone, and when.
* `allOrNothing_iff` — the two agree.
-/

namespace Ctm

/-! ## The name and its field -/

/-- The bytes `get_process_name` stores at `out`: the name and a NUL. -/
def nameBytes (s : List UInt8) : List UInt8 :=
  match getProcessName s with
  | none => []
  | some (name, _) => name ++ [0]

/-- No more than 255 bytes stand between the first opening parenthesis and the last closing one
behind it. -/
def ShortNames (s : List UInt8) : Prop :=
  ∀ pre name post, s = pre ++ 40 :: (name ++ 41 :: post) → 40 ∉ pre → 41 ∉ post →
    name.length ≤ 255

/-- The name is cut to the size of the buffer. -/
theorem length_nameBytes {pre name post : List UInt8} (hpre : 40 ∉ pre) (hpost : 41 ∉ post) :
    (nameBytes (pre ++ 40 :: (name ++ 41 :: post))).length =
      min (ioBufferSize - 1) name.length + 1 := by
  rw [nameBytes, getProcessName_split hpre hpost]
  simp only [List.length_append, List.length_take, List.length_singleton]

/-- **When the name fits its field.** -/
theorem nameBytes_fits_iff {bytes buffer : List UInt8}
    (hread : ioReadFile (.content bytes) = (.success, some buffer)) :
    (nameBytes buffer).length ≤ sizeofName ↔ ShortNames (cString (bytes.take 1023)) := by
  obtain rfl : cString (bytes.take 1023) = buffer := Option.some.inj (Prod.mk.inj hread).2
  generalize cString (bytes.take 1023) = s
  have hmin : ∀ n, min (ioBufferSize - 1) n + 1 ≤ sizeofName ↔ n ≤ 255 := by
    intro n
    rw [ioBufferSize, sizeofName]
    omega
  constructor
  · rintro hfits pre name post rfl hpre hpost
    rwa [length_nameBytes hpre hpost, hmin] at hfits
  · intro hshort
    cases hname : getProcessName s with
    | none =>
        rw [nameBytes, hname]
        exact Nat.zero_le _
    | some r =>
        obtain ⟨pre, name, post, rfl, hpre, hpost⟩ := exists_of_getProcessName hname
        rw [length_nameBytes hpre hpost, hmin]
        exact hshort pre name post rfl hpre hpost

/-- The line of a process whose name is `n` letters long. -/
def lettersLine (n : ℕ) : List UInt8 := 40 :: (List.replicate n 97 ++ [41])

theorem length_lettersLine (n : ℕ) : (lettersLine n).length = n + 2 := by
  simp [lettersLine]

theorem ioReadFile_lettersLine {n : ℕ} (hn : n ≤ 1021) :
    ioReadFile (.content (lettersLine n)) = (.success, some (lettersLine n)) := by
  have hlen : (lettersLine n).length ≤ ioBufferSize - 1 := by
    rw [length_lettersLine, ioBufferSize]
    omega
  have hnul : 0 ∉ lettersLine n := by
    simp [lettersLine]
  rw [ioReadFile, List.take_of_length_le hlen, cString_of_notMem hnul]

/-- A name of 255 letters fits. -/
theorem nameBytes_fits_iff_letters : (nameBytes (lettersLine 255)).length ≤ sizeofName := by
  refine (nameBytes_fits_iff (ioReadFile_lettersLine (by decide))).mpr ?_
  intro pre name post hsplit _ _
  have hstring : cString ((lettersLine 255).take 1023) <+: (lettersLine 255).take 1023 :=
    List.takeWhile_prefix _
  have hlen := (hstring.trans <| List.take_prefix _ _).length_le
  rw [hsplit, length_lettersLine] at hlen
  simp only [List.length_append, List.length_cons] at hlen
  omega

/-- A name of 256 letters takes 257 bytes. -/
theorem name_overflows : ¬ ∀ bytes buffer, bytes.length ≤ 1023 →
    ioReadFile (.content bytes) = (.success, some buffer) →
      (nameBytes buffer).length ≤ sizeofName := by
  intro hall
  have hfits := hall (lettersLine 256) _ (by rw [length_lettersLine]; decide)
    (ioReadFile_lettersLine (by decide))
  have hlen : (nameBytes ([] ++ 40 :: (List.replicate 256 97 ++ 41 :: []))).length = _ :=
    length_nameBytes List.not_mem_nil List.not_mem_nil
  rw [List.length_replicate] at hlen
  exact absurd (hlen.symm.trans_le hfits) (by decide)

/-! ## The record after a call -/

/-- The fields `sscanf` stores to, as items. -/
def ProcessData.args (d : ProcessData) : List Arg :=
  [.char d.state, .ulong d.utime, .ulong d.stime, .ulong d.startTime, .ulong d.rss]

/-- The record has what `sscanf` stores: no state if it stores nothing, and otherwise the items
it stores. -/
def ProcessData.Has (d : ProcessData) (args : List Arg) : Prop :=
  if args = [] then d.state = 0 else args <+: d.args

instance (d : ProcessData) (args : List Arg) : Decidable (d.Has args) :=
  inferInstanceAs (Decidable (if args = [] then _ else _))

/-- `sscanf` stores to no other field. -/
theorem ProcessData.store_frame (d : ProcessData) (args : List Arg) :
    (d.store args).name = d.name ∧ (d.store args).uid = d.uid ∧ (d.store args).user = d.user := by
  have htarget : ∀ f ∈ statTargets, ∀ (d : ProcessData) arg,
      (f d arg).name = d.name ∧ (f d arg).uid = d.uid ∧ (f d arg).user = d.user := by
    simp only [statTargets, List.forall_mem_cons]
    refine ⟨?_, ?_, ?_, ?_, ?_, by simp⟩ <;> rintro d (c | n) <;> exact ⟨rfl, rfl, rfl⟩
  have hzip : ∀ x ∈ statTargets.zip args, x.1 ∈ statTargets :=
    fun x hx => (List.of_mem_zip hx).1
  rw [ProcessData.store]
  generalize statTargets.zip args = stores at hzip
  induction stores generalizing d with
  | nil => exact ⟨rfl, rfl, rfl⟩
  | cons x stores ih =>
      obtain ⟨hname, huid, huser⟩ := htarget x.1 (hzip x List.mem_cons_self) d x.2
      rw [← hname, ← huid, ← huser]
      exact ih (x.1 d x.2) fun y hy => hzip y (List.mem_cons_of_mem _ hy)

/-- Numbers as items. -/
theorem exists_ulongs {args : List Arg} (h : ∀ arg ∈ args, ∃ n, arg = .ulong n) :
    ∃ ns : List ℕ, args = ns.map .ulong := by
  induction args with
  | nil => exact ⟨[], rfl⟩
  | cons arg args ih =>
      obtain ⟨n, rfl⟩ := h arg List.mem_cons_self
      obtain ⟨ns, rfl⟩ := ih fun arg' harg => h arg' (List.mem_cons_of_mem _ harg)
      exact ⟨n :: ns, rfl⟩

/-- Storing items changes nothing exactly when the record has them. -/
theorem ProcessData.store_eq_iff (d : ProcessData) (pos : List UInt8) :
    { d with state := 0 }.store (sscanf pos statFormat).2 = d ↔
      d.Has (sscanf pos statFormat).2 := by
  obtain ⟨name, state, utime, stime, startTime, rss, uid, user⟩ := d
  rcases sscanf_statFormat pos with ⟨-, hs⟩ | ⟨c, t, -, hs⟩
  · rw [hs]
    simp [ProcessData.store, ProcessData.Has, eq_comm]
  · rw [hs]
    have hcount := (length_scanFrom_le isNumber_statNumbers t).trans
      ((List.take_sublist _ _).count_le _)
    have hfour : statNumbers.count .ulong = 4 := by decide
    obtain ⟨ns, hns⟩ := exists_ulongs
      fun arg harg => isUlong_of_mem_scanFrom isNumber_statNumbers harg
    rw [hns, List.length_map, hfour] at hcount
    rw [hns]
    rcases ns with _ | ⟨n₁, _ | ⟨n₂, _ | ⟨n₃, _ | ⟨n₄, _ | ⟨n₅, ns⟩⟩⟩⟩⟩
    · simp [ProcessData.store, statTargets, ProcessData.Has, ProcessData.args]
    · simp [ProcessData.store, statTargets, ProcessData.Has, ProcessData.args]
    · simp [ProcessData.store, statTargets, ProcessData.Has, ProcessData.args]
    · simp [ProcessData.store, statTargets, ProcessData.Has, ProcessData.args]
    · simp [ProcessData.store, statTargets, ProcessData.Has, ProcessData.args]
    · simp only [List.length_cons] at hcount
      omega

namespace ProcessList
variable {m : Memory} {out uid : ℕ} {p : Process} {answers : ReadAnswers}
  {buffer name pos : List UInt8} {d : ProcessData}

/-- The record already is what the call writes: it has the name, the owner and the items scanned. -/
structure ReadAnswers.Known (answers : ReadAnswers) (uid : ℕ) (name pos : List UInt8)
    (d : ProcessData) : Prop where
  name : d.name = name
  uid : d.uid = uid
  user : d.user = snprintfString usernameMax answers.user.username
  items : d.Has (sscanf pos statFormat).2

/-- The call fills in what the record already is. -/
theorem fill_eq_iff : answers.fill uid name (sscanf pos statFormat).2 d = d ↔
    answers.Known uid name pos d := by
  constructor
  · intro hfill
    have hfields : (answers.fill uid name (sscanf pos statFormat).2 d).name = name ∧
        (answers.fill uid name (sscanf pos statFormat).2 d).uid = uid ∧
        (answers.fill uid name (sscanf pos statFormat).2 d).user =
          snprintfString usernameMax answers.user.username :=
      ProcessData.store_frame _ _
    rw [hfill] at hfields
    obtain ⟨hname, huid, huser⟩ := hfields
    refine ⟨hname, huid, huser, (d.store_eq_iff pos).mp ?_⟩
    rwa [ReadAnswers.fill, ← hname, ← huid, ← huser] at hfill
  · rintro ⟨rfl, rfl, huser, hitems⟩
    rw [ReadAnswers.fill, ← huser]
    exact (d.store_eq_iff pos).mpr hitems

/-- A call that does not succeed leaves the record as it was. -/
def AllOrNothing (m : Memory) (out : ℕ) (p : Process) (answers : ReadAnswers) : Prop :=
  ∃ r m', processRead m (some out) answers = some (r, m') ∧
    (r ≠ .successRead → m'.records out = some p)

/-- Where the call reaches a name, the name fits its field, and the line has five items or the
record already is what the call writes. -/
def NothingNew (answers : ReadAnswers) (d : ProcessData) : Prop :=
  ∀ uid buffer name pos, answers.uid = some uid →
    ioReadFile answers.file = (.success, some buffer) → getProcessName buffer = some (name, pos) →
      name.length < sizeofName ∧
        (5 ≤ (sscanf pos statFormat).1 ∨ answers.Known uid name pos d)

/-- The call reaches a name. -/
structure ReadAnswers.Named (answers : ReadAnswers) (uid : ℕ) (buffer name pos : List UInt8) :
    Prop where
  uid : answers.uid = some uid
  file : ioReadFile answers.file = (.success, some buffer)
  split : getProcessName buffer = some (name, pos)

/-- A call that reaches no name leaves the memory alone. -/
theorem processRead_stopped (h : ∀ uid buffer name pos, ¬ answers.Named uid buffer name pos) :
    ∃ r, processRead m (some out) answers = some (r, m) := by
  cases huid : answers.uid with
  | none => exact ⟨.successNotFound, by simp only [processRead, huid]⟩
  | some uid =>
      cases hfile : answers.file with
      | refused => exact ⟨.errReadFile, by simp only [processRead, huid, hfile, ioReadFile]⟩
      | unreadable => exact ⟨.errReadFile, by simp only [processRead, huid, hfile, ioReadFile]⟩
      | content bytes =>
          cases hname : getProcessName (cString (bytes.take (ioBufferSize - 1))) with
          | none => exact ⟨.errReadName, by simp only [processRead, huid, hfile, ioReadFile, hname]⟩
          | some r => exact absurd ⟨huid, by rw [hfile]; rfl, hname⟩ (h uid _ r.1 r.2)

/-! ### A call that reaches a name -/

section Named
variable (h : answers.Named uid buffer name pos)
include h

/-- It reaches no other. -/
theorem ReadAnswers.Named.unique {uid' : ℕ} {buffer' name' pos' : List UInt8}
    (h' : answers.Named uid' buffer' name' pos') : uid' = uid ∧ name' = name ∧ pos' = pos := by
  have huid := Option.some.inj (h'.uid.symm.trans h.uid)
  have hfile := (Prod.mk.inj (h'.file.symm.trans h.file)).2
  have hsplit := h'.split
  rw [Option.some.inj hfile, h.split] at hsplit
  obtain ⟨hname, hpos⟩ := Prod.mk.inj (Option.some.inj hsplit)
  exact ⟨huid, hname.symm, hpos.symm⟩

theorem ReadAnswers.Named.nothingNew_iff : NothingNew answers d ↔ name.length < sizeofName ∧
    (5 ≤ (sscanf pos statFormat).1 ∨ answers.Known uid name pos d) := by
  constructor
  · exact fun hnew => hnew uid buffer name pos h.uid h.file h.split
  · intro hnew uid' buffer' name' pos' huid hfile hname
    obtain ⟨rfl, rfl, rfl⟩ := h.unique ⟨huid, hfile, hname⟩
    exact hnew

theorem ReadAnswers.Named.fits (hshort : name.length < sizeofName) : answers.NameFits := by
  intro buffer' name' pos' hfile hname
  obtain ⟨-, rfl, -⟩ := h.unique ⟨h.uid, hfile, hname⟩
  exact hshort

/-- A name longer than its field overruns the record. -/
theorem ReadAnswers.Named.overruns (hlong : ¬ name.length < sizeofName) :
    processRead m (some out) answers = none := by
  simp only [processRead, h.uid, h.file, h.split, if_pos (Nat.le_of_not_lt hlong)]

/-- With fewer than five items the call fails, and leaves behind what it has written. -/
theorem ReadAnswers.Named.fails (hfive : (sscanf pos statFormat).1 < 5) :
    answers.call = .looked (.failure ⟨.errParseFile, by decide⟩ answers.errno
      (answers.fill uid name (sscanf pos statFormat).2)) answers.user := by
  simp only [ReadAnswers.call, h.uid, h.file, h.split, if_pos hfive]

theorem ReadAnswers.Named.succeeds (hfive : ¬ (sscanf pos statFormat).1 < 5) :
    answers.call = .looked (.success (answers.fill uid name (sscanf pos statFormat).2 .zero))
      answers.user := by
  simp only [ReadAnswers.call, h.uid, h.file, h.split, if_neg hfive]

/-- It is all-or-nothing when five items are scanned, or the record is what it writes. -/
theorem ReadAnswers.Named.kept_iff (hrec : m.records out = some p) (hout : out ∈ m.used)
    (hshort : name.length < sizeofName) : AllOrNothing m out p answers ↔
      5 ≤ (sscanf pos statFormat).1 ∨ answers.Known uid name pos p.data := by
  obtain ⟨m', hread, hrec'⟩ := processRead_spec hrec hout (h.fits hshort)
  by_cases hfive : (sscanf pos statFormat).1 < 5
  · rw [h.fails hfive] at hread hrec'
    rw [or_iff_right (Int.not_le.mpr hfive), ← fill_eq_iff]
    constructor
    · rintro ⟨r, m'', hread', hkept⟩
      obtain ⟨rfl, rfl⟩ := Prod.mk.inj (Option.some.inj (hread.symm.trans hread'))
      have hfailed : ProcessResult.errParseFile ≠ .successRead := by decide
      have hsame := Option.some.inj (hrec'.symm.trans (hkept hfailed))
      exact congrArg Process.data hsame
    · intro hfill
      refine ⟨_, m', hread, fun _ => ?_⟩
      rw [hrec']
      exact congrArg some (congrArg (fun d => { p with data := d }) hfill)
  · rw [h.succeeds hfive] at hread
    exact iff_of_true ⟨_, m', hread, fun h => absurd rfl h⟩ (.inl (Int.not_lt.mp hfive))

end Named

/-- **When `process_read` is all-or-nothing.** -/
theorem allOrNothing_iff (hrec : m.records out = some p) (hout : out ∈ m.used)
    (answers : ReadAnswers) : AllOrNothing m out p answers ↔ NothingNew answers p.data := by
  by_cases hnamed : ∃ uid buffer name pos, answers.Named uid buffer name pos
  · obtain ⟨uid, buffer, name, pos, hnamed⟩ := hnamed
    rw [hnamed.nothingNew_iff]
    by_cases hshort : name.length < sizeofName
    · rw [hnamed.kept_iff hrec hout hshort, and_iff_right hshort]
    · refine iff_of_false ?_ fun hnew => hshort hnew.1
      rintro ⟨r, m', hread, -⟩
      rw [hnamed.overruns hshort] at hread
      cases hread
  · push Not at hnamed
    obtain ⟨r, hread⟩ : ∃ r, processRead m (some out) answers = some (r, m) :=
      processRead_stopped hnamed
    refine iff_of_true ⟨r, m, hread, fun _ => hrec⟩ ?_
    intro uid buffer name pos huid hfile hname
    exact absurd ⟨huid, hfile, hname⟩ (hnamed uid buffer name pos)

/-- The line `7 (a) R` of a process without a user name. -/
def cutAnswers : ReadAnswers :=
  ⟨some 7, .content [55, 32, 40, 97, 41, 32, 82], ⟨true, 2, none, true, 3⟩, .clear⟩

/-- A record at address 1. -/
def oneRecord (p : Process) : Memory := ⟨⟨fun _ => none, fun _ => none⟩, fun _ => some p, [1]⟩

/-- The record left behind by the cut line. -/
def cutRecord : Process := ⟨7, ⟨[97], 82, 0, 0, 0, 0, 7, [40, 110, 117, 108, 108, 41]⟩, true⟩

/-- A second read of the cut line changes nothing. -/
theorem allOrNothing_iff_cut : AllOrNothing (oneRecord cutRecord) 1 cutRecord cutAnswers := by
  refine (allOrNothing_iff rfl List.mem_cons_self cutAnswers).mpr ?_
  intro uid buffer name pos huid hfile hname
  obtain rfl := Option.some.inj huid
  obtain rfl := Option.some.inj (Prod.mk.inj hfile).2
  obtain ⟨rfl, rfl⟩ := Prod.mk.inj (Option.some.inj hname)
  exact ⟨by decide, .inr ⟨rfl, rfl, rfl, by decide⟩⟩

/-- The first read of it fails, and leaves a name and an owner in a record that had none. -/
theorem partly_written : ¬ ∀ (m : Memory) out p answers, m.records out = some p → out ∈ m.used →
    AllOrNothing m out p answers := by
  intro hall
  obtain ⟨r, m', hread, hkept⟩ :=
    hall (oneRecord ⟨7, .zero, true⟩) 1 _ cutAnswers rfl List.mem_cons_self
  have hrun : (processRead (oneRecord ⟨7, .zero, true⟩) (some 1) cutAnswers).map
      (fun r => (r.1, r.2.records 1)) = some (.errParseFile, some cutRecord) := by
    decide
  rw [hread] at hrun
  obtain ⟨rfl, hrec⟩ := Prod.mk.inj (Option.some.inj hrun)
  exact absurd (hrec.symm.trans (hkept (by decide))) (by decide)

end ProcessList
end Ctm
