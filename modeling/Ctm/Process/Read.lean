import Ctm.Process.Records
import Ctm.Scanf

/-!
# Reading one process

`process_read` of `metrics/process.c`, with `io_read_file`, `get_process_name` and
`ctm_getusername_by_uid`.  The system's answers are an input: what `stat` says, what the
file holds, and how the lookup of the user goes.  The path `/proc/<pid>/stat` always fits
its buffer, so building it is left out.

The record is in the memory of the process list, whose `used` is the ledger of the blocks
taken by `malloc`, `calloc` and `strdup`.  `none` is a name that runs over the field of
the record, an access to memory that is not there, or a double free.

## Main definitions

* `ioReadFile`, `getProcessName`, `ctmGetusernameByUid` — the helpers.
* `statFormat` — the format of the call of `sscanf`.
* `ReadAnswers`, `processRead` — one call of `process_read`.
* `ReadCall`, `Memory.read` — its outcome, and what it does to the memory.
* `processRead_eq` — the two agree.
-/

namespace Ctm

/-- `IO_BUFFER_SIZE` -/
def ioBufferSize : ℕ := 1024

/-- `sizeof` the `name` of a `struct process`. -/
def sizeofName : ℕ := 256

/-- `USERNAME_MAX` -/
def usernameMax : ℕ := 32

/-! ## Files -/

/-- The `io_result_t`. -/
inductive IoResult
  | success
  | errInvalidArgument
  | errFileNotFound
  | errOpen
  | errRead
  | errInternal
  deriving DecidableEq, Repr

/-- `io_read_file`: its result, and the string left in the buffer. -/
def ioReadFile : FileAnswer → IoResult × Option (List UInt8)
  | .refused => (.errOpen, none)
  | .unreadable => (.errInternal, none)
  | .content bytes => (.success, some (cString (bytes.take (ioBufferSize - 1))))

/-! ## The stat line -/

/-- `get_process_name`: the name, and the string at the pointer it leaves behind it. -/
def getProcessName (s : List UInt8) : Option (List UInt8 × List UInt8) := do
  let opening ← strchr s 40
  let closing ← strrchr opening 41
  if opening.length ≤ closing.length then none
  else
    let nameLength := opening.length - closing.length - 1
    let nameLength := if ioBufferSize ≤ nameLength then ioBufferSize - 1 else nameLength
    let name := (opening.drop 1).take nameLength
    let rest := closing.drop 1
    some (name, if rest.head? = some 32 then rest.drop 1 else rest)

/-- The name is what stands between the first opening and the last closing parenthesis. -/
theorem getProcessName_split {pre name post : List UInt8} (hpre : 40 ∉ pre) (hpost : 41 ∉ post) :
    getProcessName (pre ++ 40 :: (name ++ 41 :: post)) =
      some (name.take (ioBufferSize - 1),
        if post.head? = some 32 then post.drop 1 else post) := by
  have hopen := strchr_append (t := name ++ 41 :: post) hpre
  have hclose : strrchr (40 :: (name ++ 41 :: post)) 41 = some (41 :: post) :=
    strrchr_append (s := 40 :: name) hpost
  have hbound : ¬ (40 :: (name ++ 41 :: post)).length ≤ (41 :: post).length := by
    simp
    omega
  have hlen : (40 :: (name ++ 41 :: post)).length - (41 :: post).length - 1 = name.length := by
    simp
    omega
  simp only [getProcessName, hopen, hclose, Option.bind_eq_bind, Option.bind_some, if_neg hbound,
    hlen, List.drop_one, List.tail_cons]
  by_cases hlong : ioBufferSize ≤ name.length
  · rw [if_pos hlong, List.take_append_of_le_length (by omega)]
    rfl
  · rw [if_neg hlong, List.take_append_of_le_length le_rfl, List.take_length,
      List.take_of_length_le (by omega)]
    rfl

/-- A name is found between two parentheses only. -/
theorem exists_of_getProcessName {s : List UInt8} {r : List UInt8 × List UInt8}
    (h : getProcessName s = some r) : ∃ pre name post,
      s = pre ++ 40 :: (name ++ 41 :: post) ∧ 40 ∉ pre ∧ 41 ∉ post := by
  obtain ⟨opening, hopen, h⟩ := Option.bind_eq_some_iff.mp h
  obtain ⟨closing, hclose, -⟩ := Option.bind_eq_some_iff.mp h
  obtain ⟨pre, tail, rfl, rfl, hpre⟩ := exists_of_strchr hopen
  obtain ⟨before, post, hsplit, rfl, hpost⟩ := exists_of_strrchr hclose
  cases before with
  | nil =>
      rw [List.nil_append] at hsplit
      exact absurd (List.cons.inj hsplit).1 (by decide)
  | cons c name =>
      obtain ⟨rfl, rfl⟩ := List.cons.inj hsplit
      exact ⟨pre, name, post, rfl, hpre, hpost⟩

/-- The numbers of the format: the fields of the line from the fourth on. -/
def statNumbers : List Directive :=
  [.skip, .skip, .skip, .skip, .skip, .skip, .skip, .skip, .skip, .skip, -- 4 to 13
    .ulong, -- 14: utime
    .ulong, -- 15: stime
    .skip, .skip, .skip, .skip, .skip, .skip, -- 16 to 21
    .ulong, -- 22: starttime
    .skip, -- 23
    .ulong] -- 24: rss

/-- The format of `process_read`, in which each conversion comes after a space. -/
def statFormat : List Directive := .space :: .char :: spaced statNumbers

/-- The pointers `process_read` passes to `sscanf`. -/
def statTargets : List (ProcessData → Arg → ProcessData) :=
  [fun d x => match x with | .char c => { d with state := c } | .ulong _ => d,
    fun d x => match x with | .ulong n => { d with utime := n } | .char _ => d,
    fun d x => match x with | .ulong n => { d with stime := n } | .char _ => d,
    fun d x => match x with | .ulong n => { d with startTime := n } | .char _ => d,
    fun d x => match x with | .ulong n => { d with rss := n } | .char _ => d]

/-- The record after `sscanf` has stored `args`. -/
def ProcessData.store (data : ProcessData) (args : List Arg) : ProcessData :=
  (statTargets.zip args).foldl (fun d x => x.1 d x.2) data

theorem isNumber_statNumbers : ∀ d ∈ statNumbers, d.IsNumber := by decide

/-- The state comes first, and numbers after it. -/
theorem sscanf_statFormat (s : List UInt8) :
    (s.dropWhile isspace = [] ∧ sscanf s statFormat = (-1, [])) ∨
      ∃ c t, s.dropWhile isspace = c :: t ∧
        sscanf s statFormat = ((((scanFrom true (spaced statNumbers) t).2.length + 1 : ℕ) : ℤ),
          .char c :: (scanFrom true (spaced statNumbers) t).2) := by
  cases hs : s.dropWhile isspace with
  | nil =>
      refine .inl ⟨rfl, ?_⟩
      simp [sscanf, statFormat, scanFrom, hs, Directive.scan]
  | cons c t =>
      refine .inr ⟨c, t, rfl, ?_⟩
      simp [sscanf, statFormat, scanFrom, hs, Directive.scan, scanFrom_converted]

/-- Five items are the state and four numbers, and overwrite all they are stored to. -/
theorem store_of_five {s : List UInt8} (h : ¬ (sscanf s statFormat).1 < 5) (d d' : ProcessData)
    (hname : d.name = d'.name) (huid : d.uid = d'.uid) (huser : d.user = d'.user) :
    d.store (sscanf s statFormat).2 = d'.store (sscanf s statFormat).2 := by
  rcases sscanf_statFormat s with ⟨-, hs⟩ | ⟨c, t, -, hs⟩
  · rw [hs] at h
    exact absurd (by decide) h
  · have hcount := (length_scanFrom_le isNumber_statNumbers t).trans
      ((List.take_sublist _ _).count_le _)
    have hfour : statNumbers.count .ulong = 4 := by decide
    have hnumbers : ∀ arg ∈ (scanFrom true (spaced statNumbers) t).2, ∃ n, arg = .ulong n :=
      fun arg => isUlong_of_mem_scanFrom isNumber_statNumbers
    rw [hs] at h ⊢
    rw [hfour] at hcount
    simp only at h
    generalize (scanFrom true (spaced statNumbers) t).2 = args at h hcount hnumbers
    obtain ⟨a₁, a₂, a₃, a₄, rfl⟩ := List.length_eq_four.mp (show args.length = 4 by omega)
    obtain ⟨n₁, rfl⟩ := hnumbers a₁ (by simp)
    obtain ⟨n₂, rfl⟩ := hnumbers a₂ (by simp)
    obtain ⟨n₃, rfl⟩ := hnumbers a₃ (by simp)
    obtain ⟨n₄, rfl⟩ := hnumbers a₄ (by simp)
    simp [ProcessData.store, statTargets, hname, huid, huser]

/-! ## The user -/

/-- What the system answers in `ctm_getusername_by_uid`. -/
structure UserLookup where
  /-- Whether and where `malloc` finds room for the buffer. -/
  bufOk : Bool
  bufWant : ℕ
  /-- `pw_name`, when there is an entry for the uid. -/
  pwName : Option (List UInt8)
  /-- Whether and where `strdup` finds room for the name. -/
  dupOk : Bool
  dupWant : ℕ

/-- The name `ctm_getusername_by_uid` returns. -/
def UserLookup.username (user : UserLookup) : Option (List UInt8) :=
  if user.bufOk && user.dupOk then user.pwName else none

/-- `snprintf(buffer, size, "%s", s)`; a NULL string prints as `(null)`. -/
def snprintfString (size : ℕ) (s : Option (List UInt8)) : List UInt8 :=
  (s.getD [40, 110, 117, 108, 108, 41]).take (size - 1)

namespace ProcessList

/-- `malloc` of a block that holds no record. -/
def Memory.malloc (m : Memory) (ok : Bool) (want : ℕ) : Option (ℕ × Memory) :=
  if ok then some (m.place want, { m with used := m.place want :: m.used }) else none

/-- `ctm_getusername_by_uid`: the string it returns, with its address, or NULL. -/
def ctmGetusernameByUid (m : Memory) (user : UserLookup) :
    Option (Option (ℕ × List UInt8) × Memory) :=
  match m.malloc user.bufOk user.bufWant with
  | none => some (none, m)
  | some (buf, m) =>
      match user.pwName with
      | none => do
          let m ← m.free buf
          some (none, m)
      | some pwName =>
          match m.malloc user.dupOk user.dupWant with
          | none => do
              let m ← m.free buf
              some (none, m)
          | some (username, m) => do
              let m ← m.free buf
              some (some (username, pwName), m)

/-! ## The call -/

/-- What the system answers to one call of `process_read`. -/
structure ReadAnswers where
  /-- `st_uid`, unless `stat` fails. -/
  uid : Option ℕ
  file : FileAnswer
  user : UserLookup
  /-- The `errno` left behind. -/
  errno : Errno

/-- An assignment to fields of the record at `out`. -/
def Memory.assign (m : Memory) (out : ℕ) (f : ProcessData → ProcessData) : Option Memory :=
  m.modify out fun p => { p with data := f p.data }

/-- `process_read` -/
def processRead (m : Memory) (out : Option ℕ) (answers : ReadAnswers) :
    Option (ProcessResult × Memory) :=
  match out with
  | none => some (.errInvalidArg, m)
  | some out =>
      match answers.uid with
      | none => some (.successNotFound, m)
      | some uid =>
          match ioReadFile answers.file with
          | (.success, some buffer) =>
              match getProcessName buffer with
              | none => some (.errReadName, m)
              | some (name, pos) =>
                  -- The name and its NUL have to fit the field.
                  if sizeofName ≤ name.length then none
                  else do
                    let m ← m.assign out fun d => { d with name := name }
                    let m ← m.assign out fun d => { d with uid := uid, state := 0 }
                    let (username, m) ← ctmGetusernameByUid m answers.user
                    let m ← m.assign out fun d =>
                      { d with user := snprintfString usernameMax (username.map Prod.snd) }
                    let (stored, args) := sscanf pos statFormat
                    let m ← m.assign out fun d => d.store args
                    if stored < 5 then some (.errParseFile, m)
                    else some (.successRead, m)
          | _ => some (.errReadFile, m)

/-! ## How a call ends -/

/-- The outcome of a call, with the lookup of the user if the call gets that far.  A call that
ends before has not written to the record. -/
inductive ReadCall
  | stopped (result : { r : ProcessResult // r ≠ .successRead }) (errno : Errno)
  | looked (outcome : ReadOutcome) (user : UserLookup)

/-- How the call ends. -/
def ReadCall.outcome : ReadCall → ReadOutcome
  | stopped result errno => .failure result errno id
  | looked outcome _ => outcome

/-- The name a call is given for the user. -/
def ReadCall.username : ReadCall → Option (List UInt8)
  | stopped _ _ => none
  | looked _ user => user.username

/-- What a call does to the memory. -/
def Memory.read (m : Memory) (out : ℕ) : ReadCall → Option Memory
  | .stopped _ _ => some m
  | .looked outcome user => do
      let (_, m) ← ctmGetusernameByUid m user
      m.assign out outcome.apply

namespace ReadAnswers

/-- The record once the name is known and `args` are stored. -/
def fill (answers : ReadAnswers) (uid : ℕ) (name : List UInt8) (args : List Arg)
    (data : ProcessData) : ProcessData :=
  { data with
    name := name, uid := uid, state := 0,
    user := snprintfString usernameMax answers.user.username }.store args

/-- The outcome of a call. -/
def call (answers : ReadAnswers) : ReadCall :=
  match answers.uid with
  | none => .stopped ⟨.successNotFound, by decide⟩ answers.errno
  | some uid =>
      match ioReadFile answers.file with
      | (.success, some buffer) =>
          match getProcessName buffer with
          | none => .stopped ⟨.errReadName, by decide⟩ answers.errno
          | some (name, pos) =>
              let (stored, args) := sscanf pos statFormat
              if stored < 5 then
                .looked (.failure ⟨.errParseFile, by decide⟩ answers.errno
                  (answers.fill uid name args)) answers.user
              else .looked (.success (answers.fill uid name args .zero)) answers.user
      | _ => .stopped ⟨_, ProcessResult.errReadFile_ne⟩ answers.errno

/-- The name in the file fits the field of the record. -/
def NameFits (answers : ReadAnswers) : Prop :=
  ∀ buffer name pos, ioReadFile answers.file = (.success, some buffer) →
    getProcessName buffer = some (name, pos) → name.length < sizeofName

end ReadAnswers

/-! ## The lookup and the memory -/

section Memory
variable {m : Memory} {out b : ℕ} {p q : Process}

/-- The record at `out` becomes `p`. -/
def Memory.setRecord (m : Memory) (out : ℕ) (p : Process) : Memory :=
  { m with records := Function.update m.records out (some p) }

theorem Memory.records_setRecord (m : Memory) (out : ℕ) (p : Process) :
    (m.setRecord out p).records out = some p := Function.update_self _ _ _

@[simp] theorem Memory.setRecord_setRecord :
    (m.setRecord out p).setRecord out q = m.setRecord out q := by
  simp [Memory.setRecord]

theorem Memory.assign_eq (h : m.records out = some p) (f : ProcessData → ProcessData) :
    m.assign out f = some (m.setRecord out { p with data := f p.data }) := by
  rw [Memory.assign, Memory.modify, h]
  rfl

theorem Memory.assign_setRecord (f : ProcessData → ProcessData) :
    (m.setRecord out p).assign out f = some (m.setRecord out { p with data := f p.data }) := by
  rw [Memory.assign_eq (Memory.records_setRecord m out p), Memory.setRecord_setRecord]

/-- `free` of another block. -/
theorem Memory.free_setRecord (hne : b ≠ out) :
    (m.setRecord out p).free b = (m.free b).map fun m => m.setRecord out p := by
  by_cases hb : b ∈ m.used
  · simp [Memory.free, Memory.setRecord, hb, Function.update_comm hne]
  · simp [Memory.free, Memory.setRecord, hb]

theorem Memory.malloc_setRecord (m : Memory) (out : ℕ) (p : Process) (ok : Bool) (want : ℕ) :
    (m.setRecord out p).malloc ok want =
      (m.malloc ok want).map fun r => (r.1, r.2.setRecord out p) := by
  cases ok <;> rfl

/-- A new block is none of those in use. -/
theorem Memory.malloc_ne {ok : Bool} {want : ℕ} {m' : Memory} (hout : out ∈ m.used)
    (h : m.malloc ok want = some (b, m')) : b ≠ out := by
  cases ok with
  | false => cases h
  | true =>
      obtain ⟨rfl, -⟩ := Prod.mk.inj (Option.some.inj h)
      exact fun heq => place_notMem m want (heq ▸ hout)

/-- The blocks in use stay as they are, and `names` are added. -/
structure Memory.Gains (m m' : Memory) (names : List ℕ) : Prop where
  used : m'.used = names ++ m.used
  nodes : ∀ b ∈ m.used, m'.heap.nodes b = m.heap.nodes b
  counts : m'.heap.counts = m.heap.counts
  records : ∀ b ∈ m.used, m'.records b = m.records b

theorem Memory.gains_refl (m : Memory) : m.Gains m [] :=
  ⟨rfl, fun _ _ => rfl, rfl, fun _ _ => rfl⟩

/-- The buffer of the lookup comes and goes. -/
theorem Memory.free_buffer {names : List ℕ} (hbuf : b ∉ m.used) (hnames : b ∉ names) :
    ∃ m', Memory.free { m with used := names ++ b :: m.used } b = some m' ∧ m.Gains m' names := by
  have hmem : b ∈ names ++ b :: m.used := by simp
  refine ⟨_, if_pos hmem, ?_, ?_, rfl, ?_⟩
  · change (names ++ b :: m.used).erase b = names ++ m.used
    rw [List.erase_append_right _ hnames, List.erase_cons_head]
  · intro c hc
    exact Function.update_of_ne (by rintro rfl; exact hbuf hc) _ _
  · intro c hc
    exact Function.update_of_ne (by rintro rfl; exact hbuf hc) _ _

/-- `ctm_getusername_by_uid` leaves behind the block of the name it returns, and no other. -/
theorem ctmGetusernameByUid_spec (m : Memory) (user : UserLookup) :
    ∃ r m', ctmGetusernameByUid m user = some (r, m') ∧ r.map Prod.snd = user.username ∧
      m.Gains m' (r.map Prod.fst).toList := by
  cases hbuf : user.bufOk with
  | false =>
      refine ⟨none, m, ?_, ?_, m.gains_refl⟩
      · simp [ctmGetusernameByUid, Memory.malloc, hbuf]
      · simp [UserLookup.username, hbuf]
  | true =>
      have hfree := place_notMem m user.bufWant
      obtain ⟨m₁, hm₁, hgains₁⟩ : ∃ m₁,
          Memory.free { m with used := m.place user.bufWant :: m.used } (m.place user.bufWant) =
            some m₁ ∧ m.Gains m₁ [] :=
        Memory.free_buffer hfree List.not_mem_nil
      cases hname : user.pwName with
      | none =>
          refine ⟨none, m₁, ?_, ?_, hgains₁⟩
          · simp [ctmGetusernameByUid, Memory.malloc, hbuf, hname, hm₁]
          · simp [UserLookup.username, hname]
      | some pwName =>
          cases hdup : user.dupOk with
          | false =>
              refine ⟨none, m₁, ?_, ?_, hgains₁⟩
              · simp [ctmGetusernameByUid, Memory.malloc, hbuf, hname, hdup, hm₁]
              · simp [UserLookup.username, hdup]
          | true =>
              let mbuf : Memory := { m with used := m.place user.bufWant :: m.used }
              have hplace := place_notMem mbuf user.dupWant
              have hne : m.place user.bufWant ∉ [mbuf.place user.dupWant] := by
                intro hmem
                rw [List.mem_singleton] at hmem
                exact hplace (hmem ▸ List.mem_cons_self)
              obtain ⟨m₂, hm₂, hgains₂⟩ := Memory.free_buffer hfree hne
              rw [List.singleton_append] at hm₂
              refine ⟨some (mbuf.place user.dupWant, pwName), m₂, ?_, ?_, hgains₂⟩
              · simp [ctmGetusernameByUid, Memory.malloc, hbuf, hname, hdup, mbuf, hm₂]
              · simp [UserLookup.username, hbuf, hname, hdup]

/-- The lookup does not look at the records in use. -/
theorem ctmGetusernameByUid_setRecord (hout : out ∈ m.used) (user : UserLookup) :
    ctmGetusernameByUid (m.setRecord out p) user =
      (ctmGetusernameByUid m user).map fun r => (r.1, r.2.setRecord out p) := by
  rw [ctmGetusernameByUid, ctmGetusernameByUid, Memory.malloc_setRecord]
  rcases hbuf : m.malloc user.bufOk user.bufWant with _ | ⟨buf, m₁⟩
  · rfl
  · have hne := Memory.malloc_ne hout hbuf
    cases user.pwName with
    | none =>
        simp only [Option.map_some, Memory.free_setRecord hne]
        cases m₁.free buf <;> rfl
    | some pwName =>
        simp only [Option.map_some, Memory.malloc_setRecord]
        rcases m₁.malloc user.dupOk user.dupWant with _ | ⟨username, m₂⟩
        · simp only [Option.map_none, Memory.free_setRecord hne]
          cases m₁.free buf <;> rfl
        · simp only [Option.map_some, Memory.free_setRecord hne]
          cases m₂.free buf <;> rfl

/-- A call leaves behind the block of the name it is given, and writes the record. -/
theorem Memory.read_spec (hrec : m.records out = some p) (call : ReadCall) :
    ∃ m₁ names, m.Gains m₁ names ∧ names.length = call.username.toList.length ∧
      m.read out call = m₁.assign out call.outcome.apply := by
  cases call with
  | stopped result errno =>
      refine ⟨m, [], m.gains_refl, rfl, ?_⟩
      have hsame : m.setRecord out p = m := by
        rw [Memory.setRecord, Function.update_eq_self_iff.mpr hrec.symm]
      rw [Memory.assign_eq hrec]
      exact congrArg some hsame.symm
  | looked outcome user =>
      obtain ⟨r, m₁, hlookup, hname, hgains⟩ := ctmGetusernameByUid_spec m user
      refine ⟨m₁, _, hgains, ?_, ?_⟩
      · rw [ReadCall.username, ← hname]
        cases r <;> rfl
      · simp only [Memory.read, hlookup, Option.bind_eq_bind, Option.bind_some]
        rfl

/-- **`process_read` is a call with the outcome the system's answers give it.** -/
theorem processRead_eq (hrec : m.records out = some p) (hout : out ∈ m.used)
    {answers : ReadAnswers} (hfits : answers.NameFits) :
    processRead m (some out) answers =
      (m.read out answers.call).map fun m => (answers.call.outcome.result, m) := by
  cases huid : answers.uid with
  | none => simp [processRead, ReadAnswers.call, huid, Memory.read, ReadCall.outcome,
      ReadOutcome.result]
  | some uid =>
      cases hfile : answers.file with
      | refused => simp [processRead, ReadAnswers.call, huid, hfile, ioReadFile, Memory.read,
          ReadCall.outcome, ReadOutcome.result]
      | unreadable => simp [processRead, ReadAnswers.call, huid, hfile, ioReadFile, Memory.read,
          ReadCall.outcome, ReadOutcome.result]
      | content bytes =>
          rcases hname : getProcessName (cString (bytes.take (ioBufferSize - 1))) with
            _ | ⟨name, pos⟩
          · simp [processRead, ReadAnswers.call, huid, hfile, ioReadFile, hname, Memory.read,
              ReadCall.outcome, ReadOutcome.result]
          · have hlen : ¬ sizeofName ≤ name.length := by
              have := hfits _ _ _ (by rw [hfile]; rfl) hname
              omega
            obtain ⟨r, m₁, hlookup, huser, hgains⟩ := ctmGetusernameByUid_spec m answers.user
            have hrec₁ : m₁.records out = some p := (hgains.records out hout).trans hrec
            -- The four assignments come to one, behind the lookup.
            have hcode : processRead m (some out) answers =
                some (if (sscanf pos statFormat).1 < 5 then .errParseFile else .successRead,
                  m₁.setRecord out { p with
                    data := answers.fill uid name (sscanf pos statFormat).2 p.data }) := by
              simp only [processRead, huid, hfile, ioReadFile, hname, if_neg hlen,
                Memory.assign_eq hrec, Memory.assign_setRecord, Option.bind_eq_bind,
                Option.bind_some, ctmGetusernameByUid_setRecord hout, hlookup, Option.map_some, huser]
              split <;> rfl
            by_cases hfive : (sscanf pos statFormat).1 < 5
            · rw [hcode]
              simp [ReadAnswers.call, huid, hfile, ioReadFile, hname, hfive, Memory.read, hlookup,
                Memory.assign_eq hrec₁, ReadCall.outcome, ReadOutcome.result, ReadOutcome.apply]
            · have hfill : answers.fill uid name (sscanf pos statFormat).2 p.data =
                  answers.fill uid name (sscanf pos statFormat).2 .zero :=
                store_of_five hfive _ _ rfl rfl rfl
              rw [hcode, hfill]
              simp [ReadAnswers.call, huid, hfile, ioReadFile, hname, hfive, Memory.read, hlookup,
                Memory.assign_eq hrec₁, ReadCall.outcome, ReadOutcome.result, ReadOutcome.apply]

/-- How a call ends, and what the record holds afterwards. -/
theorem processRead_spec (hrec : m.records out = some p) (hout : out ∈ m.used)
    {answers : ReadAnswers} (hfits : answers.NameFits) :
    ∃ m', processRead m (some out) answers = some (answers.call.outcome.result, m') ∧
      m'.records out = some { p with data := answers.call.outcome.apply p.data } := by
  obtain ⟨m₁, names, hgains, -, hread⟩ := Memory.read_spec hrec answers.call
  have hrec₁ : m₁.records out = some p := (hgains.records out hout).trans hrec
  refine ⟨_, ?_, Memory.records_setRecord m₁ out _⟩
  rw [processRead_eq hrec hout hfits, hread, Memory.assign_eq hrec₁]
  rfl

end Memory

end ProcessList
end Ctm
