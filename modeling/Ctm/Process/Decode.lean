import Ctm.Process.Read

/-!
# Decoding the stat line

`process_read` against the line the kernel writes: the pid, the name in parentheses, the
state and the numbers from the fourth field on.  The name may hold any bytes but NUL, so
it may imitate the rest of the line; nothing after its parenthesis holds another one.

## Main definitions

* `StatLine`, `StatLine.text` — a line, and its bytes.
* `getProcessName_head` — the name is found, and the pointer goes behind it.
* `processRead_decodes` — a line is read back, and a line cut short is refused.
-/

namespace Ctm

/-- A line of `/proc/<pid>/stat`. -/
structure StatLine where
  pid : Numeral
  /-- The name of the command. -/
  name : List UInt8
  name_length : name.length ≤ 255
  name_notMem : 0 ∉ name
  state : UInt8
  state_space : isspace state = false
  state_ne : state ≠ 41
  /-- The fields from the fourth on. -/
  fields : List Numeral

namespace StatLine

/-- The line up to the end of the name. -/
def head (line : StatLine) : List UInt8 := line.pid.text ++ [32, 40] ++ line.name ++ [41]

/-- The line. -/
def text (line : StatLine) : List UInt8 := line.head ++ 32 :: line.state :: fieldsText line.fields

/-- The line up to field 23. -/
def beforeRss (line : StatLine) : List UInt8 :=
  line.head ++ 32 :: line.state :: fieldsText (line.fields.take 20)

/-- The value of a field, in the kernel's numbering. -/
def field (line : StatLine) (n : ℕ) : ℤ := (line.fields[n - 4]?.map Numeral.val).getD 0

/-- The fields that are stored are `unsigned long`s. -/
def InRange (line : StatLine) : Prop :=
  ∀ n ∈ [14, 15, 22, 24], 0 ≤ line.field n ∧ line.field n < 2 ^ 64

instance (line : StatLine) : Decidable line.InRange :=
  inferInstanceAs (Decidable (∀ n ∈ [14, 15, 22, 24], _))

/-- What a record holds of the line. -/
def data (line : StatLine) (uid : ℕ) (user : List UInt8) : ProcessData where
  name := line.name
  state := line.state
  utime := (line.field 14).toNat
  stime := (line.field 15).toNat
  startTime := (line.field 22).toNat
  rss := (line.field 24).toNat
  uid := uid
  user := user

end StatLine

/-! ## The name -/

theorem notMem_text (n : Numeral) {c : UInt8} (hminus : c ≠ 45) (hdigit : isdigit c = false) :
    c ∉ n.text := by
  intro hc
  rcases Numeral.mem_text hc with rfl | hc
  · exact hminus rfl
  · rw [hdigit] at hc
    cases hc

theorem notMem_fieldsText (fields : List Numeral) {c : UInt8} (hspace : c ≠ 32) (hminus : c ≠ 45)
    (hdigit : isdigit c = false) : c ∉ fieldsText fields := by
  intro hc
  rcases mem_fieldsText hc with rfl | rfl | hc
  · exact hspace rfl
  · exact hminus rfl
  · rw [hdigit] at hc
    cases hc

theorem notMem_of_isspace {s : List UInt8} (hs : ∀ c ∈ s, isspace c = true) {c : UInt8}
    (hc : isspace c = false) : c ∉ s := by
  intro hmem
  rw [hs c hmem] at hc
  cases hc

namespace StatLine
variable {line : StatLine} {rest tail : List UInt8}

/-- **The name is found whatever it imitates**: it ends at the last parenthesis of the line. -/
theorem getProcessName_head (hrest : 41 ∉ rest) :
    getProcessName (line.head ++ rest) =
      some (line.name, if rest.head? = some 32 then rest.drop 1 else rest) := by
  have hpid : (40 : UInt8) ∉ line.pid.text ++ [32] := by
    simp [notMem_text line.pid (c := 40) (by decide) (by decide)]
  have hsplit : line.head ++ rest =
      (line.pid.text ++ [32]) ++ 40 :: (line.name ++ 41 :: rest) := by
    simp [head]
  have hname : line.name.take (ioBufferSize - 1) = line.name :=
    List.take_of_length_le (line.name_length.trans (by decide))
  rw [hsplit, getProcessName_split hpid hrest, hname]

/-! ## The numbers -/

/-- The items stored of the fields. -/
theorem items_fields (hfields : 21 ≤ line.fields.length) (hrange : line.InRange) :
    items statNumbers line.fields = [.ulong (line.field 14).toNat, .ulong (line.field 15).toNat,
      .ulong (line.field 22).toNat, .ulong (line.field 24).toNat] := by
  have hvalue : ∀ n ∈ [14, 15, 22, 24], ∀ k (hk : k < line.fields.length), n - 4 = k →
      ulongOf line.fields[k].negative line.fields[k].digits = (line.field n).toNat := by
    intro n hn k hk hnk
    obtain ⟨hpos, hlt⟩ := hrange n hn
    have hfield : line.field n = line.fields[k].val := by
      simp [field, hnk, hk]
    rw [hfield] at hpos hlt ⊢
    exact ulongOf_eq hpos hlt
  have hnumbers : statNumbers = List.replicate 10 .skip ++ .ulong :: .ulong ::
      (List.replicate 6 .skip ++ .ulong :: (List.replicate 1 .skip ++ [.ulong])) := rfl
  rw [hnumbers, items_skip, items_ulong (by omega), items_ulong (by omega), items_skip,
    List.drop_drop, items_ulong (by omega), items_skip, List.drop_drop, items_ulong (by omega),
    hvalue 14 (by simp) _ _ rfl, hvalue 15 (by simp) _ _ rfl, hvalue 22 (by simp) _ _ rfl,
    hvalue 24 (by simp) _ _ rfl]
  rfl

theorem takeWhile_isdigit_of_isspace (htail : ∀ c ∈ tail, isspace c = true) :
    tail.takeWhile isdigit = [] := by
  cases tail with
  | nil => rfl
  | cons c tail =>
      refine List.takeWhile_cons_of_neg fun hc => ?_
      have hspace := htail c List.mem_cons_self
      rw [not_isspace_of_isdigit hc] at hspace
      cases hspace

/-- The whole line: the state and four numbers. -/
theorem sscanf_line (hfields : 21 ≤ line.fields.length) (hrange : line.InRange)
    (htail : ∀ c ∈ tail, isspace c = true) :
    sscanf (line.state :: (fieldsText line.fields ++ tail)) statFormat =
      (5, [.char line.state, .ulong (line.field 14).toNat, .ulong (line.field 15).toNat,
        .ulong (line.field 22).toNat, .ulong (line.field 24).toNat]) := by
  have hstate : (line.state :: (fieldsText line.fields ++ tail)).dropWhile isspace =
      line.state :: (fieldsText line.fields ++ tail) :=
    List.dropWhile_cons_of_neg (by simp [line.state_space])
  have hnumbers :=
    scanFrom_numerals isNumber_statNumbers hfields (takeWhile_isdigit_of_isspace htail)
  rcases sscanf_statFormat (line.state :: (fieldsText line.fields ++ tail)) with
    ⟨hnil, -⟩ | ⟨c, t, hcons, hscan⟩
  · rw [hstate] at hnil
    cases hnil
  · obtain ⟨rfl, rfl⟩ := List.cons.inj (hstate.symm.trans hcons)
    rw [hscan, hnumbers, items_fields hfields hrange]
    rfl

/-- A line cut short before field 24 has no fourth number. -/
theorem sscanf_cut {cut : List UInt8} (hcut : cut <+: fieldsText (line.fields.take 20))
    (htail : ∀ c ∈ tail, isspace c = true) :
    (sscanf (line.state :: (cut ++ tail)) statFormat).1 < 5 := by
  have hstate : (line.state :: (cut ++ tail)).dropWhile isspace = line.state :: (cut ++ tail) :=
    List.dropWhile_cons_of_neg (by simp [line.state_space])
  rcases sscanf_statFormat (line.state :: (cut ++ tail)) with ⟨-, hscan⟩ | ⟨c, t, hcons, hscan⟩
  · rw [hscan]
    decide
  · obtain ⟨rfl, rfl⟩ := List.cons.inj (hstate.symm.trans hcons)
    have hruns : runs (cut ++ tail) ≤ 20 := by
      obtain ⟨rest, hrest⟩ := hcut
      have hcutRuns := runs_le_append cut rest
      have hblank : runs tail = 0 := runs_eq_zero fun c hc => by
        by_contra hdigit
        have hspace := htail c hc
        rw [not_isspace_of_isdigit (by simpa using hdigit)] at hspace
        cases hspace
      have hfields : runs (fieldsText (line.fields.take 20)) = min 20 line.fields.length := by
        have hnil : ([] : List UInt8).takeWhile isdigit = [] := rfl
        simpa [runs] using runs_fieldsText (line.fields.take 20) hnil
      have hsum := runs_append_le_add cut tail
      rw [hrest, hfields] at hcutRuns
      omega
    have hthree : (statNumbers.take 20).count .ulong = 3 := by decide
    have hcount := (length_scanFrom_le isNumber_statNumbers (cut ++ tail)).trans
      ((List.take_sublist_take_left hruns).count_le Directive.ulong)
    rw [hthree] at hcount
    rw [hscan]
    simp only
    omega

/-- Nothing is read from white space. -/
theorem sscanf_blank {s : List UInt8} (hs : ∀ c ∈ s, isspace c = true) :
    (sscanf s statFormat).1 < 5 := by
  rcases sscanf_statFormat s with ⟨-, hscan⟩ | ⟨c, t, hcons, -⟩
  · rw [hscan]
    decide
  · rw [List.dropWhile_eq_nil_iff.mpr hs] at hcons
    cases hcons

/-- The same from right behind the name. -/
theorem sscanf_rest (hrest : rest <+: 32 :: line.state :: fieldsText (line.fields.take 20))
    (htail : ∀ c ∈ tail, isspace c = true) :
    (sscanf (if (rest ++ tail).head? = some 32 then (rest ++ tail).drop 1 else rest ++ tail)
      statFormat).1 < 5 := by
  rcases List.prefix_cons_iff.mp hrest with rfl | ⟨rest, rfl, hstate⟩
  · rw [List.nil_append]
    split
    · exact sscanf_blank fun c hc => htail c (List.mem_of_mem_drop hc)
    · exact sscanf_blank htail
  · rw [List.cons_append, List.head?_cons, if_pos rfl, List.drop_one, List.tail_cons]
    rcases List.prefix_cons_iff.mp hstate with rfl | ⟨cut, rfl, hcut⟩
    · exact sscanf_blank htail
    · exact sscanf_cut hcut htail

/-! ## The call -/

/-- A file that fits the buffer and holds no NUL is read as it is. -/
theorem ioReadFile_content {bytes : List UInt8} (hlen : bytes.length ≤ 1023) (hnul : 0 ∉ bytes) :
    ioReadFile (.content bytes) = (.success, some bytes) := by
  have htake : bytes.take (ioBufferSize - 1) = bytes := List.take_of_length_le hlen
  rw [ioReadFile, htake, cString_of_notMem hnul]

theorem nul_notMem_head : 0 ∉ line.head := by
  simp [head, line.name_notMem, notMem_text line.pid (c := 0) (by decide) (by decide)]

/-- A byte that is neither in the numbers nor white space, nor the state, is not behind the
name. -/
theorem notMem_rest {c : UInt8} {fields : List Numeral} (hspace : isspace c = false)
    (hminus : c ≠ 45) (hdigit : isdigit c = false) (hstate : line.state ≠ c) (htail : ∀ c ∈ tail, isspace c = true) :
    c ∉ 32 :: line.state :: fieldsText fields ++ tail := by
  have h32 : c ≠ 32 := by
    rintro rfl
    cases hspace
  simp [h32, Ne.symm hstate, notMem_fieldsText fields h32 hminus hdigit,
    notMem_of_isspace htail hspace]

open ProcessList

variable {answers : ReadAnswers} {uid : ℕ}

/-- The call once the name is read. -/
theorem call_head (huid : answers.uid = some uid)
    (hfile : ioReadFile answers.file = (.success, some (line.head ++ rest))) (hrest : 41 ∉ rest) :
    ∃ pos, pos = (if rest.head? = some 32 then rest.drop 1 else rest) ∧
      answers.call = if (sscanf pos statFormat).1 < 5 then
          .looked (.failure ⟨.errParseFile, by decide⟩ answers.errno
            (answers.fill uid line.name (sscanf pos statFormat).2)) answers.user
        else .looked (.success (answers.fill uid line.name (sscanf pos statFormat).2 .zero))
          answers.user := by
  refine ⟨_, rfl, ?_⟩
  simp only [ReadAnswers.call, huid, hfile, getProcessName_head hrest]

theorem nameFits_head (hfile : ioReadFile answers.file = (.success, some (line.head ++ rest)))
    (hrest : 41 ∉ rest) : answers.NameFits := by
  intro buffer name pos hbuffer hname
  rw [hfile] at hbuffer
  obtain rfl : line.head ++ rest = buffer := by simpa using hbuffer
  rw [getProcessName_head hrest] at hname
  obtain ⟨rfl, -⟩ := Prod.mk.inj (Option.some.inj hname)
  exact Nat.lt_succ_of_le line.name_length

/-- A file that starts with the name of a line is read as it is. -/
theorem ioReadFile_head (hlen : (line.head ++ rest).length ≤ 1023) (hnul : 0 ∉ rest)
    (hfile : answers.file = .content (line.head ++ rest)) :
    ioReadFile answers.file = (.success, some (line.head ++ rest)) := by
  have hbytes : 0 ∉ line.head ++ rest := by
    rw [List.mem_append, not_or]
    exact ⟨nul_notMem_head, hnul⟩
  rw [hfile]
  exact ioReadFile_content hlen hbytes

section Call
variable {m : Memory} {out : ℕ} {p : Process}

/-- The whole line is decoded. -/
theorem processRead_line (hstate : line.state ≠ 0) (hrec : m.records out = some p)
    (hout : out ∈ m.used) (huid : answers.uid = some uid) (htail : ∀ c ∈ tail, isspace c = true)
    (hfields : 21 ≤ line.fields.length) (hrange : line.InRange)
    (hlen : (line.text ++ tail).length ≤ 1023)
    (hfile : answers.file = .content (line.text ++ tail)) :
    ∃ m', processRead m (some out) answers = some (.successRead, m') ∧
      m'.records out = some { p with
        data := line.data uid (snprintfString usernameMax answers.user.username) } := by
  have htext : line.text ++ tail =
      line.head ++ (32 :: line.state :: fieldsText line.fields ++ tail) := by
    simp [text]
  rw [htext] at hlen hfile
  have hclose : 41 ∉ 32 :: line.state :: fieldsText line.fields ++ tail :=
    notMem_rest (by decide) (by decide) (by decide) line.state_ne htail
  have hnul : 0 ∉ 32 :: line.state :: fieldsText line.fields ++ tail :=
    notMem_rest (by decide) (by decide) (by decide) hstate htail
  have hread := ioReadFile_head hlen hnul hfile
  obtain ⟨pos, hpos, hcall⟩ := call_head huid hread hclose
  obtain rfl : pos = line.state :: (fieldsText line.fields ++ tail) := hpos
  rw [sscanf_line hfields hrange htail] at hcall
  obtain ⟨m', hrun, hrec'⟩ := processRead_spec hrec hout (nameFits_head hread hclose)
  rw [hcall] at hrun hrec'
  exact ⟨m', hrun, hrec'⟩

/-- A line cut short behind the name is refused. -/
theorem processRead_cut (hstate : line.state ≠ 0) (hrec : m.records out = some p)
    (hout : out ∈ m.used) (huid : answers.uid = some uid) (htail : ∀ c ∈ tail, isspace c = true)
    (hcut : rest <+: 32 :: line.state :: fieldsText (line.fields.take 20))
    (hlen : (line.head ++ (rest ++ tail)).length ≤ 1023)
    (hfile : answers.file = .content (line.head ++ (rest ++ tail))) :
    ∃ m', processRead m (some out) answers = some (.errParseFile, m') := by
  have hsubset : rest ++ tail ⊆ 32 :: line.state :: fieldsText (line.fields.take 20) ++ tail :=
    List.append_subset.mpr ⟨fun c hc => List.mem_append_left _ (hcut.subset hc),
      List.subset_append_right _ _⟩
  have hclose : 41 ∉ rest ++ tail := fun hmem =>
    notMem_rest (by decide) (by decide) (by decide) line.state_ne htail (hsubset hmem)
  have hnul : 0 ∉ rest ++ tail := fun hmem =>
    notMem_rest (by decide) (by decide) (by decide) hstate htail (hsubset hmem)
  have hread := ioReadFile_head hlen hnul hfile
  obtain ⟨pos, hpos, hcall⟩ := call_head huid hread hclose
  have hshort := sscanf_rest hcut htail
  rw [← hpos] at hshort
  obtain ⟨m', hrun, -⟩ := processRead_spec hrec hout (nameFits_head hread hclose)
  rw [hcall, if_pos hshort] at hrun
  exact ⟨m', hrun⟩

end Call

/-- **`process_read` decodes every stat line**, and refuses every line that is cut short
between the end of its name and field 24. -/
theorem processRead_decodes (line : StatLine) (hstate : line.state ≠ 0) {m : Memory} {out : ℕ}
    {p : Process} (hrec : m.records out = some p) (hout : out ∈ m.used)
    (huid : answers.uid = some uid) (htail : ∀ c ∈ tail, isspace c = true) :
    (21 ≤ line.fields.length → line.InRange → (line.text ++ tail).length ≤ 1023 →
      answers.file = .content (line.text ++ tail) →
        ∃ m', processRead m (some out) answers = some (.successRead, m') ∧
          m'.records out = some { p with
            data := line.data uid (snprintfString usernameMax answers.user.username) }) ∧
    ∀ cut, line.head <+: cut → cut <+: line.beforeRss → (cut ++ tail).length ≤ 1023 →
      answers.file = .content (cut ++ tail) →
        ∃ m', processRead m (some out) answers = some (.errParseFile, m') := by
  constructor
  · exact fun hfields hrange hlen hfile =>
      processRead_line hstate hrec hout huid htail hfields hrange hlen hfile
  · rintro cut ⟨rest, rfl⟩ hcut hlen hfile
    rw [List.append_assoc] at hlen hfile
    have hrest : rest <+: 32 :: line.state :: fieldsText (line.fields.take 20) :=
      (List.prefix_append_right_inj line.head).mp hcut
    exact processRead_cut hstate hrec hout huid htail hrest hlen hfile

/-- A name that imitates the rest of the line: `7 () S 1 () R -1 .. 7 ..`. -/
def imitation : StatLine where
  pid := ⟨false, [55], by decide, List.forall_mem_singleton.mpr rfl⟩
  name := [41, 32, 83, 32, 49, 32, 40]
  name_length := by decide
  name_notMem := by decide
  state := 82
  state_space := by decide
  state_ne := by decide
  fields := List.replicate 5 ⟨true, [49], by decide, List.forall_mem_singleton.mpr rfl⟩ ++
    List.replicate 16 ⟨false, [55], by decide, List.forall_mem_singleton.mpr rfl⟩

/-- The record at address 1, in use next to the list. -/
def imitationMemory : Memory := ⟨⟨fun _ => none, fun _ => none⟩, fun _ => some .zero, [1, 0]⟩

/-- The user of uid 7 has no name. -/
def imitationAnswers (bytes : List UInt8) : ReadAnswers :=
  ⟨some 7, .content bytes, ⟨true, 2, none, true, 3⟩, .ENOENT⟩

theorem processRead_decodes_imitation :
    (∃ m', processRead imitationMemory (some 1) (imitationAnswers (imitation.text ++ [10])) =
        some (.successRead, m') ∧
      m'.records 1 = some { Process.zero with
        data := imitation.data 7 (snprintfString usernameMax none) }) ∧
    ∃ m', processRead imitationMemory (some 1) (imitationAnswers (imitation.beforeRss ++ [10])) =
      some (.errParseFile, m') := by
  have hrec : imitationMemory.records 1 = some .zero := rfl
  have hout : 1 ∈ imitationMemory.used := by decide
  have huid : ∀ bytes, (imitationAnswers bytes).uid = some 7 := fun _ => rfl
  have htail : ∀ c ∈ [(10 : UInt8)], isspace c = true := List.forall_mem_singleton.mpr rfl
  obtain ⟨hline, -⟩ := processRead_decodes imitation (by decide) hrec hout
    (huid (imitation.text ++ [10])) htail
  obtain ⟨-, hcut⟩ := processRead_decodes imitation (by decide) hrec hout
    (huid (imitation.beforeRss ++ [10])) htail
  exact ⟨hline (by decide) (by decide) (by decide) rfl,
    hcut imitation.beforeRss (List.prefix_append _ _) (List.prefix_refl _) (by decide) rfl⟩

/-- A NUL for the state ends the string, and a cut in the name loses its parenthesis. -/
theorem decode_fails :
    (¬ ∀ (line : StatLine) m out p answers uid, m.records out = some p → out ∈ m.used →
      answers.uid = some uid → 21 ≤ line.fields.length → line.InRange → line.text.length ≤ 1023 →
        answers.file = .content line.text →
          ∃ m', processRead m (some out) answers = some (.successRead, m')) ∧
    ¬ ∀ (line : StatLine) m out p answers uid cut, m.records out = some p → out ∈ m.used →
      answers.uid = some uid → cut <+: line.beforeRss → cut.length ≤ 1023 →
        answers.file = .content cut →
          ∃ m', processRead m (some out) answers = some (.errParseFile, m') := by
  constructor
  · intro hall
    let line : StatLine :=
      { imitation with state := 0, state_space := by decide, state_ne := by decide }
    obtain ⟨m', hrun⟩ := hall line imitationMemory 1 .zero (imitationAnswers line.text) 7 rfl
      (by decide) rfl (by decide) (by decide) (by decide) rfl
    have hparse : (processRead imitationMemory (some 1) (imitationAnswers line.text)).map Prod.fst =
        some .errParseFile := by decide
    rw [hrun] at hparse
    cases hparse
  · intro hall
    let cut : List UInt8 := [55, 32, 40]
    obtain ⟨m', hrun⟩ := hall imitation imitationMemory 1 .zero (imitationAnswers cut) 7 cut rfl
      (by decide) rfl (by decide) (by decide) rfl
    have hname : (processRead imitationMemory (some 1) (imitationAnswers cut)).map Prod.fst =
        some .errReadName := by decide
    rw [hrun] at hname
    cases hname

end StatLine
end Ctm
