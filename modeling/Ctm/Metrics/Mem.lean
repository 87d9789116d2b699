import Ctm.Strings

/-!
# Reading `/proc/meminfo`

`mem_read` of `metrics/mem.c`.  It reads the file to a buffer, goes through the lines, and
stores the numbers behind three labels in the caller's record as it meets them.  What the
memory holds beyond the bytes that were read is an input.

## Main definitions

* `Mem` — the `struct mem`.
* `MemLabel` — the labels, with the field each is stored in.
* `memRead`, `memTotal`, `memFree`, `memAvailable` — the functions of the source.
* `MemScan.see`, `MemScan.seeAll` — what the lines of a string make of the record.
* `memRead_lines` — the call on lines of text.
-/

namespace Ctm

/-- The `mem_result_t`. -/
inductive MemResult
  | success
  | errInvalidArg
  | errOpen
  | errRead
  | errParse
  | errInternal
  deriving DecidableEq, Repr

/-- The `struct mem`. -/
@[ext] structure Mem where
  memTotal : ℕ
  memAvailable : ℕ
  memFree : ℕ
  deriving DecidableEq, Repr

/-- `sizeof` the `buffer` of `mem_read` and `cpu_read`. -/
def sizeofBuffer : ℕ := 1024

/-- The labels `mem_read` looks for. -/
inductive MemLabel
  | available
  | free
  | total
  deriving DecidableEq, Repr

namespace MemLabel

/-- `MemAvailable:`, `MemFree:` and `MemTotal:` -/
def word : MemLabel → List UInt8
  | available => [77, 101, 109, 65, 118, 97, 105, 108, 97, 98, 108, 101, 58]
  | free => [77, 101, 109, 70, 114, 101, 101, 58]
  | total => [77, 101, 109, 84, 111, 116, 97, 108, 58]

/-- The field behind a label. -/
def field : MemLabel → Mem → ℕ
  | available => Mem.memAvailable
  | free => Mem.memFree
  | total => Mem.memTotal

end MemLabel

/-- The state of the loop: the record, and the three flags. -/
structure MemScan where
  out : Mem
  readAvailable : Bool
  readFree : Bool
  readTotal : Bool
  deriving DecidableEq, Repr

/-- The flag of a label. -/
def MemScan.read (s : MemScan) : MemLabel → Bool
  | .available => s.readAvailable
  | .free => s.readFree
  | .total => s.readTotal

/-- The body of the loop of `mem_read`. -/
def memLine (s : MemScan) (line : List UInt8) : Option MemScan := do
  if ← strncmp line MemLabel.available.word then do
    let (n, _) ← strtoul (line.drop 13)
    some { s with out := { s.out with memAvailable := n }, readAvailable := true }
  else if ← strncmp line MemLabel.free.word then do
    let (n, _) ← strtoul (line.drop 8)
    some { s with out := { s.out with memFree := n }, readFree := true }
  else if ← strncmp line MemLabel.total.word then do
    let (n, _) ← strtoul (line.drop 9)
    some { s with out := { s.out with memTotal := n }, readTotal := true }
  else some s

/-- `mem_read`, with what the memory holds `beyond` the bytes read: its result, and the record at
`out`, which may be NULL. -/
def memRead (file : FileAnswer) (beyond : List UInt8) (out : Option Mem) :
    Option (MemResult × Option Mem) :=
  match out with
  | none => some (.errInvalidArg, none)
  | some out =>
      match file with
      | .refused => some (.errOpen, some out)
      | .unreadable => some (.errRead, some out)
      | .content bytes =>
          let read := bytes.take sizeofBuffer
          if read.length = 0 then some (.errRead, some out)
          else do
            let buffer := read ++ beyond
            let s ← strtokLoop 10 memLine (buffer.length + 1) buffer ⟨out, false, false, false⟩
            if s.readAvailable = false ∨ s.readFree = false ∨ s.readTotal = false then
              some (.errParse, some s.out)
            else some (.success, some { s.out with memAvailable := 0, memFree := 0, memTotal := 0 })

/-- An accessor: the result, and the number at `out`, which may be NULL. -/
def memGet (field : Mem → ℕ) (mem : Option Mem) (out : Option ℕ) : MemResult × Option ℕ :=
  match mem, out with
  | some mem, some _ => (.success, some (field mem))
  | _, out => (.errInvalidArg, out)

/-- `mem_total` -/
def memTotal : Option Mem → Option ℕ → MemResult × Option ℕ := memGet Mem.memTotal

/-- `mem_free` -/
def memFree : Option Mem → Option ℕ → MemResult × Option ℕ := memGet Mem.memFree

/-- `mem_available` -/
def memAvailable : Option Mem → Option ℕ → MemResult × Option ℕ := memGet Mem.memAvailable

/-! ## The lines of a string -/

/-- The number behind a label, in a line that starts with it. -/
def MemLabel.value (label : MemLabel) (line : List UInt8) : ℕ :=
  ((strtoul (line.drop label.word.length ++ [0])).map Prod.fst).getD 0

namespace MemScan
variable {s : MemScan} {line : List UInt8}

/-- What a line makes of the state. -/
def see (s : MemScan) (line : List UInt8) : MemScan :=
  if MemLabel.available.word <+: line then
    { s with out := { s.out with memAvailable := MemLabel.available.value line },
             readAvailable := true }
  else if MemLabel.free.word <+: line then
    { s with out := { s.out with memFree := MemLabel.free.value line }, readFree := true }
  else if MemLabel.total.word <+: line then
    { s with out := { s.out with memTotal := MemLabel.total.value line }, readTotal := true }
  else s

/-- What lines make of the state. -/
def seeAll (s : MemScan) (lines : List (List UInt8)) : MemScan := lines.foldl see s

end MemScan

/-- A line starts with one label only. -/
theorem MemLabel.eq_of_starts {label label' : MemLabel} {line : List UInt8}
    (h : label.word <+: line) (h' : label'.word <+: line) : label = label' := by
  have hwords : label.word <+: label'.word ∨ label'.word <+: label.word :=
    List.prefix_or_prefix_of_prefix h h'
  revert hwords
  cases label <;> cases label' <;> decide

theorem MemLabel.word_ne_nil (label : MemLabel) : label.word ≠ [] := by
  cases label <;> exact List.cons_ne_nil _ _

theorem MemLabel.nul_notMem_word (label : MemLabel) : 0 ∉ label.word := by
  cases label <;> decide

/-- The number behind a label is read within the line. -/
theorem MemLabel.strtoul_value {label : MemLabel} {line : List UInt8} (h : label.word <+: line) :
    ∃ rest, strtoul ((line ++ [0]).drop label.word.length) = some (label.value line, rest) := by
  have hmem : (0 : UInt8) ∈ line.drop label.word.length ++ [0] :=
    List.mem_append_right _ List.mem_cons_self
  obtain ⟨r, hr⟩ :=
    Option.isSome_iff_exists.mp (strtoul_isSome hmem rfl rfl (by decide) (by decide))
  refine ⟨r.2, ?_⟩
  rw [List.drop_append_of_le_length h.length_le, MemLabel.value, hr]
  rfl

namespace MemScan
variable {s : MemScan} {line : List UInt8} {label : MemLabel}

/-- The body of the loop on a line. -/
theorem memLine_eq (s : MemScan) (line : List UInt8) :
    memLine s (line ++ [0]) = some (s.see line) := by
  have hcompare : ∀ label : MemLabel,
      strncmp (line ++ [0]) label.word = some (decide (label.word <+: line)) :=
    fun label => strncmp_string label.nul_notMem_word []
  rw [see]
  simp only [memLine, hcompare, Option.bind_eq_bind, Option.bind_some, decide_eq_true_eq]
  split
  · rename_i h
    obtain ⟨rest, hvalue⟩ := MemLabel.strtoul_value h
    change strtoul ((line ++ [0]).drop 13) = _ at hvalue
    simp only [hvalue, Option.bind_some]
  · split
    · rename_i h
      obtain ⟨rest, hvalue⟩ := MemLabel.strtoul_value h
      change strtoul ((line ++ [0]).drop 8) = _ at hvalue
      simp only [hvalue, Option.bind_some]
    · split
      · rename_i h
        obtain ⟨rest, hvalue⟩ := MemLabel.strtoul_value h
        change strtoul ((line ++ [0]).drop 9) = _ at hvalue
        simp only [hvalue, Option.bind_some]
      · rfl

/-- A line that starts with a label sets its flag and its field, and no other. -/
theorem see_spec (s : MemScan) (line : List UInt8) (label : MemLabel) :
    (s.see line).read label = (s.read label || decide (label.word <+: line)) ∧
    label.field (s.see line).out =
      if label.word <+: line then label.value line else label.field s.out := by
  have hother : ∀ label', label'.word <+: line → label ≠ label' → ¬ label.word <+: line :=
    fun label' h' hne h => hne (MemLabel.eq_of_starts h h')
  rw [see]
  split
  · rename_i h
    cases label with
    | available => simp [h, read, MemLabel.field]
    | free => simp [hother _ h (by decide), read, MemLabel.field]
    | total => simp [hother _ h (by decide), read, MemLabel.field]
  · rename_i havailable
    split
    · rename_i h
      cases label with
      | available => simp [havailable, read, MemLabel.field]
      | free => simp [h, read, MemLabel.field]
      | total => simp [hother _ h (by decide), read, MemLabel.field]
    · rename_i hfree
      split
      · rename_i h
        cases label with
        | available => simp [havailable, read, MemLabel.field]
        | free => simp [hfree, read, MemLabel.field]
        | total => simp [h, read, MemLabel.field]
      · rename_i htotal
        cases label with
        | available => simp [havailable]
        | free => simp [hfree]
        | total => simp [htotal]

theorem see_nil (s : MemScan) : s.see [] = s := by
  simp [see, MemLabel.word_ne_nil]

/-- Empty lines do not count. -/
theorem seeAll_filter (s : MemScan) (lines : List (List UInt8)) :
    s.seeAll (lines.filter (· ≠ [])) = s.seeAll lines := by
  induction lines generalizing s with
  | nil => rfl
  | cons line lines ih =>
      by_cases hline : line = []
      · subst hline
        rw [List.filter_cons_of_neg (by simp), ih]
        change s.seeAll lines = (s.see []).seeAll lines
        rw [see_nil]
      · rw [List.filter_cons_of_pos (by simpa using hline)]
        exact ih _

/-- The flag of a label is set by a line that starts with it. -/
theorem read_seeAll (s : MemScan) (lines : List (List UInt8)) (label : MemLabel) :
    (s.seeAll lines).read label = true ↔
      s.read label = true ∨ ∃ line ∈ lines, label.word <+: line := by
  induction lines generalizing s with
  | nil => simp [seeAll]
  | cons line lines ih =>
      change ((s.see line).seeAll lines).read label = true ↔ _
      rw [ih, (see_spec s line label).1]
      simp [or_assoc]

/-- The field of a label holds the number of the last line that starts with it. -/
theorem field_seeAll (s : MemScan) (lines : List (List UInt8)) (label : MemLabel) :
    label.field (s.seeAll lines).out =
      ((lines.filter (label.word <+: ·)).getLast?.map label.value).getD (label.field s.out) := by
  induction lines generalizing s with
  | nil => rfl
  | cons line lines ih =>
      change label.field ((s.see line).seeAll lines).out = _
      rw [ih, (see_spec s line label).2, List.filter_cons]
      by_cases hline : label.word <+: line
      · simp only [hline, decide_true, if_true, List.getLast?_cons]
        cases (lines.filter (label.word <+: ·)).getLast? <;> rfl
      · simp only [hline, decide_false, if_false, Bool.false_eq_true]

end MemScan

/-- The end of `mem_read` behind the loop. -/
def MemScan.finish (s : MemScan) : MemResult × Option Mem :=
  if s.readAvailable = false ∨ s.readFree = false ∨ s.readTotal = false then
    (.errParse, some s.out)
  else (.success, some { s.out with memAvailable := 0, memFree := 0, memTotal := 0 })

/-- `mem_read` succeeds when every label was seen, and the record is zero then. -/
theorem MemScan.finish_of_read {s : MemScan} (h : ∀ label, s.read label = true) :
    s.finish = (.success, some ⟨0, 0, 0⟩) := by
  have havailable : s.readAvailable = true := h .available
  have hfree : s.readFree = true := h .free
  have htotal : s.readTotal = true := h .total
  simp [finish, havailable, hfree, htotal]

theorem MemScan.finish_of_not_read {s : MemScan} {label : MemLabel} (h : s.read label = false) :
    s.finish = (.errParse, some s.out) := by
  refine if_pos ?_
  cases label with
  | available => exact .inl h
  | free => exact .inr (.inl h)
  | total => exact .inr (.inr h)

theorem length_le_flatMap (lines : List (List UInt8)) (c : UInt8) :
    lines.length ≤ (lines.flatMap (· ++ [c])).length := by
  induction lines with
  | nil => exact le_rfl
  | cons line lines ih =>
      simp only [List.flatMap_cons, List.length_append, List.length_cons, List.length_nil] at ih ⊢
      omega

/-- **`mem_read` on lines of text**, up to the NUL that ends the string. -/
theorem memRead_lines {bytes beyond rest last : List UInt8} {lines : List (List UInt8)} {out : Mem}
    (hne : bytes.take sizeofBuffer ≠ [])
    (hlines : ∀ line ∈ lines ++ [last], 10 ∉ line ∧ 0 ∉ line)
    (htext : bytes.take sizeofBuffer ++ beyond =
      lines.flatMap (· ++ [10]) ++ (last ++ 0 :: rest)) :
    memRead (.content bytes) beyond (some out) =
      some (MemScan.seeAll ⟨out, false, false, false⟩ (lines ++ [last])).finish := by
  have hfuel : lines.length + 1 < (bytes.take sizeofBuffer ++ beyond).length + 1 := by
    have := length_le_flatMap lines 10
    rw [htext, List.length_append, List.length_append, List.length_cons]
    omega
  have hbody : ∀ (lines : List (List UInt8)) (s : MemScan),
      lines.foldlM (fun s line => memLine s (line ++ [0])) s = some (s.seeAll lines) := by
    intro lines
    induction lines with
    | nil => exact fun s => rfl
    | cons line lines ih =>
        intro s
        rw [List.foldlM_cons, MemScan.memLine_eq]
        exact ih _
  have hloop : strtokLoop 10 memLine _ _ ⟨out, false, false, false⟩ = _ :=
    strtokLoop_lines (by decide) hlines hfuel rest
  rw [hbody, MemScan.seeAll_filter, ← htext] at hloop
  have hlen : (bytes.take sizeofBuffer).length ≠ 0 := fun h => hne (List.length_eq_zero_iff.mp h)
  simp only [memRead, if_neg hlen, hloop, Option.bind_eq_bind, Option.bind_some, MemScan.finish]
  split <;> rfl

end Ctm
