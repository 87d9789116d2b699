import Ctm.Metrics.Mem

/-!
# What `mem_read` reports

A meminfo file is a sequence of lines.  `mem_read` finds the three numbers whatever lines
stand around them, and then overwrites them with zeros.  When a label is missing it has
already stored the numbers behind the others.

## Main definitions

* `beforeNul` — the lines of the string that the file is to `strtok_r`.
* `Says` — a label starts one line, and a number follows.
* `Reports`, `ReportKept` — `mem_read` reports what the file says, and when.
* `reports_iff` — the two agree.
-/

namespace Ctm

/-- The lines of a string, up to the first NUL. -/
def beforeNul : List (List UInt8) → List (List UInt8)
  | [] => []
  | line :: lines => if 0 ∈ line then [cString line] else line :: beforeNul lines

/-- Lines of text, as `strtok_r` reads them. -/
theorem exists_lines {lines : List (List UInt8)} (hlines : ∀ line ∈ lines, 10 ∉ line)
    (rest : List UInt8) : ∃ whole last rest',
      lines.flatMap (· ++ [10]) ++ 0 :: rest = whole.flatMap (· ++ [10]) ++ (last ++ 0 :: rest') ∧
      (∀ line ∈ whole ++ [last], 10 ∉ line ∧ 0 ∉ line) ∧
      (whole ++ [last]).filter (· ≠ []) = (beforeNul lines).filter (· ≠ []) := by
  induction lines with
  | nil => exact ⟨[], [], rest, rfl, by simp, rfl⟩
  | cons line lines ih =>
      have hline := hlines line List.mem_cons_self
      by_cases hnul : 0 ∈ line
      · obtain ⟨before, after, rfl, hbefore⟩ := List.eq_append_cons_of_mem hnul
        have hstring : cString (before ++ 0 :: after) = before := cString_append hbefore after
        refine ⟨[], before, after ++ 10 :: (lines.flatMap (· ++ [10]) ++ 0 :: rest), ?_, ?_, ?_⟩
        · simp
        · simp only [List.nil_append, List.mem_singleton, forall_eq]
          exact ⟨fun h => hline (List.mem_append_left _ h), hbefore⟩
        · rw [beforeNul, if_pos hnul, hstring, List.nil_append]
      · obtain ⟨whole, last, rest', htext, hwhole, hfilter⟩ :=
          ih fun line' h => hlines line' (List.mem_cons_of_mem _ h)
        refine ⟨line :: whole, last, rest', ?_, ?_, ?_⟩
        · simp only [List.flatMap_cons, List.append_assoc] at htext ⊢
          rw [htext]
        · rw [List.cons_append, List.forall_mem_cons]
          exact ⟨⟨hline, hnul⟩, hwhole⟩
        · rw [beforeNul, if_neg hnul, List.cons_append, List.filter_cons, List.filter_cons, hfilter]

/-- The label starts one line, and white space and a number below 2^64 follow it. -/
def Says (lines : List (List UInt8)) (label : MemLabel) (n : ℕ) : Prop :=
  ∃ before space digits tail after,
    lines = before ++ (label.word ++ (space ++ (digits ++ tail))) :: after ∧
    (∀ line ∈ before ++ after, ¬ label.word <+: line) ∧
    (space ≠ [] ∧ ∀ c ∈ space, isspace c = true) ∧
    (digits ≠ [] ∧ ∀ c ∈ digits, isdigit c = true) ∧ tail.takeWhile isdigit = [] ∧
    decimal digits = n ∧ n < 2 ^ 64

/-- The number of the last line that starts with a label. -/
def lastValue (lines : List (List UInt8)) (label : MemLabel) : Option ℕ :=
  ((beforeNul lines).filter (label.word <+: ·)).getLast?.map label.value

/-- `mem_read` reports the numbers of the lines, or fails and leaves the record as it was when a
label is missing. -/
def Reports (bytes : List UInt8) (lines : List (List UInt8)) (rest : List UInt8) (out : Mem) :
    Prop :=
  (∀ value : MemLabel → ℕ, (∀ label, Says lines label (value label)) →
    ∃ out', memRead (.content bytes) (0 :: rest) (some out) = some (.success, some out') ∧
      ∀ n, memTotal (some out') (some n) = (.success, some (value .total)) ∧
        memFree (some out') (some n) = (.success, some (value .free)) ∧
        memAvailable (some out') (some n) = (.success, some (value .available))) ∧
  ((∃ label : MemLabel, ∀ line ∈ lines, ¬ label.word <+: line) →
    memRead (.content bytes) (0 :: rest) (some out) = some (.errParse, some out))

/-- The numbers are zero, and stand before any NUL; or a label is missing from a file that is not
empty, and the record already has the numbers of the others. -/
def ReportKept (lines : List (List UInt8)) (out : Mem) : Prop :=
  (∀ value : MemLabel → ℕ, (∀ label, Says lines label (value label)) →
    ∀ label, value label = 0 ∧ ∃ line ∈ beforeNul lines, label.word <+: line) ∧
  ((∃ label : MemLabel, ∀ line ∈ lines, ¬ label.word <+: line) →
    lines ≠ [] ∧ ∀ label n, lastValue lines label = some n → label.field out = n)

/-- A line before the NUL is the start of a line of the file. -/
theorem exists_of_mem_beforeNul {lines : List (List UInt8)} {line : List UInt8}
    (h : line ∈ beforeNul lines) : ∃ line' ∈ lines, line <+: line' := by
  induction lines with
  | nil => cases h
  | cons line' lines ih =>
      rw [beforeNul] at h
      split at h
      · rw [List.mem_singleton.mp h]
        exact ⟨line', List.mem_cons_self, List.takeWhile_prefix _⟩
      · rcases List.mem_cons.mp h with rfl | h
        · exact ⟨line, List.mem_cons_self, List.prefix_refl _⟩
        · obtain ⟨line'', hmem, hprefix⟩ := ih h
          exact ⟨line'', List.mem_cons_of_mem _ hmem, hprefix⟩

variable {bytes rest : List UInt8} {lines : List (List UInt8)} {out : Mem} {label : MemLabel}

/-- The state at the end of the loop. -/
def MemScan.atEnd (lines : List (List UInt8)) (out : Mem) : MemScan :=
  seeAll ⟨out, false, false, false⟩ (beforeNul lines)

theorem MemScan.read_atEnd : (atEnd lines out).read label = true ↔
    ∃ line ∈ beforeNul lines, label.word <+: line := by
  rw [atEnd, read_seeAll]
  cases label <;> simp [read]

theorem MemScan.field_atEnd :
    label.field (atEnd lines out).out = (lastValue lines label).getD (label.field out) :=
  field_seeAll _ _ _

/-- `mem_read` on a file of lines. -/
theorem memRead_text (hlines : ∀ line ∈ lines, 10 ∉ line)
    (htext : bytes.take sizeofBuffer = lines.flatMap (· ++ [10])) (hne : lines ≠ [])
    (rest : List UInt8) (out : Mem) :
    memRead (.content bytes) (0 :: rest) (some out) = some (MemScan.atEnd lines out).finish := by
  obtain ⟨whole, last, rest', hsplit, hwhole, hfilter⟩ := exists_lines hlines rest
  have hbytes : bytes.take sizeofBuffer ≠ [] := by
    intro hnil
    have := length_le_flatMap lines 10
    rw [← htext, hnil] at this
    exact hne (List.length_eq_zero_iff.mp (Nat.le_zero.mp this))
  rw [memRead_lines hbytes hwhole (by rw [htext, hsplit]), ← MemScan.seeAll_filter, hfilter,
    MemScan.seeAll_filter]
  rfl

/-- A label that is missing was not read. -/
theorem MemScan.read_of_missing (h : ∀ line ∈ lines, ¬ label.word <+: line) :
    (atEnd lines out).read label = false := by
  rw [← Bool.not_eq_true]
  intro hread
  obtain ⟨line, hline, hword⟩ := read_atEnd.mp hread
  obtain ⟨line', hline', hprefix⟩ := exists_of_mem_beforeNul hline
  exact h line' hline' (hword.trans hprefix)

/-- A call that succeeds has seen every label, and reports zeros. -/
theorem report_iff_zero (hlines : ∀ line ∈ lines, 10 ∉ line)
    (htext : bytes.take sizeofBuffer = lines.flatMap (· ++ [10])) (hne : lines ≠ [])
    (rest : List UInt8) (out : Mem) (value : MemLabel → ℕ) :
    (∃ out', memRead (.content bytes) (0 :: rest) (some out) = some (.success, some out') ∧
      ∀ n, memTotal (some out') (some n) = (.success, some (value .total)) ∧
        memFree (some out') (some n) = (.success, some (value .free)) ∧
        memAvailable (some out') (some n) = (.success, some (value .available))) ↔
    ∀ label, value label = 0 ∧ ∃ line ∈ beforeNul lines, label.word <+: line := by
  rw [memRead_text hlines htext hne]
  constructor
  · rintro ⟨out', hread, hget⟩ label
    have hall : ∀ label, (MemScan.atEnd lines out).read label = true := by
      intro label
      by_contra hlabel
      rw [MemScan.finish_of_not_read (Bool.not_eq_true _ ▸ hlabel)] at hread
      cases hread
    rw [MemScan.finish_of_read hall] at hread
    obtain rfl : ⟨0, 0, 0⟩ = out' := by simpa using hread
    obtain ⟨htotal, hfree, havailable⟩ := hget 0
    refine ⟨?_, MemScan.read_atEnd.mp (hall label)⟩
    cases label with
    | available => exact (Option.some.inj (Prod.mk.inj havailable).2).symm
    | free => exact (Option.some.inj (Prod.mk.inj hfree).2).symm
    | total => exact (Option.some.inj (Prod.mk.inj htotal).2).symm
  · intro hkept
    have hall : ∀ label, (MemScan.atEnd lines out).read label = true :=
      fun label => MemScan.read_atEnd.mpr (hkept label).2
    refine ⟨⟨0, 0, 0⟩, by rw [MemScan.finish_of_read hall], fun n => ?_⟩
    rw [(hkept .total).1, (hkept .free).1, (hkept .available).1]
    exact ⟨rfl, rfl, rfl⟩

/-- A call that misses a label leaves the record alone when it already has the other numbers. -/
theorem report_iff_missing (hlines : ∀ line ∈ lines, 10 ∉ line)
    (htext : bytes.take sizeofBuffer = lines.flatMap (· ++ [10])) (rest : List UInt8) (out : Mem)
    (hmissing : ∀ line ∈ lines, ¬ label.word <+: line) :
    memRead (.content bytes) (0 :: rest) (some out) = some (.errParse, some out) ↔
      lines ≠ [] ∧ ∀ label n, lastValue lines label = some n → label.field out = n := by
  by_cases hne : lines = []
  · subst hne
    refine iff_of_false ?_ fun h => h.1 rfl
    have hlen : (bytes.take sizeofBuffer).length = 0 := by rw [htext]; rfl
    simp only [memRead, if_pos hlen]
    exact fun h => by cases h
  · rw [memRead_text hlines htext hne,
      MemScan.finish_of_not_read (MemScan.read_of_missing hmissing), and_iff_right hne]
    constructor
    · intro hread label' n hlast
      have hout : (MemScan.atEnd lines out).out = out := by simpa using hread
      have hfield : label'.field (MemScan.atEnd lines out).out = _ := MemScan.field_atEnd
      rwa [hout, hlast] at hfield
    · intro hkept
      have hfield : ∀ label : MemLabel,
          label.field (MemScan.atEnd lines out).out = label.field out := by
        intro label
        rw [MemScan.field_atEnd]
        cases hlast : lastValue lines label with
        | none => rfl
        | some n => exact (hkept label n hlast).symm
      have hout : (MemScan.atEnd lines out).out = out :=
        Mem.ext (hfield .total) (hfield .available) (hfield .free)
      rw [hout]

/-- A label that says something starts a line. -/
theorem Says.exists_line {n : ℕ} (h : Says lines label n) :
    ∃ line ∈ lines, label.word <+: line := by
  obtain ⟨before, space, digits, tail, after, rfl, -⟩ := h
  exact ⟨_, List.mem_append_right _ List.mem_cons_self, List.prefix_append _ _⟩

/-- **When `mem_read` reports what the file says.** -/
theorem reports_iff (hlines : ∀ line ∈ lines, 10 ∉ line)
    (htext : bytes.take sizeofBuffer = lines.flatMap (· ++ [10])) (rest : List UInt8) (out : Mem) :
    Reports bytes lines rest out ↔ ReportKept lines out := by
  refine and_congr ?_ ?_
  · refine forall_congr' fun value => forall_congr' fun hfile => ?_
    obtain ⟨line, hline, -⟩ := (hfile .total).exists_line
    exact report_iff_zero hlines htext (List.ne_nil_of_mem hline) rest out value
  · refine forall_congr' fun hmissing => ?_
    obtain ⟨label, hlabel⟩ := hmissing
    exact report_iff_missing hlines htext rest out hlabel

/-- A line of a label and a digit says the digit. -/
theorem says_digit (before : List (List UInt8)) {after : List (List UInt8)} {d : UInt8}
    (hdigit : isdigit d = true)
    (hother : ∀ line ∈ before ++ after, ¬ label.word <+: line) :
    Says (before ++ (label.word ++ [32, d]) :: after) label (d.toNat - 48) := by
  have hvalue : decimal [d] = d.toNat - 48 := by simp [decimal]
  have hlt := (toNat_of_isdigit hdigit).2
  exact ⟨before, [32], [d], [], after, rfl, hother,
    ⟨List.cons_ne_nil _ _, List.forall_mem_singleton.mpr rfl⟩,
    ⟨List.cons_ne_nil _ _, List.forall_mem_singleton.mpr hdigit⟩, rfl, hvalue, by omega⟩

/-- What a label says is the number read from the only line it starts. -/
theorem Says.value {n : ℕ} (h : Says lines label n) :
    ∃ line, lines.filter (label.word <+: ·) = [line] ∧ label.value line = n := by
  obtain ⟨before, space, digits, tail, after, rfl, hother, ⟨-, hspace⟩, ⟨hne, hdigit⟩, htail, hn,
    hlt⟩ := h
  have hnone : ∀ part : List (List UInt8), (∀ line ∈ part, line ∈ before ++ after) →
      part.filter (label.word <+: ·) = [] := by
    intro part hpart
    rw [List.filter_eq_nil_iff]
    intro line hline
    simpa using hother line (hpart line hline)
  refine ⟨label.word ++ (space ++ (digits ++ tail)), ?_, ?_⟩
  · rw [List.filter_append, List.filter_cons_of_pos (by simp),
      hnone before fun _ => List.mem_append_left _, hnone after fun _ => List.mem_append_right _]
    rfl
  · let numeral : Numeral := ⟨false, digits, hne, hdigit⟩
    have hrest : (tail ++ [0]).takeWhile isdigit = [] := by
      cases tail with
      | nil => rfl
      | cons c tail =>
          rw [List.cons_append]
          by_cases hc : isdigit c = true
          · rw [List.takeWhile_cons_of_pos hc] at htail
            cases htail
          · exact List.takeWhile_cons_of_neg hc
    have hread := strtoul_text numeral hspace hrest (List.append_ne_nil_of_right_ne_nil _ (by simp))
    have hulong : ulongOf false digits = n := by
      rw [ulongOf, if_neg (by rw [hn, ulongMax]; omega), if_neg Bool.false_ne_true, hn]
    have hsplit : space ++ (digits ++ tail) ++ [0] = space ++ (numeral.text ++ (tail ++ [0])) := by
      simp [numeral, Numeral.text]
    rw [MemLabel.value, List.drop_left, hsplit, hread]
    exact hulong

/-- The line `MemFree: 3`. -/
def freeLine : List UInt8 := MemLabel.free.word ++ [32, 51]

/-- The lines `MemTotal: 0`, `MemFree: 0` and `MemAvailable: 0`. -/
def zeroLines : List (List UInt8) :=
  [MemLabel.total.word ++ [32, 48], MemLabel.free.word ++ [32, 48],
    MemLabel.available.word ++ [32, 48]]

/-- The other labels are missing and the record has the number already, or the three labels say
zero. -/
theorem reports_iff_zeros : Reports (freeLine ++ [10]) [freeLine] [] ⟨1, 2, 3⟩ ∧
    (∀ label, Says zeroLines label 0) ∧
      Reports (zeroLines.flatMap (· ++ [10])) zeroLines [] ⟨1, 2, 3⟩ := by
  have htotal : ¬ ∃ line ∈ [freeLine], MemLabel.total.word <+: line := by decide
  have hzero : ∀ (label : MemLabel) (line : List UInt8),
      zeroLines.filter (label.word <+: ·) = [line] → label.value line = 0 ∧
      line ∈ beforeNul zeroLines := by
    intro label line hline
    cases label with
    | available =>
        obtain rfl := List.cons.inj hline |>.1
        decide
    | free =>
        obtain rfl := List.cons.inj hline |>.1
        decide
    | total =>
        obtain rfl := List.cons.inj hline |>.1
        decide
  refine ⟨(reports_iff (by decide) (by decide) [] ⟨1, 2, 3⟩).mpr
    ⟨fun value hfile => ?_, fun _ => ?_⟩, fun label => ?_,
    (reports_iff (by decide) (by decide) [] ⟨1, 2, 3⟩).mpr
    ⟨fun value hfile label => ?_, fun hmissing => ?_⟩⟩
  · exact absurd (hfile .total).exists_line htotal
  · refine ⟨List.cons_ne_nil _ _, fun label n hlast => ?_⟩
    cases label with
    | available => cases hlast
    | free => exact Option.some.inj hlast
    | total => cases hlast
  · cases label with
    | available => exact says_digit (zeroLines.take 2) (d := 48) rfl (by decide)
    | free => exact says_digit (zeroLines.take 1) (d := 48) rfl (by decide)
    | total => exact says_digit [] (d := 48) rfl (by decide)
  · obtain ⟨line, hline, hvalue⟩ := (hfile label).value
    obtain ⟨hnum, hmem⟩ := hzero label line hline
    have hstarts : label.word <+: line := by
      have hfilter : line ∈ zeroLines.filter (label.word <+: ·) := hline ▸ List.mem_cons_self
      simpa using (List.mem_filter.mp hfilter).2
    exact ⟨hvalue.symm.trans hnum, line, hmem, hstarts⟩
  · revert hmissing
    rintro ⟨label, hlabel⟩
    cases label <;> exact absurd hlabel (by decide)

/-- The lines `MemTotal: 5`, `MemFree: 3` and `MemAvailable: 4`. -/
def threeLines : List (List UInt8) :=
  [MemLabel.total.word ++ [32, 53], freeLine, MemLabel.available.word ++ [32, 52]]

/-- The numbers on these lines. -/
def threeNumbers : MemLabel → ℕ
  | .available => 4
  | .free => 3
  | .total => 5

/-- The three numbers are reported as zeros. -/
theorem report_zeroed : ¬ ∀ bytes lines rest out, (∀ line ∈ lines, 10 ∉ line) →
    bytes.take sizeofBuffer = lines.flatMap (· ++ [10]) → Reports bytes lines rest out := by
  intro hall
  have hfile : ∀ label, Says threeLines label (threeNumbers label) := by
    intro label
    cases label with
    | available => exact says_digit (threeLines.take 2) (d := 52) rfl (by decide)
    | free => exact says_digit (threeLines.take 1) (d := 51) rfl (by decide)
    | total => exact says_digit [] (d := 53) rfl (by decide)
  obtain ⟨hreport, -⟩ := hall (threeLines.flatMap (· ++ [10])) threeLines [] ⟨1, 2, 3⟩ (by decide)
    (by decide)
  obtain ⟨out', hread, hget⟩ := hreport threeNumbers hfile
  have hzero : memRead (.content (threeLines.flatMap (· ++ [10]))) [0] (some ⟨1, 2, 3⟩) =
      some (.success, some ⟨0, 0, 0⟩) := by decide
  obtain rfl : ⟨0, 0, 0⟩ = out' := by simpa using hzero.symm.trans hread
  cases (hget 0).1

end Ctm
