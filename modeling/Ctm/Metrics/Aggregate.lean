import Ctm.Metrics.Cpu

/-!
# The first line of `/proc/stat`

The aggregate line has four to ten numbers, depending on the age of the kernel.  `cpu_read`
takes ten: white space is passed over, the newline as well, but the next line starts with a
word, at which every further number is zero.

## Main definitions

* `aggregateLine` — the line.
* `cpuRead_decodes` — the record holds its numbers, and zeros behind them.
-/

namespace Ctm

/-- The aggregate line: `cpu` and two spaces, the numbers with a space between any two, and a
newline. -/
def aggregateLine (numbers : List Numeral) : List UInt8 :=
  cpuWord ++ 32 :: (fieldsText numbers ++ [10])

/-- The counters of a record, in the order of the line. -/
def Cpu.counters (cpu : Cpu) : List UInt64 :=
  [cpu.user, cpu.nice, cpu.system, cpu.idle, cpu.iowait, cpu.irq, cpu.softirq, cpu.steal,
    cpu.guest, cpu.guestNice]

/-- The counters are the numbers, when these are below 2^64. -/
theorem counters_ofNumbers {xs : List ℕ} (hlen : xs.length = 10) (hlt : ∀ x ∈ xs, x < 2 ^ 64) :
    (Cpu.ofNumbers xs).counters.map UInt64.toNat = xs := by
  have hcounters : (Cpu.ofNumbers xs).counters =
      (List.range 10).map fun i => UInt64.ofNat (xs.getD i 0) := rfl
  rw [hcounters, List.map_map]
  refine List.ext_getElem (by simp [hlen]) fun i _ hi => ?_
  rw [List.getElem_map, List.getElem_range, Function.comp_apply, List.getD_eq_getElem?_getD,
    List.getElem?_eq_getElem hi, Option.getD_some]
  exact UInt64.toNat_ofNat_of_lt' (hlt _ (List.getElem_mem hi))

variable {numbers : List Numeral} {c : UInt8}

/-- The numbers behind the word, and zeros once no number follows. -/
theorem strtouls_line (hne : numbers ≠ []) (hk : numbers.length ≤ 10) (hspace : isspace c = false)
    (hdigit : isdigit c = false) (hminus : c ≠ 45) (hplus : c ≠ 43) (more : List UInt8) :
    ∃ rest, strtouls 10 ((aggregateLine numbers ++ c :: more).drop 5) =
      some (numbers.map (fun n => ulongOf n.negative n.digits) ++
        List.replicate (10 - numbers.length) 0, rest) := by
  obtain ⟨n, fields, rfl⟩ := List.exists_cons_of_ne_nil hne
  have hdrop : (aggregateLine (n :: fields) ++ c :: more).drop 5 =
      [] ++ (n.text ++ (fieldsText fields ++ 10 :: c :: more)) := by
    simp [aggregateLine, cpuWord, fieldsText]
  have htail : (10 :: c :: more).takeWhile isdigit = [] := rfl
  have hfirst : strtoul ([] ++ (n.text ++ (fieldsText fields ++ 10 :: c :: more))) =
      some (ulongOf n.negative n.digits, fieldsText fields ++ 10 :: c :: more) :=
    strtoul_text n (by simp) (takeWhile_isdigit_fieldsText fields htail) (by simp)
  have hnumbers : strtouls (n :: fields).length
      ([] ++ (n.text ++ (fieldsText fields ++ 10 :: c :: more))) =
      some ((n :: fields).map fun n => ulongOf n.negative n.digits, 10 :: c :: more) := by
    rw [List.length_cons, strtouls_succ hfirst, strtouls_fields htail (List.cons_ne_nil _ _)]
    rfl
  have hnewline : ∀ c ∈ [(10 : UInt8)], isspace c = true := List.forall_mem_singleton.mpr rfl
  -- The conversions behind the last number stay in front of the newline.
  have hstop : strtoul (10 :: c :: more) = some (0, 10 :: c :: more) :=
    strtoul_none hnewline hspace hdigit hminus hplus
  have hstay := strtouls_stay hstop (10 - (n :: fields).length)
  have hten := strtouls_add hnumbers (10 - (n :: fields).length)
  rw [Nat.add_sub_of_le hk, hstay] at hten
  exact ⟨_, hdrop ▸ hten⟩

/-- **`cpu_read` decodes the aggregate line**, whatever follows the first byte behind it. -/
theorem cpuRead_decodes (hk : 4 ≤ numbers.length ∧ numbers.length ≤ 10)
    (hnumbers : ∀ n ∈ numbers, n.negative = false ∧ decimal n.digits < 2 ^ 64)
    (hspace : isspace c = false) (hdigit : isdigit c = false) (hminus : c ≠ 45) (hplus : c ≠ 43)
    (hlen : (aggregateLine numbers ++ [c]).length ≤ 1024) (more beyond : List UInt8) (out : Cpu) :
    ∃ cpu, cpuRead (.content (aggregateLine numbers ++ c :: more)) beyond (some out) =
        some (.success, some cpu) ∧
      cpu.counters.map UInt64.toNat =
        numbers.map (fun n => decimal n.digits) ++ List.replicate (10 - numbers.length) 0 := by
  have hne : numbers ≠ [] := List.ne_nil_of_length_pos (by omega)
  have hread : (aggregateLine numbers ++ c :: more).take sizeofBuffer =
      aggregateLine numbers ++
        c :: more.take (sizeofBuffer - (aggregateLine numbers ++ [c]).length) := by
    have hfits : (aggregateLine numbers ++ [c]).take sizeofBuffer = aggregateLine numbers ++ [c] :=
      List.take_of_length_le hlen
    rw [List.append_cons, List.take_append, hfits, ← List.append_cons]
  have hvalue : numbers.map (fun n => ulongOf n.negative n.digits) =
      numbers.map fun n => decimal n.digits := by
    refine List.map_congr_left fun n hn => ?_
    obtain ⟨hnegative, hlt⟩ := hnumbers n hn
    rw [ulongOf, hnegative, if_neg (by rw [ulongMax]; omega)]
    rfl
  obtain ⟨rest, hline⟩ := strtouls_line hne hk.2 hspace hdigit hminus hplus
    (more.take (sizeofBuffer - (aggregateLine numbers ++ [c]).length) ++ beyond)
  rw [hvalue] at hline
  have hcompare : ∀ t, strncmp (aggregateLine numbers ++ t) cpuWord = some true := fun t => rfl
  refine ⟨_, ?_, counters_ofNumbers ?_ ?_⟩
  · rw [cpuRead_eq (by rw [hread]; simp), hread, List.append_assoc, cpuScan, hcompare,
      Option.bind_some, if_pos rfl, List.cons_append, hline]
    rfl
  · rw [List.length_append, List.length_map, List.length_replicate]
    omega
  · intro x hx
    rcases List.mem_append.mp hx with hx | hx
    · obtain ⟨n, hn, rfl⟩ := List.mem_map.mp hx
      exact (hnumbers n hn).2
    · rw [List.eq_of_mem_replicate hx]
      exact Nat.two_pow_pos 64

/-- The line `cpu  7 0 12 3` of an old kernel, before the line of the first core. -/
theorem cpuRead_decodes_four : ∃ numbers cpu,
    cpuRead (.content (aggregateLine numbers ++ 99 :: [112, 117, 48, 32, 55, 10])) []
        (some (.ofNumbers [])) = some (.success, some cpu) ∧
      cpu.counters.map UInt64.toNat = [7, 0, 12, 3] ++ List.replicate 6 0 := by
  let numbers : List Numeral := [⟨false, [55], by decide, List.all_eq_true.mp rfl⟩,
    ⟨false, [48], by decide, List.all_eq_true.mp rfl⟩,
    ⟨false, [49, 50], by decide, List.all_eq_true.mp rfl⟩,
    ⟨false, [51], by decide, List.all_eq_true.mp rfl⟩]
  exact ⟨numbers, cpuRead_decodes (by decide) (by decide) rfl rfl (by decide) (by decide)
    (by decide) [112, 117, 48, 32, 55, 10] [] (.ofNumbers [])⟩

end Ctm
