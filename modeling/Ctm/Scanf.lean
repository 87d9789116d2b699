import Ctm.Libc

/-!
# Strings and `sscanf`

The string functions of the C library that the `/proc` readers use, and `sscanf` for
formats of white space, `%c`, suppressed numbers and `%lu`.

`sscanf` never splits a numeral: a conversion takes the longest item there is.  So a
numeral followed by anything but a digit is read as itself, and a text with few runs of
digits answers few conversions.

## Main definitions

* `cString`, `strchr`, `strrchr` — C strings.
* `Directive`, `sscanf` — formats, and what they store.
* `Numeral` — a decimal integer as text.
* `items` — what conversions store of numerals.
* `runs` — the number of runs of digits in a text.
* `scanFrom_numerals`, `length_scanFrom_le` — the two halves.
-/

namespace Ctm

/-- The C string that starts a block of bytes. -/
def cString (bytes : List UInt8) : List UInt8 := bytes.takeWhile (· ≠ 0)

/-- `strchr`: the string from the first `c` on. -/
def strchr : List UInt8 → UInt8 → Option (List UInt8)
  | [], _ => none
  | x :: s, c => if x = c then some (x :: s) else strchr s c

/-- `strrchr`: the string from the last `c` on. -/
def strrchr : List UInt8 → UInt8 → Option (List UInt8)
  | [], _ => none
  | x :: s, c =>
      match strrchr s c with
      | some t => some t
      | none => if x = c then some (x :: s) else none

/-- `ULONG_MAX` -/
def ulongMax : ℕ := 2 ^ 64 - 1

/-! ## `sscanf` -/

/-- A directive of a format.  The items of `%d` and `%u` have one shape: an optional sign
and digits. -/
inductive Directive
  /-- White space. -/
  | space
  /-- `%c` -/
  | char
  /-- `%*d` or `%*u` -/
  | skip
  /-- `%lu` -/
  | ulong
  deriving DecidableEq, Repr

/-- What a conversion stores. -/
inductive Arg
  | char (c : UInt8)
  | ulong (n : ℕ)
  deriving DecidableEq, Repr

/-- How a directive ends. -/
inductive ScanStep
  | done (arg : Option Arg) (rest : List UInt8)
  | inputFailure
  | matchingFailure

/-- The value of an item as an `unsigned long`, as `strtoul` gives it. -/
def ulongOf (negative : Bool) (digits : List UInt8) : ℕ :=
  if ulongMax < decimal digits then ulongMax
  else if negative then (2 ^ 64 - decimal digits) % 2 ^ 64
  else decimal digits

/-- The longest number a string starts with: its sign, its digits and the rest. -/
def number (s : List UInt8) : Bool × List UInt8 × List UInt8 :=
  let signed : Bool × List UInt8 := match s with
    | 45 :: t => (true, t)
    | 43 :: t => (false, t)
    | t => (false, t)
  (signed.1, signed.2.takeWhile isdigit, signed.2.dropWhile isdigit)

/-- A conversion of a number, which skips white space first. -/
def convert (store : Bool → List UInt8 → Option Arg) (s : List UInt8) : ScanStep :=
  if s.dropWhile isspace = [] then .inputFailure
  else
    let (negative, digits, rest) := number (s.dropWhile isspace)
    if digits = [] then .matchingFailure else .done (store negative digits) rest

/-- One directive. -/
def Directive.scan : Directive → List UInt8 → ScanStep
  | .space, s => .done none (s.dropWhile isspace)
  | .char, [] => .inputFailure
  | .char, c :: s => .done (some (.char c)) s
  | .skip, s => convert (fun _ _ => none) s
  | .ulong, s => convert (fun negative digits => some (.ulong (ulongOf negative digits))) s

/-- The directives in turn: what they store, and whether the input ended before the first
conversion was complete. -/
def scanFrom (converted : Bool) : List Directive → List UInt8 → Bool × List Arg
  | [], _ => (false, [])
  | d :: ds, s =>
      match d.scan s with
      | .done arg rest =>
          let r := scanFrom (converted || decide (d ≠ .space)) ds rest
          (r.1, arg.toList ++ r.2)
      | .inputFailure => (!converted, [])
      | .matchingFailure => (false, [])

/-- `sscanf`: the number of items stored, or `EOF`, and the items. -/
def sscanf (s : List UInt8) (format : List Directive) : ℤ × List Arg :=
  let r := scanFrom false format s
  (if r.1 then -1 else r.2.length, r.2)

/-- Conversions of numbers, each after white space. -/
def spaced (ds : List Directive) : List Directive := ds.flatMap fun d => [.space, d]

/-- Once a conversion is complete, the end of the input is no `EOF`. -/
theorem scanFrom_converted (ds : List Directive) (s : List UInt8) :
    (scanFrom true ds s).1 = false := by
  induction ds generalizing s with
  | nil => rfl
  | cons d ds ih =>
      rw [scanFrom]
      cases d.scan s with
      | done arg rest => exact ih rest
      | inputFailure => rfl
      | matchingFailure => rfl

/-! ## Numerals -/

/-- A decimal integer as text. -/
structure Numeral where
  negative : Bool
  digits : List UInt8
  nonempty : digits ≠ []
  isdigit : ∀ c ∈ digits, isdigit c = true

namespace Numeral

/-- The characters of a numeral. -/
def text (n : Numeral) : List UInt8 := if n.negative then 45 :: n.digits else n.digits

/-- The integer it denotes. -/
def val (n : Numeral) : ℤ := if n.negative then -decimal n.digits else decimal n.digits

end Numeral

/-- Numerals, each after a space. -/
def fieldsText (fields : List Numeral) : List UInt8 := fields.flatMap fun n => 32 :: n.text

/-- A number has a sign, or none, before its digits. -/
theorem number_cons (c : UInt8) (s : List UInt8) :
    ∃ negative t, (t = c :: s ∨ (c = 45 ∨ c = 43) ∧ t = s) ∧ ∀ u, number (c :: (s ++ u)) =
      (negative, (t ++ u).takeWhile isdigit, (t ++ u).dropWhile isdigit) := by
  by_cases hminus : c = 45
  · subst hminus
    exact ⟨true, s, .inr ⟨.inl rfl, rfl⟩, fun u => rfl⟩
  · by_cases hplus : c = 43
    · subst hplus
      exact ⟨false, s, .inr ⟨.inr rfl, rfl⟩, fun u => rfl⟩
    · refine ⟨false, c :: s, .inl rfl, fun u => ?_⟩
      have hsigned : (match c :: (s ++ u) with
          | 45 :: t => (true, t)
          | 43 :: t => (false, t)
          | t => (false, t)) = (false, c :: (s ++ u)) := by
        split
        · rename_i heq
          exact absurd (List.cons.inj heq).1 hminus
        · rename_i heq
          exact absurd (List.cons.inj heq).1 hplus
        · rfl
      simp only [number, hsigned, List.cons_append]

/-- A numeral starts with a sign or a digit, and is read as itself before anything else. -/
theorem number_text (n : Numeral) {rest : List UInt8} (hrest : rest.takeWhile isdigit = []) :
    number (n.text ++ rest) = (n.negative, n.digits, rest) := by
  have hdrop : rest.dropWhile isdigit = rest := by
    have h := List.takeWhile_append_dropWhile (p := isdigit) (l := rest)
    rwa [hrest, List.nil_append] at h
  have htake : (n.digits ++ rest).takeWhile isdigit = n.digits := by
    rw [List.takeWhile_append_of_pos n.isdigit, hrest, List.append_nil]
  have hskip : (n.digits ++ rest).dropWhile isdigit = rest := by
    rw [List.dropWhile_append_of_pos n.isdigit, hdrop]
  obtain ⟨negative, digits, nonempty, hdigit⟩ := n
  cases negative with
  | true => simp only [number, Numeral.text, if_true, List.cons_append, htake, hskip]
  | false =>
      cases digits with
      | nil => exact absurd rfl nonempty
      | cons c digits =>
          have hc : 48 ≤ c.toNat := (toNat_of_isdigit (hdigit c List.mem_cons_self)).1
          have hsigned : (match c :: digits ++ rest with
              | 45 :: t => (true, t)
              | 43 :: t => (false, t)
              | t => (false, t)) = (false, c :: digits ++ rest) := by
            rw [List.cons_append]
            split
            · rename_i heq
              obtain ⟨rfl, -⟩ := List.cons.inj heq
              exact absurd hc (by decide)
            · rename_i heq
              obtain ⟨rfl, -⟩ := List.cons.inj heq
              exact absurd hc (by decide)
            · rfl
          simp only [number, Numeral.text, Bool.false_eq_true, if_false, hsigned, htake, hskip]

/-- A numeral does not start with white space. -/
theorem dropWhile_isspace_text (n : Numeral) (rest : List UInt8) :
    (n.text ++ rest).dropWhile isspace = n.text ++ rest := by
  obtain ⟨negative, digits, nonempty, hdigit⟩ := n
  cases negative with
  | true => rfl
  | false =>
      cases digits with
      | nil => exact absurd rfl nonempty
      | cons c digits =>
          have hc := not_isspace_of_isdigit (hdigit c List.mem_cons_self)
          exact List.dropWhile_cons_of_neg (by rw [hc]; decide)

theorem text_ne_nil (n : Numeral) : n.text ≠ [] := by
  obtain ⟨negative, digits, nonempty, hdigit⟩ := n
  cases negative with
  | true => exact List.cons_ne_nil _ _
  | false => exact nonempty

/-- A conversion of a number. -/
def Directive.IsNumber (d : Directive) : Prop := d = .skip ∨ d = .ulong

instance : DecidablePred Directive.IsNumber := fun _ => inferInstanceAs (Decidable (_ ∨ _))

/-- What a conversion stores of a numeral. -/
def Directive.item : Directive → Numeral → Option Arg
  | .ulong, n => some (.ulong (ulongOf n.negative n.digits))
  | _, _ => none

/-- What conversions store of numerals, one for each. -/
def items (ds : List Directive) (fields : List Numeral) : List Arg :=
  (ds.zip fields).filterMap fun x => x.1.item x.2

/-- Suppressed numerals are passed over. -/
theorem items_skip (k : ℕ) (ds : List Directive) (fields : List Numeral) :
    items (List.replicate k .skip ++ ds) fields = items ds (fields.drop k) := by
  induction k generalizing fields with
  | zero => rfl
  | succ k ih =>
      cases fields with
      | nil => simp [items]
      | cons n fields => exact ih fields

/-- A `%lu` stores the next numeral. -/
theorem items_ulong {ds : List Directive} {fields : List Numeral} {k : ℕ}
    (h : k < fields.length) :
    items (.ulong :: ds) (fields.drop k) =
      .ulong (ulongOf fields[k].negative fields[k].digits) :: items ds (fields.drop (k + 1)) := by
  rw [List.drop_eq_getElem_cons h]
  rfl

/-- Within range, the value stored is the integer denoted. -/
theorem ulongOf_eq {n : Numeral} (hpos : 0 ≤ n.val) (hlt : n.val < 2 ^ 64) :
    ulongOf n.negative n.digits = n.val.toNat := by
  obtain ⟨negative, digits, nonempty, hdigit⟩ := n
  cases negative with
  | true =>
      have hzero : decimal digits = 0 := by
        simp only [Numeral.val, if_true] at hpos
        omega
      simp [ulongOf, Numeral.val, hzero, ulongMax]
  | false =>
      have hle : ¬ ulongMax < decimal digits := by
        simp only [Numeral.val, Bool.false_eq_true, if_false] at hlt
        simp only [ulongMax]
        omega
      simp [ulongOf, Numeral.val, hle]

/-- A conversion takes the numeral it is given. -/
theorem scan_text {d : Directive} (hd : d.IsNumber) (n : Numeral) {rest : List UInt8}
    (hrest : rest.takeWhile isdigit = []) : d.scan (n.text ++ rest) = .done (d.item n) rest := by
  have hconvert : ∀ store, convert store (n.text ++ rest) =
      .done (store n.negative n.digits) rest := by
    intro store
    have hne : n.text ++ rest ≠ [] := by simp [text_ne_nil]
    simp only [convert, dropWhile_isspace_text, if_neg hne, number_text n hrest, if_neg n.nonempty]
  rcases hd with rfl | rfl
  · exact hconvert fun _ _ => none
  · exact hconvert fun negative digits => some (.ulong (ulongOf negative digits))

/-- The characters of a numeral. -/
theorem Numeral.mem_text {n : Numeral} {c : UInt8} (hc : c ∈ n.text) :
    c = 45 ∨ Ctm.isdigit c = true := by
  rw [Numeral.text] at hc
  split at hc
  · rcases List.mem_cons.mp hc with rfl | hc
    · exact .inl rfl
    · exact .inr (n.isdigit c hc)
  · exact .inr (n.isdigit c hc)

theorem mem_fieldsText {fields : List Numeral} {c : UInt8} (hc : c ∈ fieldsText fields) :
    c = 32 ∨ c = 45 ∨ isdigit c = true := by
  obtain ⟨n, -, hc⟩ := List.mem_flatMap.mp hc
  rcases List.mem_cons.mp hc with rfl | hc
  · exact .inl rfl
  · exact .inr (Numeral.mem_text hc)

theorem takeWhile_isdigit_fieldsText (fields : List Numeral) {tail : List UInt8}
    (htail : tail.takeWhile isdigit = []) : (fieldsText fields ++ tail).takeWhile isdigit = [] := by
  cases fields with
  | nil => exact htail
  | cons n fields => rfl

/-- **Numerals are read one by one**, whatever follows the last one that is asked for. -/
theorem scanFrom_numerals {ds : List Directive} {fields : List Numeral} {tail : List UInt8}
    (hds : ∀ d ∈ ds, d.IsNumber) (hlen : ds.length ≤ fields.length)
    (htail : tail.takeWhile isdigit = []) :
    scanFrom true (spaced ds) (fieldsText fields ++ tail) = (false, items ds fields) := by
  induction ds generalizing fields with
  | nil => rfl
  | cons d ds ih =>
      cases fields with
      | nil => exact absurd hlen (by simp)
      | cons n fields =>
          have hd := hds d List.mem_cons_self
          have hrest := takeWhile_isdigit_fieldsText fields htail
          have hscan := scan_text hd n hrest
          have hdrop := dropWhile_isspace_text n (fieldsText fields ++ tail)
          have htext : fieldsText (n :: fields) ++ tail =
              32 :: (n.text ++ (fieldsText fields ++ tail)) := by
            simp [fieldsText]
          have hspace : Directive.scan .space (32 :: (n.text ++ (fieldsText fields ++ tail))) =
              .done none (n.text ++ (fieldsText fields ++ tail)) := by
            rw [Directive.scan, List.dropWhile_cons_of_pos (by decide), hdrop]
          have hlen' : ds.length ≤ fields.length := by simpa using hlen
          have hih := ih (fun d' hd' => hds d' (List.mem_cons_of_mem _ hd')) hlen'
          have hspaced : spaced (d :: ds) = .space :: d :: spaced ds := rfl
          rw [htext, hspaced, scanFrom, hspace]
          simp only [scanFrom, hscan, Bool.true_or, hih, Option.toList_none, List.nil_append, items,
            List.zip_cons_cons, List.filterMap_cons]
          cases d.item n <;> rfl

/-! ## Runs of digits -/

/-- The number of digits not followed by a digit. -/
def runs : List UInt8 → ℕ
  | [] => 0
  | c :: s => runs s + if isdigit c ∧ s.takeWhile isdigit = [] then 1 else 0

theorem runs_cons (c : UInt8) (s : List UInt8) :
    runs (c :: s) = runs s + if isdigit c ∧ s.takeWhile isdigit = [] then 1 else 0 := rfl

theorem runs_le_cons (c : UInt8) (s : List UInt8) : runs s ≤ runs (c :: s) := Nat.le_add_right _ _

theorem runs_append_le (s t : List UInt8) : runs t ≤ runs (s ++ t) := by
  induction s with
  | nil => exact le_refl _
  | cons c s ih => exact ih.trans (runs_le_cons c (s ++ t))

theorem runs_dropWhile_le (p : UInt8 → Bool) (s : List UInt8) : runs (s.dropWhile p) ≤ runs s := by
  have h := runs_append_le (s.takeWhile p) (s.dropWhile p)
  rwa [List.takeWhile_append_dropWhile] at h

/-- Digits followed by anything else are one run. -/
theorem runs_digits {digits rest : List UInt8} (hne : digits ≠ [])
    (hdigits : ∀ c ∈ digits, isdigit c = true) (hrest : rest.takeWhile isdigit = []) :
    runs (digits ++ rest) = runs rest + 1 := by
  induction digits with
  | nil => exact absurd rfl hne
  | cons c digits ih =>
      have hc := hdigits c List.mem_cons_self
      cases digits with
      | nil => simp [runs, hc, hrest]
      | cons c' digits =>
          have hc' := hdigits c' (by simp)
          rw [List.cons_append, runs, ih (List.cons_ne_nil _ _) fun x hx => hdigits x
            (List.mem_cons_of_mem _ hx)]
          simp [hc']

theorem runs_pos {s : List UInt8} (h : s.takeWhile isdigit ≠ []) : 1 ≤ runs s := by
  induction s with
  | nil => exact absurd rfl h
  | cons c s ih =>
      by_cases hs : s.takeWhile isdigit = []
      · have hc : isdigit c = true := by
          by_contra hc
          exact h (List.takeWhile_cons_of_neg hc)
        simp [runs, hc, hs]
      · exact (ih hs).trans (runs_le_cons c s)

/-- A cut may shorten a run, but makes no new one. -/
theorem runs_le_append (s t : List UInt8) : runs s ≤ runs (s ++ t) := by
  induction s with
  | nil => exact Nat.zero_le _
  | cons c s ih =>
      cases s with
      | nil =>
          by_cases ht : t.takeWhile isdigit = []
          · simp [runs, ht]
          · have hpos := runs_pos ht
            have hone : runs [c] ≤ 1 := by
              simp only [runs]
              split <;> simp
            exact hone.trans (hpos.trans (runs_le_cons c t))
      | cons x s =>
          -- Whether the run goes on is settled by the next byte.
          have hnext : (x :: s ++ t).takeWhile isdigit = [] ↔ (x :: s).takeWhile isdigit = [] := by
            cases hx : isdigit x <;> simp [hx]
          rw [List.cons_append, runs_cons c (x :: s), runs_cons c (x :: s ++ t)]
          simp only [hnext]
          exact Nat.add_le_add_right ih _

theorem runs_eq_zero {s : List UInt8} (h : ∀ c ∈ s, isdigit c = false) : runs s = 0 := by
  induction s with
  | nil => rfl
  | cons c s ih =>
      rw [runs, ih fun x hx => h x (List.mem_cons_of_mem _ hx), h c List.mem_cons_self]
      simp

/-- A cut through a run makes at most one more. -/
theorem runs_append_le_add (s t : List UInt8) : runs (s ++ t) ≤ runs s + runs t := by
  induction s with
  | nil => exact (Nat.zero_add _).ge
  | cons c s ih =>
      have hlast : (s ++ t).takeWhile isdigit = [] → s.takeWhile isdigit = [] := by
        cases s with
        | nil => exact fun _ => rfl
        | cons x s =>
            intro h
            cases hx : isdigit x <;> simp [hx] at h ⊢
      rw [List.cons_append, runs_cons, runs_cons]
      split
      · rename_i h
        rw [if_pos ⟨h.1, hlast h.2⟩]
        omega
      · omega

/-- Numerals after spaces are as many runs. -/
theorem runs_fieldsText (fields : List Numeral) {tail : List UInt8}
    (htail : tail.takeWhile isdigit = []) :
    runs (fieldsText fields ++ tail) = fields.length + runs tail := by
  induction fields with
  | nil => simp [fieldsText]
  | cons n fields ih =>
      have hrest := takeWhile_isdigit_fieldsText fields htail
      have hdigits := runs_digits n.nonempty n.isdigit hrest
      have htext : fieldsText (n :: fields) ++ tail =
          32 :: (n.text ++ (fieldsText fields ++ tail)) := by
        simp [fieldsText]
      have hspace : isdigit 32 = false := by decide
      have hminus : isdigit 45 = false := by decide
      have hnumeral : runs (n.text ++ (fieldsText fields ++ tail)) =
          runs (fieldsText fields ++ tail) + 1 := by
        rw [Numeral.text]
        cases n.negative with
        | true => simp [runs, hminus, hdigits]
        | false => simpa using hdigits
      rw [htext, runs, hnumeral, ih, List.length_cons, hspace]
      simp only [Bool.false_eq_true, false_and, if_false]
      omega

theorem takeWhile_dropWhile (p : UInt8 → Bool) (s : List UInt8) :
    (s.dropWhile p).takeWhile p = [] := by
  induction s with
  | nil => rfl
  | cons c s ih =>
      by_cases hc : p c = true
      · rwa [List.dropWhile_cons_of_pos hc]
      · rw [List.dropWhile_cons_of_neg hc, List.takeWhile_cons_of_neg hc]

/-- A conversion of a number uses up a run. -/
theorem runs_scan {d : Directive} (hd : d.IsNumber) {s rest : List UInt8} {arg : Option Arg}
    (h : d.scan s = .done arg rest) : runs rest + 1 ≤ runs s := by
  have hconvert : ∀ store, convert store s = .done arg rest → runs rest + 1 ≤ runs s := by
    intro store h
    -- The digits are those of `u`, which is what is left behind white space and a sign.
    obtain ⟨u, hu, hdigits, hrest⟩ : ∃ u, runs u ≤ runs s ∧
        (number (s.dropWhile isspace)).2.1 = u.takeWhile isdigit ∧
        (number (s.dropWhile isspace)).2.2 = u.dropWhile isdigit := by
      have hs := runs_dropWhile_le isspace s
      cases hspace : s.dropWhile isspace with
      | nil => exact ⟨[], Nat.zero_le _, rfl, rfl⟩
      | cons c t =>
          rw [hspace] at hs
          by_cases hminus : c = 45
          · subst hminus
            exact ⟨t, (runs_le_cons _ t).trans hs, rfl, rfl⟩
          · by_cases hplus : c = 43
            · subst hplus
              exact ⟨t, (runs_le_cons _ t).trans hs, rfl, rfl⟩
            · refine ⟨c :: t, hs, ?_, ?_⟩
              · simp [number, hminus, hplus]
              · simp [number, hminus, hplus]
    rw [convert] at h
    split at h
    · cases h
    · rcases hnumber : number (s.dropWhile isspace) with ⟨negative, digits, rest'⟩
      rw [hnumber] at h hdigits hrest
      simp only at h hdigits hrest
      split at h
      · cases h
      · rename_i hne
        obtain ⟨-, rfl⟩ := ScanStep.done.inj h
        have hrun : runs u = runs rest' + 1 := by
          have hsplit := List.takeWhile_append_dropWhile (p := isdigit) (l := u)
          rw [← hdigits, ← hrest] at hsplit
          rw [← hsplit]
          refine runs_digits hne ?_ (by rw [hrest]; exact takeWhile_dropWhile _ _)
          rw [hdigits]
          exact fun c hc => List.mem_takeWhile_imp hc
        omega
  rcases hd with rfl | rfl
  · exact hconvert (fun _ _ => none) h
  · exact hconvert (fun negative digits => some (.ulong (ulongOf negative digits))) h

/-- What a conversion of a number stores is made of its sign and its digits. -/
theorem convert_eq_done {store : Bool → List UInt8 → Option Arg} {s rest : List UInt8}
    {arg : Option Arg} (h : convert store s = .done arg rest) :
    ∃ negative digits, arg = store negative digits := by
  rw [convert] at h
  split at h
  · cases h
  · simp only at h
    split at h
    · cases h
    · exact ⟨_, _, (ScanStep.done.inj h).1.symm⟩

/-- Only `%lu` stores an item. -/
theorem length_of_scan {d : Directive} (hd : d.IsNumber) {s rest : List UInt8}
    {arg : Option Arg} (h : d.scan s = .done arg rest) :
    arg.toList.length ≤ if d = .ulong then 1 else 0 := by
  rcases hd with rfl | rfl
  · have hconvert : convert (fun _ _ => none) s = .done arg rest := h
    obtain ⟨_, _, rfl⟩ := convert_eq_done hconvert
    exact le_refl _
  · cases arg with
    | none => exact Nat.zero_le _
    | some arg => exact le_refl _

theorem isUlong_of_scan {d : Directive} (hd : d.IsNumber) {s rest : List UInt8}
    {arg : Option Arg} (h : d.scan s = .done arg rest) {x : Arg} (hx : arg = some x) :
    ∃ n, x = .ulong n := by
  rcases hd with rfl | rfl
  · have hconvert : convert (fun _ _ => none) s = .done arg rest := h
    obtain ⟨_, _, rfl⟩ := convert_eq_done hconvert
    cases hx
  · have hconvert : convert (fun negative digits => some (.ulong (ulongOf negative digits))) s =
        .done arg rest := h
    obtain ⟨_, _, rfl⟩ := convert_eq_done hconvert
    exact ⟨_, (Option.some.inj hx).symm⟩

/-- **A text answers at most as many conversions as it has runs of digits.** -/
theorem length_scanFrom_le {ds : List Directive} (hds : ∀ d ∈ ds, d.IsNumber) (s : List UInt8) :
    (scanFrom true (spaced ds) s).2.length ≤ (ds.take (runs s)).count .ulong := by
  induction ds generalizing s with
  | nil => simp [spaced, scanFrom]
  | cons d ds ih =>
      have hd := hds d List.mem_cons_self
      have hspaced : spaced (d :: ds) = .space :: d :: spaced ds := rfl
      have hspace : Directive.scan .space s = .done none (s.dropWhile isspace) := by
        cases s <;> rfl
      have hruns := runs_dropWhile_le isspace s
      rw [hspaced, scanFrom, hspace]
      simp only [Option.toList_none, List.nil_append, scanFrom, Bool.true_or]
      cases hscan : d.scan (s.dropWhile isspace) with
      | inputFailure => exact Nat.zero_le _
      | matchingFailure => exact Nat.zero_le _
      | done arg rest =>
          have hused := runs_scan hd hscan
          obtain ⟨k, hk⟩ : ∃ k, runs s = k + 1 := ⟨runs s - 1, by omega⟩
          have hih := ih (fun d' hd' => hds d' (List.mem_cons_of_mem _ hd')) rest
          have hmono : (ds.take (runs rest)).count .ulong ≤ (ds.take k).count .ulong :=
            (List.take_sublist_take_left (by omega)).count_le _
          have harg := length_of_scan hd hscan
          rw [hk, List.take_succ_cons, List.count_cons]
          simp only [List.length_append, beq_iff_eq]
          omega

/-- Conversions of numbers store numbers. -/
theorem isUlong_of_mem_scanFrom {ds : List Directive} (hds : ∀ d ∈ ds, d.IsNumber)
    {s : List UInt8} {arg : Arg} (h : arg ∈ (scanFrom true (spaced ds) s).2) :
    ∃ n, arg = .ulong n := by
  induction ds generalizing s with
  | nil => cases h
  | cons d ds ih =>
      have hspaced : spaced (d :: ds) = .space :: d :: spaced ds := rfl
      have hspace : Directive.scan .space s = .done none (s.dropWhile isspace) := by
        cases s <;> rfl
      rw [hspaced, scanFrom, hspace] at h
      simp only [Option.toList_none, List.nil_append, scanFrom, Bool.true_or] at h
      cases hscan : d.scan (s.dropWhile isspace) with
      | inputFailure => simp [hscan] at h
      | matchingFailure => simp [hscan] at h
      | done arg' rest =>
          rw [hscan] at h
          rcases List.mem_append.mp h with h | h
          · exact isUlong_of_scan (hds d List.mem_cons_self) hscan (Option.mem_toList.mp h)
          · exact ih (fun d' hd' => hds d' (List.mem_cons_of_mem _ hd')) h

/-! ## Strings -/

theorem cString_of_notMem {s : List UInt8} (h : 0 ∉ s) : cString s = s := by
  rw [cString, List.takeWhile_eq_self_iff]
  intro c hc
  simpa using fun h0 : c = 0 => h (h0 ▸ hc)

/-- A string ends at its first NUL. -/
theorem cString_append {s : List UInt8} (h : 0 ∉ s) (t : List UInt8) :
    cString (s ++ 0 :: t) = s := by
  have hall : ∀ c ∈ s, decide (c ≠ 0) = true := by
    intro c hc
    simpa using fun h0 : c = 0 => h (h0 ▸ hc)
  rw [cString, List.takeWhile_append_of_pos hall, List.takeWhile_cons_of_neg (by simp),
    List.append_nil]

theorem strchr_append {s t : List UInt8} {c : UInt8} (h : c ∉ s) :
    strchr (s ++ c :: t) c = some (c :: t) := by
  induction s with
  | nil => exact if_pos rfl
  | cons x s ih =>
      rw [List.mem_cons, not_or] at h
      rw [List.cons_append, strchr, if_neg (Ne.symm h.1), ih h.2]

theorem strrchr_eq_none {s : List UInt8} {c : UInt8} (h : c ∉ s) : strrchr s c = none := by
  induction s with
  | nil => rfl
  | cons x s ih =>
      rw [List.mem_cons, not_or] at h
      rw [strrchr, ih h.2]
      exact if_neg (Ne.symm h.1)

theorem notMem_of_strrchr {s : List UInt8} {c : UInt8} (h : strrchr s c = none) : c ∉ s := by
  induction s with
  | nil => exact List.not_mem_nil
  | cons x s ih =>
      rw [strrchr] at h
      cases hs : strrchr s c with
      | some t =>
          rw [hs] at h
          cases h
      | none =>
          rw [hs] at h
          simp only [ite_eq_right_iff, reduceCtorEq, imp_false] at h
          rw [List.mem_cons, not_or]
          exact ⟨Ne.symm h, ih hs⟩

theorem strrchr_append {s t : List UInt8} {c : UInt8} (h : c ∉ t) :
    strrchr (s ++ c :: t) c = some (c :: t) := by
  induction s with
  | nil =>
      rw [List.nil_append, strrchr, strrchr_eq_none h]
      exact if_pos rfl
  | cons x s ih => rw [List.cons_append, strrchr, ih]

/-- What `strchr` finds is the first `c`. -/
theorem exists_of_strchr {s t : List UInt8} {c : UInt8} (h : strchr s c = some t) :
    ∃ pre post, s = pre ++ t ∧ t = c :: post ∧ c ∉ pre := by
  induction s with
  | nil => cases h
  | cons x s ih =>
      rw [strchr] at h
      by_cases hx : x = c
      · rw [if_pos hx] at h
        obtain rfl := Option.some.inj h
        exact ⟨[], s, rfl, by rw [hx], List.not_mem_nil⟩
      · rw [if_neg hx] at h
        obtain ⟨pre, post, rfl, ht, hpre⟩ := ih h
        exact ⟨x :: pre, post, rfl, ht, by simp [Ne.symm hx, hpre]⟩

/-- What `strrchr` finds is the last `c`. -/
theorem exists_of_strrchr {s t : List UInt8} {c : UInt8} (h : strrchr s c = some t) :
    ∃ pre post, s = pre ++ t ∧ t = c :: post ∧ c ∉ post := by
  induction s with
  | nil => cases h
  | cons x s ih =>
      rw [strrchr] at h
      cases hs : strrchr s c with
      | some u =>
          rw [hs] at h
          obtain rfl := Option.some.inj h
          obtain ⟨pre, post, rfl, ht, hpost⟩ := ih hs
          exact ⟨x :: pre, post, rfl, ht, hpost⟩
      | none =>
          rw [hs] at h
          simp only at h
          split at h
          · rename_i hx
            obtain rfl := Option.some.inj h
            exact ⟨[], s, rfl, by rw [hx], notMem_of_strrchr hs⟩
          · cases h

end Ctm
