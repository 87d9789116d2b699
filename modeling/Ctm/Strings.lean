import Ctm.Scanf

/-!
# Strings in memory

The string functions of the C library that read on until a byte stops them, on the memory
from a pointer to its end.  `none` is a function that reads past the end.

What such a function has found does not depend on the memory behind the byte it stopped
at.  In a string that ends with a NUL every function stops.

## Main definitions

* `strtoul`, `strncmp`, `strtokR` — the functions.
* `strtouls` — numbers taken in turn.
* `strtokLoop` — the loop over the tokens of a string.
* `strtoul_append`, `strncmp_append` — more memory changes nothing that was found.
* `strncmp_eq_true`, `strncmp_eq_false` — what `strncmp` finds.
* `strtokLoop_lines` — the loop over lines of text.
-/

namespace Ctm

/-- `strtoul` in base 10: the number, and the memory at `endptr`. -/
def strtoul (s : List UInt8) : Option (ℕ × List UInt8) :=
  let (negative, digits, rest) := number (s.dropWhile isspace)
  if rest = [] then none
  else if digits = [] then some (0, s)
  else some (ulongOf negative digits, rest)

/-- Whether `strncmp` finds no difference to a word without NUL, in as many bytes as the word
has. -/
def strncmp : List UInt8 → List UInt8 → Option Bool
  | _, [] => some true
  | [], _ :: _ => none
  | x :: s, c :: word => if x = c then strncmp s word else some false

/-- `strtok_r` with one delimiter: the token or NULL, and the memory at the saved pointer.  The
delimiter behind the token has been overwritten by a NUL. -/
def strtokR (s : List UInt8) (delim : UInt8) : Option (Option (List UInt8) × List UInt8) :=
  match s.dropWhile (· = delim) with
  | [] => none
  | c :: t =>
      if c = 0 then some (none, c :: t)
      else
        let token := (c :: t).takeWhile fun x => x ≠ delim ∧ x ≠ 0
        match (c :: t).dropWhile fun x => x ≠ delim ∧ x ≠ 0 with
        | [] => none
        | x :: rest => some (some token, if x = 0 then x :: rest else rest)

/-- The loop over the tokens, whose body is given the token with its NUL. -/
def strtokLoop {σ : Type} (delim : UInt8) (body : σ → List UInt8 → Option σ) :
    ℕ → List UInt8 → σ → Option σ
  | 0, _, _ => none
  | fuel + 1, s, state => do
      match ← strtokR s delim with
      | (none, _) => some state
      | (some token, save) => do
          let state ← body state (token ++ [0])
          strtokLoop delim body fuel save state

/-! ## `strtoul` -/

/-- What stops a run stops it before more memory. -/
theorem dropWhile_append_of_ne_nil {p : UInt8 → Bool} {s : List UInt8} (h : s.dropWhile p ≠ [])
    (t : List UInt8) : (s ++ t).takeWhile p = s.takeWhile p ∧
      (s ++ t).dropWhile p = s.dropWhile p ++ t := by
  have hsplit := List.takeWhile_append_dropWhile (p := p) (l := s)
  have hlen : (s.takeWhile p).length ≠ s.length := by
    intro hlen
    have := congrArg List.length hsplit
    rw [List.length_append] at this
    exact h (List.length_eq_zero_iff.mp (by omega))
  rw [List.takeWhile_append, List.dropWhile_append, if_neg hlen]
  simp [h]

/-- `strtoul` behind the white space and the sign. -/
theorem strtoul_signed {s : List UInt8} (hs : s.dropWhile isspace ≠ []) :
    ∃ negative t, (∀ c ∈ s, isspace c = false → c ≠ 45 → c ≠ 43 → c ∈ t) ∧ ∀ u, strtoul (s ++ u) =
      if (t ++ u).dropWhile isdigit = [] then none
      else if (t ++ u).takeWhile isdigit = [] then some (0, s ++ u)
      else some (ulongOf negative ((t ++ u).takeWhile isdigit), (t ++ u).dropWhile isdigit) := by
  obtain ⟨c, w, hw⟩ := List.exists_cons_of_ne_nil hs
  obtain ⟨negative, t, ht, hnumber⟩ := number_cons c w
  refine ⟨negative, t, fun x hx hspace hminus hplus => ?_, fun u => ?_⟩
  · have hxw : x ∈ c :: w := by
      rw [← hw]
      rw [← List.takeWhile_append_dropWhile (p := isspace) (l := s), List.mem_append] at hx
      refine hx.resolve_left fun htake => ?_
      rw [List.mem_takeWhile_imp htake] at hspace
      cases hspace
    rcases ht with rfl | ⟨rfl | rfl, rfl⟩
    · exact hxw
    · exact (List.mem_cons.mp hxw).resolve_left hminus
    · exact (List.mem_cons.mp hxw).resolve_left hplus
  · rw [strtoul, (dropWhile_append_of_ne_nil hs u).2, hw, List.cons_append, hnumber]

/-- **What `strtoul` has found does not depend on the memory behind it.** -/
theorem strtoul_append {s rest : List UInt8} {n : ℕ} (h : strtoul s = some (n, rest))
    (t : List UInt8) : strtoul (s ++ t) = some (n, rest ++ t) := by
  have hs : s.dropWhile isspace ≠ [] := by
    intro hs
    rw [strtoul, hs] at h
    cases h
  obtain ⟨negative, w, -, hstrtoul⟩ := strtoul_signed hs
  have hnil := hstrtoul []
  rw [List.append_nil, List.append_nil, h] at hnil
  have hrest : w.dropWhile isdigit ≠ [] := by
    intro hrest
    rw [if_pos hrest] at hnil
    cases hnil
  obtain ⟨htake, hdrop⟩ := dropWhile_append_of_ne_nil hrest t
  rw [if_neg hrest] at hnil
  rw [hstrtoul t, htake, hdrop, if_neg (List.append_ne_nil_of_left_ne_nil hrest t)]
  split at hnil
  · rename_i hdigits
    obtain ⟨rfl, rfl⟩ := Prod.mk.inj (Option.some.inj hnil)
    rw [if_pos hdigits]
  · rename_i hdigits
    obtain ⟨rfl, rfl⟩ := Prod.mk.inj (Option.some.inj hnil)
    rw [if_neg hdigits]

/-- A number that runs to the end of the memory runs on through more digits. -/
theorem strtoul_stuck {s : List UInt8} (h : strtoul s = none) (n : ℕ) :
    strtoul (s ++ List.replicate n 48) = none := by
  have hdigits : ∀ c ∈ List.replicate n (48 : UInt8), isdigit c = true := by
    intro c hc
    rw [List.eq_of_mem_replicate hc]
    rfl
  by_cases hs : s.dropWhile isspace = []
  · have hspace : (s ++ List.replicate n 48).dropWhile isspace = List.replicate n 48 := by
      rw [List.dropWhile_append, hs, List.isEmpty_nil, if_pos rfl]
      cases n <;> rfl
    rw [strtoul, hspace]
    cases n with
    | zero => rfl
    | succ n =>
        obtain ⟨negative, t, ht, hnumber⟩ := number_cons 48 (List.replicate n 48)
        obtain rfl : t = 48 :: List.replicate n 48 :=
          ht.resolve_right fun h => absurd h.1 (by decide)
        have hall : (48 :: List.replicate n 48).dropWhile isdigit = [] :=
          List.dropWhile_eq_nil_iff.mpr hdigits
        have hrun := hnumber []
        rw [List.append_nil, List.append_nil, hall] at hrun
        rw [List.replicate_succ, hrun]
        rfl
  · obtain ⟨negative, t, -, hstrtoul⟩ := strtoul_signed hs
    have hnil := hstrtoul []
    rw [List.append_nil, List.append_nil, h] at hnil
    have hrest : t.dropWhile isdigit = [] := by
      by_contra hrest
      rw [if_neg hrest] at hnil
      split at hnil <;> cases hnil
    rw [hstrtoul, if_pos]
    rw [List.dropWhile_append, hrest, List.isEmpty_nil, if_pos rfl]
    exact List.dropWhile_eq_nil_iff.mpr hdigits

/-- A byte that is in no number stops it. -/
theorem strtoul_isSome {s : List UInt8} {c : UInt8} (hc : c ∈ s) (hspace : isspace c = false)
    (hdigit : isdigit c = false) (hminus : c ≠ 45) (hplus : c ≠ 43) : (strtoul s).isSome := by
  have hs : s.dropWhile isspace ≠ [] := by
    rw [Ne, List.dropWhile_eq_nil_iff]
    intro hall
    rw [hall c hc] at hspace
    cases hspace
  obtain ⟨negative, t, hmem, hstrtoul⟩ := strtoul_signed hs
  have hrun := hstrtoul []
  have hrest : t.dropWhile isdigit ≠ [] := by
    rw [Ne, List.dropWhile_eq_nil_iff]
    intro hall
    rw [hall c (hmem c hc hspace hminus hplus)] at hdigit
    cases hdigit
  rw [List.append_nil, List.append_nil, if_neg hrest] at hrun
  rw [hrun]
  split <;> rfl

/-- A numeral is read as itself, when something stops it. -/
theorem strtoul_text {space rest : List UInt8} (n : Numeral)
    (hspace : ∀ c ∈ space, isspace c = true) (hrest : rest.takeWhile isdigit = [])
    (hne : rest ≠ []) :
    strtoul (space ++ (n.text ++ rest)) = some (ulongOf n.negative n.digits, rest) := by
  rw [strtoul, List.dropWhile_append_of_pos hspace, dropWhile_isspace_text, number_text n hrest]
  simp only [if_neg hne, if_neg n.nonempty]

/-- Where no number follows, `strtoul` stays. -/
theorem strtoul_none {space rest : List UInt8} {c : UInt8}
    (hspace : ∀ c ∈ space, isspace c = true) (hc : isspace c = false) (hdigit : isdigit c = false)
    (hminus : c ≠ 45) (hplus : c ≠ 43) :
    strtoul (space ++ c :: rest) = some (0, space ++ c :: rest) := by
  obtain ⟨negative, t, ht, hnumber⟩ := number_cons c rest
  obtain rfl : t = c :: rest :=
    ht.resolve_right fun h => h.1.elim (fun h => hminus h) fun h => hplus h
  have hrun := hnumber []
  rw [List.append_nil, List.append_nil, List.takeWhile_cons_of_neg (by simp [hdigit]),
    List.dropWhile_cons_of_neg (by simp [hdigit])] at hrun
  rw [strtoul, List.dropWhile_append_of_pos hspace, List.dropWhile_cons_of_neg (by simp [hc]), hrun]
  rfl

/-! ## Numbers in turn -/

/-- Numbers taken in turn. -/
def strtouls : ℕ → List UInt8 → Option (List ℕ × List UInt8)
  | 0, s => some ([], s)
  | n + 1, s => do
      let (x, s) ← strtoul s
      let (xs, s) ← strtouls n s
      some (x :: xs, s)

theorem strtouls_succ {n x : ℕ} {s rest : List UInt8} (h : strtoul s = some (x, rest)) :
    strtouls (n + 1) s = (strtouls n rest).map fun r => (x :: r.1, r.2) := by
  rw [strtouls, h, Option.bind_eq_bind, Option.bind_some]
  change (strtouls n rest).bind (fun r => some (x :: r.1, r.2)) = _
  cases strtouls n rest <;> rfl

/-- A function of some numbers, by the first of them. -/
theorem map_strtouls_succ {α : Type} (n : ℕ) (s : List UInt8) (g : List ℕ × List UInt8 → α) :
    (strtouls (n + 1) s).map g =
      (strtoul s).bind fun r => (strtouls n r.2).map fun q => g (r.1 :: q.1, q.2) := by
  cases h : strtoul s with
  | none =>
      rw [strtouls, h, Option.bind_eq_bind, Option.bind_none, Option.bind_none, Option.map_none]
  | some r =>
      obtain ⟨x, rest⟩ := r
      rw [strtouls_succ h, Option.map_map]
      rfl

theorem map_strtouls_zero {α : Type} (s : List UInt8) (g : List ℕ × List UInt8 → α) :
    (strtouls 0 s).map g = some (g ([], s)) := rfl

theorem strtouls_add {k : ℕ} {s rest : List UInt8} {xs : List ℕ}
    (h : strtouls k s = some (xs, rest)) (n : ℕ) :
    strtouls (k + n) s = (strtouls n rest).map fun r => (xs ++ r.1, r.2) := by
  induction k generalizing s xs with
  | zero =>
      obtain ⟨rfl, rfl⟩ := Prod.mk.inj (Option.some.inj h)
      simp
  | succ k ih =>
      cases hx : strtoul s with
      | none =>
          rw [strtouls, hx] at h
          cases h
      | some r =>
          obtain ⟨x, s'⟩ := r
          rw [strtouls_succ hx] at h
          obtain ⟨⟨ys, rest'⟩, hys, hr⟩ := Option.map_eq_some_iff.mp h
          obtain ⟨rfl, rfl⟩ := Prod.mk.inj hr
          rw [Nat.add_right_comm, strtouls_succ hx, ih hys, Option.map_map]
          rfl

/-- **What has been taken does not depend on the memory behind it.** -/
theorem strtouls_append {n : ℕ} {s rest : List UInt8} {xs : List ℕ}
    (h : strtouls n s = some (xs, rest)) (t : List UInt8) :
    strtouls n (s ++ t) = some (xs, rest ++ t) := by
  induction n generalizing s xs with
  | zero =>
      obtain ⟨rfl, rfl⟩ := Prod.mk.inj (Option.some.inj h)
      rfl
  | succ n ih =>
      cases hx : strtoul s with
      | none =>
          rw [strtouls, hx] at h
          cases h
      | some r =>
          obtain ⟨x, s'⟩ := r
          rw [strtouls_succ hx] at h
          obtain ⟨⟨ys, rest'⟩, hys, hr⟩ := Option.map_eq_some_iff.mp h
          obtain ⟨rfl, rfl⟩ := Prod.mk.inj hr
          rw [strtouls_succ (strtoul_append hx t), ih hys]
          rfl

/-- Numbers that run to the end of the memory run on through more digits. -/
theorem strtouls_stuck {n : ℕ} {s : List UInt8} (h : strtouls n s = none) (k : ℕ) :
    strtouls n (s ++ List.replicate k 48) = none := by
  induction n generalizing s with
  | zero => cases h
  | succ n ih =>
      cases hx : strtoul s with
      | none => rw [strtouls, strtoul_stuck hx, Option.bind_eq_bind, Option.bind_none]
      | some r =>
          rw [strtouls_succ hx, Option.map_eq_none_iff] at h
          rw [strtouls_succ (strtoul_append hx _), ih h]
          rfl

/-- Where no number follows, all the rest are zero. -/
theorem strtouls_stay {s : List UInt8} (h : strtoul s = some (0, s)) (n : ℕ) :
    strtouls n s = some (List.replicate n 0, s) := by
  induction n with
  | zero => rfl
  | succ n ih =>
      rw [strtouls_succ h, ih]
      rfl

/-- Numerals are taken one by one. -/
theorem strtouls_fields {fields : List Numeral} {tail : List UInt8}
    (htail : tail.takeWhile isdigit = []) (hne : tail ≠ []) :
    strtouls fields.length (fieldsText fields ++ tail) =
      some (fields.map fun n => ulongOf n.negative n.digits, tail) := by
  induction fields with
  | nil => rfl
  | cons n fields ih =>
      have htext : fieldsText (n :: fields) ++ tail =
          [32] ++ (n.text ++ (fieldsText fields ++ tail)) := by
        simp [fieldsText]
      have hspace : ∀ c ∈ [(32 : UInt8)], isspace c = true := List.forall_mem_singleton.mpr rfl
      rw [htext, List.length_cons, strtouls_succ (strtoul_text n hspace
        (takeWhile_isdigit_fieldsText fields htail) (List.append_ne_nil_of_right_ne_nil _ hne)), ih]
      rfl

/-! ## `strncmp` -/

theorem strncmp_append {s word : List UInt8} {b : Bool} (h : strncmp s word = some b)
    (t : List UInt8) : strncmp (s ++ t) word = some b := by
  induction word generalizing s with
  | nil =>
      rw [strncmp] at h ⊢
      exact h
  | cons c word ih =>
      cases s with
      | nil => cases h
      | cons x s =>
          rw [strncmp] at h
          rw [List.cons_append, strncmp]
          split
          · rename_i hx
            rw [if_pos hx] at h
            exact ih h
          · rename_i hx
            rwa [if_neg hx] at h

/-- A string starts with the word or not. -/
theorem strncmp_string {s word : List UInt8} (hword : 0 ∉ word) (t : List UInt8) :
    strncmp (s ++ 0 :: t) word = some (decide (word <+: s)) := by
  induction word generalizing s with
  | nil => cases s <;> simp [strncmp]
  | cons c word ih =>
      rw [List.mem_cons, not_or] at hword
      cases s with
      | nil =>
          rw [List.nil_append, strncmp, if_neg hword.1]
          simp
      | cons x s =>
          rw [List.cons_append, strncmp, ih hword.2]
          by_cases hx : x = c
          · simp [hx]
          · simp [hx, Ne.symm hx]

theorem strncmp_eq_true {s word : List UInt8} : strncmp s word = some true ↔ word <+: s := by
  induction word generalizing s with
  | nil => cases s <;> simp [strncmp]
  | cons c word ih =>
      cases s with
      | nil => simp [strncmp]
      | cons x s =>
          rw [strncmp, List.cons_prefix_cons]
          by_cases hx : x = c
          · rw [if_pos hx, ih, and_iff_right hx.symm]
          · simp [hx, Ne.symm hx]

/-- A difference is found where neither is the start of the other. -/
theorem strncmp_eq_false {s word : List UInt8} :
    strncmp s word = some false ↔ ¬ word <+: s ∧ ¬ s <+: word := by
  induction word generalizing s with
  | nil => cases s <;> simp [strncmp]
  | cons c word ih =>
      cases s with
      | nil => simp [strncmp]
      | cons x s =>
          rw [strncmp, List.cons_prefix_cons, List.cons_prefix_cons]
          by_cases hx : x = c
          · rw [if_pos hx, ih]
            simp [hx]
          · simp [hx, Ne.symm hx]

/-! ## The loop over tokens -/

section Tokens
variable {σ : Type} {delim : UInt8} {body : σ → List UInt8 → Option σ} {fuel : ℕ} {state : σ}
  {line : List UInt8}

/-- The delimiters in front of a token are passed over. -/
theorem strtokR_cons (delim : UInt8) (s : List UInt8) :
    strtokR (delim :: s) delim = strtokR s delim := by
  rw [strtokR, strtokR, List.dropWhile_cons_of_pos (by simp)]

/-- A token ends before the first delimiter or NUL. -/
theorem strtokR_token {c : UInt8} (hne : line ≠ []) (hnul : 0 ∉ line) (hdelim : delim ∉ line)
    (hc : c = delim ∨ c = 0) (rest : List UInt8) :
    strtokR (line ++ c :: rest) delim =
      some (some line, if c = 0 then c :: rest else rest) := by
  obtain ⟨x, line, rfl⟩ := List.exists_cons_of_ne_nil hne
  have hall : ∀ y ∈ x :: line, decide (y ≠ delim ∧ y ≠ 0) = true := by
    intro y hy
    rw [decide_eq_true_eq]
    exact ⟨fun h => hdelim (h ▸ hy), fun h => hnul (h ▸ hy)⟩
  have hstop : decide (c ≠ delim ∧ c ≠ 0) = false := by
    rw [decide_eq_false_iff_not]
    rintro ⟨hd, hz⟩
    exact hc.elim hd hz
  obtain ⟨hx, hx0⟩ : x ≠ delim ∧ x ≠ 0 := by simpa using hall x List.mem_cons_self
  have hskip : (x :: (line ++ c :: rest)).dropWhile (· = delim) = x :: (line ++ c :: rest) :=
    List.dropWhile_cons_of_neg (by simpa using hx)
  have htake : (x :: line ++ c :: rest).takeWhile (fun x => x ≠ delim ∧ x ≠ 0) = x :: line := by
    rw [List.takeWhile_append_of_pos hall, List.takeWhile_cons_of_neg (by simp [hstop]),
      List.append_nil]
  have hdrop : (x :: line ++ c :: rest).dropWhile (fun x => x ≠ delim ∧ x ≠ 0) = c :: rest := by
    rw [List.dropWhile_append_of_pos hall, List.dropWhile_cons_of_neg (by simp [hstop])]
  rw [List.cons_append] at htake hdrop ⊢
  simp only [strtokR, hskip, if_neg hx0, htake, hdrop]

/-- At the end of a string there is no token. -/
theorem strtokR_nul (hdelim : delim ≠ 0) (rest : List UInt8) :
    strtokR (0 :: rest) delim = some (none, 0 :: rest) := by
  rw [strtokR, List.dropWhile_cons_of_neg (by simpa using Ne.symm hdelim)]
  rfl

theorem strtokLoop_cons (s : List UInt8) :
    strtokLoop delim body fuel (delim :: s) state = strtokLoop delim body fuel s state := by
  cases fuel with
  | zero => rfl
  | succ fuel => rw [strtokLoop, strtokLoop, strtokR_cons]

theorem strtokLoop_token {c : UInt8} (hne : line ≠ []) (hnul : 0 ∉ line) (hdelim : delim ∉ line)
    (hc : c = delim ∨ c = 0) (rest : List UInt8) :
    strtokLoop delim body (fuel + 1) (line ++ c :: rest) state =
      (body state (line ++ [0])).bind
        (strtokLoop delim body fuel (if c = 0 then c :: rest else rest)) := by
  rw [strtokLoop, strtokR_token hne hnul hdelim hc]
  rfl

theorem strtokLoop_nul (hdelim : delim ≠ 0) (rest : List UInt8) :
    strtokLoop delim body (fuel + 1) (0 :: rest) state = some state := by
  rw [strtokLoop, strtokR_nul hdelim]
  rfl

/-- **The loop over a string**: `lines` that end with the delimiter, and a `last` one that does
not.  Its body runs for each that is not empty. -/
theorem strtokLoop_lines (hdelim : delim ≠ 0) {lines : List (List UInt8)} {last : List UInt8}
    (hlines : ∀ line ∈ lines ++ [last], delim ∉ line ∧ 0 ∉ line) (hfuel : lines.length + 1 < fuel)
    (rest : List UInt8) :
    strtokLoop delim body fuel (lines.flatMap (· ++ [delim]) ++ (last ++ 0 :: rest)) state =
      ((lines ++ [last]).filter (· ≠ [])).foldlM (fun state line => body state (line ++ [0]))
        state := by
  induction lines generalizing fuel state with
  | nil =>
      obtain ⟨fuel, rfl⟩ : ∃ n, fuel = n + 2 := ⟨fuel - 2, by simp at hfuel; omega⟩
      obtain ⟨hdelim', hnul⟩ := hlines last (by simp)
      by_cases hlast : last = []
      · subst hlast
        exact strtokLoop_nul hdelim rest
      · rw [List.flatMap_nil, List.nil_append, strtokLoop_token hlast hnul hdelim' (.inr rfl),
          if_pos rfl]
        simp only [List.nil_append, List.filter_cons, ne_eq, hlast, not_false_eq_true,
          decide_true, if_true, List.filter_nil, List.foldlM_cons, List.foldlM_nil]
        cases body state (last ++ [0]) with
        | none => rfl
        | some state' => exact strtokLoop_nul hdelim rest
  | cons line lines ih =>
      rw [List.length_cons] at hfuel
      have hlines' : ∀ line ∈ lines ++ [last], delim ∉ line ∧ 0 ∉ line :=
        fun line' hline => hlines line' (List.mem_cons_of_mem _ hline)
      obtain ⟨hdelim', hnul⟩ := hlines line List.mem_cons_self
      have htext : (line :: lines).flatMap (· ++ [delim]) ++ (last ++ 0 :: rest) =
          line ++ delim :: (lines.flatMap (· ++ [delim]) ++ (last ++ 0 :: rest)) := by
        simp
      rw [htext]
      by_cases hline : line = []
      · subst hline
        rw [List.nil_append, strtokLoop_cons, ih hlines' (by omega)]
        rfl
      · obtain ⟨fuel, rfl⟩ : ∃ n, fuel = n + 1 := ⟨fuel - 1, by omega⟩
        rw [strtokLoop_token hline hnul hdelim' (.inl rfl), if_neg hdelim, List.cons_append,
          List.filter_cons_of_pos (by simpa using hline), List.foldlM_cons]
        cases body state (line ++ [0]) with
        | none => rfl
        | some state' => exact ih hlines' (by omega)

/-- Every string is lines that end with the delimiter, and a last one that does not. -/
theorem exists_tokens (delim : UInt8) (s : List UInt8) : ∃ lines last,
    s = lines.flatMap (· ++ [delim]) ++ last ∧
    ∀ line ∈ lines ++ [last], delim ∉ line ∧ ∀ c ∈ line, c ∈ s := by
  induction s with
  | nil => exact ⟨[], [], rfl, by simp⟩
  | cons c s ih =>
      obtain ⟨lines, last, hs, hlines⟩ := ih
      have hmem : ∀ line ∈ lines ++ [last], delim ∉ line ∧ ∀ x ∈ line, x ∈ c :: s :=
        fun line hline =>
          (hlines line hline).imp_right fun h x hx => List.mem_cons_of_mem c (h x hx)
      by_cases hc : c = delim
      · subst hc
        refine ⟨[] :: lines, last, by rw [hs]; simp, ?_⟩
        rw [List.cons_append, List.forall_mem_cons]
        exact ⟨by simp, hmem⟩
      · cases lines with
        | nil =>
            refine ⟨[], c :: last, by rw [hs]; rfl, ?_⟩
            obtain ⟨hlast, hsub⟩ := hmem last (by simp)
            simpa [Ne.symm hc, hlast] using hsub
        | cons line lines =>
            refine ⟨(c :: line) :: lines, last, by rw [hs]; simp, ?_⟩
            rw [List.cons_append, List.forall_mem_cons] at hmem ⊢
            refine ⟨?_, hmem.2⟩
            obtain ⟨hline, hsub⟩ := hmem.1
            simpa [Ne.symm hc, hline] using hsub

/-- Where the memory holds no NUL, the loop runs off its end. -/
theorem strtokLoop_stuck {s : List UInt8} (h : 0 ∉ s) (fuel : ℕ) (state : σ) :
    strtokLoop delim body fuel s state = none := by
  induction fuel generalizing s state with
  | zero => rfl
  | succ fuel ih =>
      have hsave : ∀ token save, strtokR s delim = some (token, save) →
          token ≠ none ∧ 0 ∉ save := by
        intro token save hstrtok
        rw [strtokR] at hstrtok
        cases hskip : s.dropWhile (· = delim) with
        | nil =>
            rw [hskip] at hstrtok
            cases hstrtok
        | cons c t =>
            have hnul : 0 ∉ c :: t := by
              rw [← hskip]
              exact fun hmem => h (List.dropWhile_subset _ hmem)
            rw [hskip] at hstrtok
            simp only [if_neg fun hc : c = 0 => hnul (hc ▸ List.mem_cons_self)] at hstrtok
            cases hdrop : (c :: t).dropWhile fun x => x ≠ delim ∧ x ≠ 0 with
            | nil =>
                rw [hdrop] at hstrtok
                cases hstrtok
            | cons x rest =>
                have hrest : 0 ∉ x :: rest := by
                  rw [← hdrop]
                  exact fun hmem => hnul (List.dropWhile_subset _ hmem)
                rw [hdrop] at hstrtok
                simp only [if_neg fun hx : x = 0 => hrest (hx ▸ List.mem_cons_self)] at hstrtok
                obtain ⟨rfl, rfl⟩ := Prod.mk.inj (Option.some.inj hstrtok)
                exact ⟨Option.some_ne_none _, fun hmem => hrest (List.mem_cons_of_mem _ hmem)⟩
      rw [strtokLoop]
      cases hstrtok : strtokR s delim with
      | none => rfl
      | some r =>
          obtain ⟨token, save⟩ := r
          obtain ⟨htoken, hnul⟩ := hsave token save hstrtok
          cases token with
          | none => exact absurd rfl htoken
          | some token =>
              change (body state (token ++ [0])).bind (strtokLoop delim body fuel save) = none
              cases body state (token ++ [0]) with
              | none => rfl
              | some state' => exact ih hnul state'

end Tokens

end Ctm
