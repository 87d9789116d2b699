import Ctm.Libc
import Mathlib.Data.List.Basic
import Mathlib.Data.List.Induction

/-!
# Printed numbers and strings

The conversions `%u`, `%d` and `%s` of the `printf` family, with the field widths the
program uses.  Printing and reading a number are inverse to each other, except that leading
zeros are read and never printed.

## Main definitions

* `unsignedText`, `signedText`, `leftJustify` — the conversions.
* `snprintf` — what is returned, and what is left in the buffer.
* `Canonical` — a numeral without leading zeros.
* `decimal_unsignedText`, `unsignedText_decimal` — reading what was printed, and back.
* `length_unsignedText_le` — how long a number is.
-/

namespace Ctm

/-- `%u` -/
def unsignedText (n : ℕ) : List UInt8 := (Nat.toDigits 10 n).map fun c => UInt8.ofNat c.toNat

/-- `%d` -/
def signedText : ℤ → List UInt8
  | .ofNat n => unsignedText n
  | .negSucc n => 45 :: unsignedText (n + 1)

/-- `%-*s`: the text, with blanks behind it up to the width. -/
def leftJustify (width : ℕ) (s : List UInt8) : List UInt8 :=
  s ++ List.replicate (width - s.length) 32

/-- `snprintf`: the length of the whole text, and the string left in a buffer of `size` bytes. -/
def snprintf (size : ℕ) (text : List UInt8) : ℕ × List UInt8 := (text.length, text.take (size - 1))

/-- Digits of which the first is not a zero, unless it is the only one. -/
def Canonical (s : List UInt8) : Prop :=
  s ≠ [] ∧ (∀ c ∈ s, isdigit c = true) ∧ (s.head? = some 48 → s = [48])

instance : DecidablePred Canonical := fun _ => inferInstanceAs (Decidable (_ ∧ _))

/-- The byte of a digit. -/
def digitByte (d : ℕ) : UInt8 := UInt8.ofNat (48 + d)

variable {n d k width : ℕ} {c : UInt8} {s : List UInt8}

theorem toNat_digitByte (hd : d < 10) : (digitByte d).toNat = 48 + d := by
  rw [digitByte, UInt8.toNat_ofNat']
  omega

theorem isdigit_digitByte (hd : d < 10) : isdigit (digitByte d) = true := by
  simp only [isdigit, Bool.and_eq_true, decide_eq_true_eq, UInt8.le_iff_toNat_le,
    toNat_digitByte hd]
  change 48 ≤ 48 + d ∧ 48 + d ≤ 57
  omega

theorem digitByte_of_isdigit (hc : isdigit c = true) : digitByte (c.toNat - 48) = c := by
  obtain ⟨hlow, hhigh⟩ := toNat_of_isdigit hc
  apply UInt8.toNat_inj.mp
  rw [toNat_digitByte (by omega)]
  omega

/-! ## Printing -/

/-- The last digit comes off the end. -/
theorem unsignedText_eq (n : ℕ) :
    unsignedText n =
      if n < 10 then [digitByte n] else unsignedText (n / 10) ++ [digitByte (n % 10)] := by
  have hbyte : ∀ d, d < 10 → UInt8.ofNat d.digitChar.toNat = digitByte d := by
    intro d hd
    rw [Nat.toNat_digitChar_of_lt_ten hd, digitByte]
  rw [unsignedText, Nat.toDigits_eq_if (by omega)]
  by_cases hn : n < 10
  · rw [if_pos hn, if_pos hn, List.map_singleton, hbyte n hn]
  · rw [if_neg hn, if_neg hn, List.map_append, List.map_singleton,
      hbyte (n % 10) (Nat.mod_lt n (by omega)), unsignedText]

theorem unsignedText_of_lt (hn : n < 10) : unsignedText n = [digitByte n] := by
  rw [unsignedText_eq, if_pos hn]

/-- One more digit behind a number that is not zero. -/
theorem unsignedText_append (hn : 0 < n) (hd : d < 10) :
    unsignedText n ++ [digitByte d] = unsignedText (10 * n + d) := by
  rw [unsignedText_eq (10 * n + d), if_neg (by omega), show (10 * n + d) / 10 = n by omega,
    show (10 * n + d) % 10 = d by omega]

theorem unsignedText_ne_nil (n : ℕ) : unsignedText n ≠ [] := by
  rw [unsignedText_eq]
  split
  · exact List.cons_ne_nil _ _
  · exact List.append_ne_nil_of_right_ne_nil _ (List.cons_ne_nil _ _)

theorem isdigit_of_mem_unsignedText (hc : c ∈ unsignedText n) : isdigit c = true := by
  induction n using Nat.strongRecOn with
  | ind n ih =>
      rw [unsignedText_eq] at hc
      by_cases hn : n < 10
      · rw [if_pos hn, List.mem_singleton] at hc
        rw [hc]
        exact isdigit_digitByte hn
      · rw [if_neg hn, List.mem_append, List.mem_singleton] at hc
        cases hc with
        | inl hc => exact ih (n / 10) (by omega) hc
        | inr hc =>
            rw [hc]
            exact isdigit_digitByte (Nat.mod_lt n (by omega))

/-- A number that is not zero starts with no zero. -/
theorem head?_unsignedText_ne (hn : 0 < n) : (unsignedText n).head? ≠ some 48 := by
  induction n using Nat.strongRecOn with
  | ind n ih =>
      rw [unsignedText_eq]
      by_cases hlt : n < 10
      · rw [if_pos hlt]
        intro heq
        have hbyte := congrArg UInt8.toNat (Option.some.inj heq)
        rw [toNat_digitByte hlt] at hbyte
        change 48 + n = 48 at hbyte
        omega
      · rw [if_neg hlt, List.head?_append_of_ne_nil _ (unsignedText_ne_nil _)]
        exact ih (n / 10) (by omega) (by omega)

/-- A number below `10 ^ k` has at most `k` digits. -/
theorem length_unsignedText_le (hk : 0 < k) : (unsignedText n).length ≤ k ↔ n < 10 ^ k := by
  rw [unsignedText, List.length_map]
  exact Nat.length_toDigits_le_iff (by omega) hk

/-! ## Reading back -/

theorem decimal_append_singleton (s : List UInt8) (c : UInt8) :
    decimal (s ++ [c]) = 10 * decimal s + (c.toNat - 48) := by
  simp [decimal]

/-- **A printed number is read back.** -/
@[simp] theorem decimal_unsignedText (n : ℕ) : decimal (unsignedText n) = n := by
  induction n using Nat.strongRecOn with
  | ind n ih =>
      rw [unsignedText_eq]
      by_cases hn : n < 10
      · have hread : decimal [digitByte n] = (digitByte n).toNat - 48 := Nat.zero_add _
        rw [if_pos hn, hread, toNat_digitByte hn]
        omega
      · rw [if_neg hn, decimal_append_singleton, ih (n / 10) (by omega),
          toNat_digitByte (Nat.mod_lt n (by omega))]
        omega

/-- A numeral without leading zeros is printed as it was read. -/
theorem unsignedText_decimal (h : Canonical s) : unsignedText (decimal s) = s := by
  obtain ⟨hne, hdigits, hzero⟩ := h
  induction s using List.reverseRecOn with
  | nil => exact absurd rfl hne
  | append_singleton s c ih =>
      have hc : isdigit c = true := hdigits c (by simp)
      obtain ⟨hlow, hhigh⟩ := toNat_of_isdigit hc
      rw [decimal_append_singleton]
      by_cases hs : s = []
      · rw [hs, show decimal [] = 0 from rfl, Nat.mul_zero, Nat.zero_add,
          unsignedText_of_lt (by omega), digitByte_of_isdigit hc]
        rfl
      · have hhead : s.head? ≠ some 48 := by
          intro heq
          rw [List.head?_append_of_ne_nil s hs] at hzero
          have hlength := congrArg List.length (hzero heq)
          have hpos := List.length_pos_iff.mpr hs
          simp only [List.length_append, List.length_singleton] at hlength
          omega
        have hprint : unsignedText (decimal s) = s :=
          ih hs (fun c hc => hdigits c (by simp [hc])) fun heq => absurd heq hhead
        have hpos : 0 < decimal s := by
          rcases Nat.eq_zero_or_pos (decimal s) with heq | hpos
          · rw [heq] at hprint
            rw [← hprint] at hhead
            exact absurd rfl hhead
          · exact hpos
        rw [← unsignedText_append hpos (by omega), hprint, digitByte_of_isdigit hc]

theorem unsignedText_injective : Function.Injective unsignedText := by
  intro n m h
  rw [← decimal_unsignedText n, h, decimal_unsignedText]

/-! ## Fields -/

theorem length_leftJustify (width : ℕ) (s : List UInt8) :
    (leftJustify width s).length = max width s.length := by
  rw [leftJustify, List.length_append, List.length_replicate]
  omega

end Ctm
