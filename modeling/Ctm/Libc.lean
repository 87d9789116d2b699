import Mathlib.Algebra.Group.Int.Defs
import Mathlib.Algebra.Group.Nat.Defs
import Mathlib.Data.Int.Notation
import Mathlib.Data.List.TakeWhile

/-!
# C library vocabulary

The values of `errno` the program tests or sets, `size_t` arithmetic, the blocks `calloc`
hands out, what files answer, and numbers in strings.  A C string is the list of its bytes
before the NUL.
-/

namespace Ctm

/-- The value of `errno`.  `clear` is zero; `other` stands for every code the program
neither sets nor tests by name. -/
inductive Errno
  | clear
  | EINVAL
  | ENOMEM
  | EAGAIN
  | ENOENT
  | ERANGE
  | ESRCH
  | EDEADLK
  | other (code : ℕ)
  deriving DecidableEq, Repr, Inhabited

/-- One past the largest `size_t`, on the 64-bit platform the program is built for. -/
def sizeMod : ℕ := 2 ^ 64

/-- The largest block the allocator hands out. -/
def ptrdiffMax : ℕ := 2 ^ 63 - 1

/-- The remainder of unsigned numbers, undefined for a zero divisor. -/
def umod (a b : ℕ) : Option ℕ := if b = 0 then none else some (a % b)

/-- `calloc`: zeroed bytes, or NULL when memory is short (`ok` is false) or when the block
would be too large. -/
def calloc (ok : Bool) (nmemb size : ℕ) : Option (List UInt8) :=
  if ok ∧ nmemb * size ≤ ptrdiffMax then some (List.replicate (nmemb * size) 0) else none

/-- What `fopen` and `fread` answer. -/
inductive FileAnswer
  | refused
  | unreadable
  | content (bytes : List UInt8)
  deriving DecidableEq, Repr

/-- Adding one and then taking it away, in unsigned arithmetic. -/
theorem succ_mod_pred_mod {m : ℕ} (hm : 0 < m) (n : ℕ) :
    ((n + 1) % m + (m - 1)) % m = n % m := by
  rw [Nat.mod_add_mod, show n + 1 + (m - 1) = n + m by omega, Nat.add_mod_right]

theorem sizeMod_pos : 0 < sizeMod := Nat.two_pow_pos 64

theorem umod_of_pos {a b : ℕ} (h : 0 < b) : umod a b = some (a % b) := if_neg (by omega)

theorem calloc_eq_some {ok : Bool} {nmemb size : ℕ} {block : List UInt8}
    (h : calloc ok nmemb size = some block) :
    nmemb * size ≤ ptrdiffMax ∧ block = List.replicate (nmemb * size) 0 := by
  rw [calloc] at h
  split at h
  · rename_i hok
    exact ⟨hok.2, (Option.some.inj h).symm⟩
  · cases h

/-! ## Numbers in strings -/

/-- `isdigit`, for an `unsigned char`. -/
def isdigit (c : UInt8) : Bool := 48 ≤ c && c ≤ 57

/-- `isspace`, in the C locale. -/
def isspace (c : UInt8) : Bool := c == 32 || (9 ≤ c && c ≤ 13)

/-- The number a string of decimal digits denotes. -/
def decimal (digits : List UInt8) : ℕ := digits.foldl (fun n c => 10 * n + (c.toNat - 48)) 0

/-- `LONG_MAX` -/
def longMax : ℤ := 2 ^ 63 - 1

/-- `LONG_MIN` -/
def longMin : ℤ := -2 ^ 63

/-- `strtol` in base 10: the number, the string at `end_ptr`, and the `errno` set. -/
def strtol (s : List UInt8) : ℤ × List UInt8 × Option Errno :=
  let signed : ℤ × List UInt8 := match s.dropWhile isspace with
    | 45 :: t => (-1, t)
    | 43 :: t => (1, t)
    | t => (1, t)
  let digits := signed.2.takeWhile isdigit
  let rest := signed.2.dropWhile isdigit
  if digits = [] then (0, s, none)
  else
    let n := signed.1 * decimal digits
    if longMax < n then (longMax, rest, some .ERANGE)
    else if n < longMin then (longMin, rest, some .ERANGE)
    else (n, rest, none)

theorem toNat_of_isdigit {c : UInt8} (hc : isdigit c = true) : 48 ≤ c.toNat ∧ c.toNat ≤ 57 := by
  simp only [isdigit, Bool.and_eq_true, decide_eq_true_eq, UInt8.le_iff_toNat_le] at hc
  exact hc

theorem not_isspace_of_isdigit {c : UInt8} (hc : isdigit c = true) : isspace c = false := by
  obtain ⟨h, -⟩ := toNat_of_isdigit hc
  have h32 : c ≠ 32 := by
    rintro rfl
    exact absurd h (by decide)
  have h13 : ¬ c ≤ 13 := by
    rw [UInt8.le_iff_toNat_le]
    have : (13 : UInt8).toNat = 13 := rfl
    omega
  simp [isspace, h32, h13]

/-- A string that starts with a digit is read without white space or sign. -/
theorem strtol_of_digit {c : UInt8} {s : List UInt8} (hc : isdigit c = true) :
    strtol (c :: s) =
      if longMax < decimal (c :: s.takeWhile isdigit) then
        (longMax, s.dropWhile isdigit, some .ERANGE)
      else (decimal (c :: s.takeWhile isdigit), s.dropWhile isdigit, none) := by
  obtain ⟨h, -⟩ := toNat_of_isdigit hc
  have hsigned : (match (c :: s).dropWhile isspace with
      | 45 :: t => ((-1 : ℤ), t)
      | 43 :: t => (1, t)
      | t => (1, t)) = (1, c :: s) := by
    rw [List.dropWhile_cons_of_neg (by rw [not_isspace_of_isdigit hc]; decide)]
    split
    · rename_i heq
      obtain ⟨rfl, -⟩ := List.cons.inj heq
      exact absurd h (by decide)
    · rename_i heq
      obtain ⟨rfl, -⟩ := List.cons.inj heq
      exact absurd h (by decide)
    · rfl
  have hmin : ¬ (decimal (c :: s.takeWhile isdigit) : ℤ) < longMin := by
    simp only [longMin]
    omega
  simp only [strtol, hsigned, List.takeWhile_cons_of_pos hc, List.dropWhile_cons_of_pos hc,
    Int.one_mul, if_neg hmin, reduceCtorEq, if_false]

theorem strtol_rest {c : UInt8} {s : List UInt8} (hc : isdigit c = true) :
    (strtol (c :: s)).2.1 = s.dropWhile isdigit := by
  rw [strtol_of_digit hc]
  split
  · rfl
  · rfl

/-- A string of digits is read as its number, when it is a `long`. -/
theorem strtol_of_digits {c : UInt8} {s : List UInt8} (hc : isdigit c = true)
    (hs : s.all isdigit = true) (hn : (decimal (c :: s) : ℤ) ≤ longMax) :
    strtol (c :: s) = ((decimal (c :: s) : ℤ), [], none) := by
  rw [List.all_eq_true] at hs
  rw [strtol_of_digit hc, List.takeWhile_eq_self_iff.mpr hs, List.dropWhile_eq_nil_iff.mpr hs,
    if_neg (Int.not_lt.mpr hn)]

end Ctm
