import Ctm.HashMap.Refinement
import Mathlib.Data.Int.GCD
import Mathlib.Data.Int.ModEq

/-!
# Home slots of integer keys

`hash_int` is multiplication by an odd number, so it permutes the residues modulo every
power of two.  Sign extension and the wrapped product change nothing modulo a divisor of
`2^64`, and every size a table can have is one.  So keys have the same home slot exactly
when they are congruent modulo the size of the table.

## Main definitions

* `hashInt_modEq` — the hash, modulo `2^64`.
* `hashInt_mod_eq_iff` — when two keys collide in a table of a given size.
* `Load.capacity_dvd` — the sizes a table can have.
* `hashInt_collides_iff` — when two keys collide in a map that calls lead to.
-/

namespace Ctm

/-- The hash is the product of the key and the multiplier, modulo `2^64`. -/
theorem hashInt_modEq (pid : BitVec 32) :
    ((hashInt pid).toNat : ℤ) ≡ pid.toInt * 2654435761 [ZMOD 2 ^ 64] := by
  have hsigned : ((hashInt pid).toNat : ℤ) ≡ (hashInt pid).toInt [ZMOD 2 ^ 64] := by
    rw [BitVec.toInt_eq_toNat_bmod, Int.ModEq]
    exact Int.bmod_emod.symm
  refine hsigned.trans ?_
  rw [hashInt, BitVec.toInt_mul, BitVec.toInt_signExtend_of_le (by decide), Int.ModEq]
  exact Int.bmod_emod

/-- Modulo a divisor of `2^64` the multiplier can be cancelled. -/
theorem hashInt_mod_eq_iff {c : ℕ} (hc : c ∣ 2 ^ 64) (a b : BitVec 32) :
    (hashInt a).toNat % c = (hashInt b).toNat % c ↔ a.toInt ≡ b.toInt [ZMOD c] := by
  have hdvd : (c : ℤ) ∣ 2 ^ 64 := by exact_mod_cast hc
  have hunit : Int.gcd c 2654435761 = 1 := by
    have hodd : Nat.Coprime (2 ^ 64) 2654435761 := by decide
    exact hodd.coprime_dvd_left hc
  have hhash : ∀ pid, ((hashInt pid).toNat : ℤ) ≡ pid.toInt * 2654435761 [ZMOD c] :=
    fun pid => (hashInt_modEq pid).of_dvd hdvd
  calc (hashInt a).toNat % c = (hashInt b).toNat % c
      ↔ ((hashInt a).toNat : ℤ) ≡ (hashInt b).toNat [ZMOD c] := Int.natCast_modEq_iff.symm
    _ ↔ a.toInt * 2654435761 ≡ b.toInt * 2654435761 [ZMOD c] :=
        ⟨fun h => (hhash a).symm.trans (h.trans (hhash b)),
          fun h => (hhash a).trans (h.trans (hhash b).symm)⟩
    _ ↔ a.toInt ≡ b.toInt [ZMOD c] := by
        rw [Int.modEq_iff_dvd, Int.modEq_iff_dvd, ← sub_mul]
        exact ⟨fun h => Int.dvd_of_dvd_mul_left_of_gcd_one h hunit, fun h => h.mul_right _⟩

namespace HashMap
variable {K V : Type} {f : Callbacks K} {m : HashMap K V}

/-- The size of a table is a power of two below `2^64`. -/
theorem Load.capacity_dvd (H : Load m) : m.capacity ∣ 2 ^ 64 := by
  obtain ⟨j, hj⟩ := H.capacity_eq
  have hpow : m.capacity = 2 ^ (4 + j) := by rw [hj, pow_add]; rfl
  rw [hpow]
  refine pow_dvd_pow 2 ?_
  by_contra hlarge
  have hbytes := H.bytes_lt
  have hle : 2 ^ 64 ≤ m.capacity := by
    rw [hpow]
    exact Nat.pow_le_pow_right (by decide) (by omega)
  simp only [sizeofHashEntry, sizeMod] at hbytes
  omega

/-- **PIDs collide exactly when they are congruent** modulo the size of the table, in every map
that calls lead to; so consecutive keys, as many as there are slots, start their probes in
different slots. -/
theorem hashInt_collides_iff (h : Transition.Reachable (Created f) (Step f) m) :
    (∀ a b : BitVec 32, (hashInt a).toNat % m.capacity = (hashInt b).toNat % m.capacity ↔
      a.toInt ≡ b.toInt [ZMOD m.capacity]) ∧
    ∀ n : ℤ, -2 ^ 31 ≤ n → n + m.capacity ≤ 2 ^ 31 → Function.Injective fun i : Fin m.capacity =>
      slotOf m.capacity_pos (hashInt (BitVec.ofInt 32 (n + i))).toNat := by
  have hcollides := hashInt_mod_eq_iff (load_of_reachable h).capacity_dvd
  refine ⟨hcollides, ?_⟩
  intro n hlow hhigh i j hij
  have hkey : ∀ i : Fin m.capacity, (BitVec.ofInt 32 (n + i)).toInt = n + i := by
    intro i
    have hi := i.isLt
    rw [BitVec.toInt_ofInt]
    exact Int.bmod_eq_of_le (by omega) (by omega)
  have hmod := (hcollides _ _).mp (congrArg Fin.val hij)
  rw [hkey, hkey] at hmod
  have hnat : (i : ℕ) ≡ j [MOD m.capacity] :=
    Int.natCast_modEq_iff.mp (Int.ModEq.add_left_cancel' n hmod)
  exact Fin.ext (Nat.ModEq.eq_of_lt_of_lt hnat i.isLt j.isLt)

/-- In a table of 16 slots the PIDs 15 and -1 have the same home slot, and so no two of the
keys from -1 to 14. -/
theorem hashInt_collides_sixteen :
    (hashInt (-1)).toNat % 16 = (hashInt 15).toNat % 16 ∧
      Function.Injective fun i : Fin 16 =>
        slotOf (by decide : 0 < 16) (hashInt (BitVec.ofInt 32 (-1 + i))).toNat := by
  obtain ⟨hcollides, hspread⟩ :=
    hashInt_collides_iff (.init created_empty : Transition.Reachable (Created (intCallbacks 0))
      (Step (intCallbacks 0)) (empty : HashMap _ ℕ))
  exact ⟨(hcollides (-1) 15).mpr (by decide), hspread (-1) (by decide) (by decide)⟩

end HashMap
end Ctm
