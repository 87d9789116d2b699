import Ctm.Metrics.Cpu

/-!
# The usage of the processor

`cpu_total_usage` takes the idle part of the time between two samples from 100000.  All
counters wrap, and so do the totals and their difference; for samples that only counted on
the result is exact all the same.  Where a counter went back, or the totals are equal,
nothing keeps the result a percentage.

## Main definitions

* `Bounded` — when the result is a percentage.
* `usage_le_iff` — it is exactly then.
* `Increments`, `Cpu.advance` — a sample counted on.
* `usage_exact` — the usage between a sample and a later one.
-/

namespace Ctm

variable {curr prev : Cpu} {out : UInt64}

/-- `cpu_total_usage` of two samples. -/
theorem cpuTotalUsage_eq (curr prev : Cpu) (out : UInt64) :
    cpuTotalUsage (some curr) (some prev) (some out) =
      if getTotalTime prev = 0 ∧ getTotalTime curr = 0 then (.errInternal, some out)
      else if getTotalTime curr = getTotalTime prev then (.success, some out)
      else (.success, some (100000 - (curr.idle - prev.idle) * 100000 /
        (getTotalTime curr - getTotalTime prev))) := by
  have hdelta : getTotalTime curr - getTotalTime prev = 0 ↔
      getTotalTime curr = getTotalTime prev := by
    grind
  simp only [cpuTotalUsage, hdelta]

/-- The counters are all zero, or the totals are equal and `*out` is a percentage already, or the
idle part is at most the whole. -/
def Bounded (curr prev : Cpu) (out : UInt64) : Prop :=
  (getTotalTime prev = 0 ∧ getTotalTime curr = 0) ∨
  (getTotalTime curr = getTotalTime prev ∧ out ≤ 100000) ∨
  (getTotalTime curr ≠ getTotalTime prev ∧
    ((curr.idle - prev.idle) * 100000).toNat <
      100001 * (getTotalTime curr - getTotalTime prev).toNat)

/-- A difference from 100000 is at most that much when nothing wraps. -/
theorem sub_le_iff (x : UInt64) : 100000 - x ≤ 100000 ↔ x.toNat ≤ 100000 := by
  have hx := x.toNat_lt
  rw [UInt64.le_iff_toNat_le, UInt64.toNat_sub]
  simp only [UInt64.reduceToNat]
  omega

/-- **When the usage is a percentage.** -/
theorem usage_le_iff (curr prev : Cpu) (out : UInt64) :
    (∀ r, cpuTotalUsage (some curr) (some prev) (some out) = (.success, some r) → r ≤ 100000) ↔
      Bounded curr prev out := by
  rw [cpuTotalUsage_eq, Bounded]
  by_cases hzero : getTotalTime prev = 0 ∧ getTotalTime curr = 0
  · rw [if_pos hzero]
    refine iff_of_true (fun r h => ?_) (.inl hzero)
    cases (Prod.mk.inj h).1
  · rw [if_neg hzero, or_iff_right hzero]
    by_cases hsame : getTotalTime curr = getTotalTime prev
    · rw [if_pos hsame, and_iff_right hsame, or_iff_left fun h => h.1 hsame]
      constructor
      · exact fun h => h out rfl
      · intro hout r hr
        rwa [← Option.some.inj (Prod.mk.inj hr).2]
    · have hdelta : getTotalTime curr - getTotalTime prev ≠ 0 := by
        grind
      have hpos : 0 < (getTotalTime curr - getTotalTime prev).toNat :=
        Nat.pos_of_ne_zero fun h => hdelta (UInt64.toNat_inj.mp h)
      rw [if_neg hsame, or_iff_right fun h => hsame h.1, and_iff_right hsame]
      generalize getTotalTime curr - getTotalTime prev = totalDelta at hpos
      generalize (curr.idle - prev.idle) * 100000 = scaled
      have hle : 100000 - scaled / totalDelta ≤ 100000 ↔
          scaled.toNat < 100001 * totalDelta.toNat := by
        rw [sub_le_iff, UInt64.toNat_div, ← Nat.lt_succ_iff, Nat.div_lt_iff_lt_mul hpos]
      rw [← hle]
      constructor
      · exact fun h => h _ rfl
      · intro h r hr
        rwa [← Option.some.inj (Prod.mk.inj hr).2]

/-- Two samples between which `idle` went on by 5 and `iowait` went back by 2. -/
def backSamples : Cpu × Cpu :=
  (⟨0, 0, 0, 5, 3, 0, 0, 0, 0, 0⟩, ⟨0, 0, 0, 0, 5, 0, 0, 0, 0, 0⟩)

/-- The idle part is more than the whole, and the usage is close to 2^64. -/
theorem usage_wraps : ¬ ∀ (curr prev : Cpu) out r,
    cpuTotalUsage (some curr) (some prev) (some out) = (.success, some r) → r ≤ 100000 := by
  intro hall
  have hrun : cpuTotalUsage (some backSamples.1) (some backSamples.2) (some 0) =
      (.success, some 18446744073709484950) := by decide
  exact absurd (hall _ _ 0 _ hrun) (by decide)

/-! ## Samples that counted on -/

/-- What was counted between two samples. -/
structure Increments where
  user : ℕ
  nice : ℕ
  system : ℕ
  idle : ℕ
  iowait : ℕ
  irq : ℕ
  softirq : ℕ

/-- All that was counted. -/
def Increments.total (d : Increments) : ℕ :=
  d.user + d.nice + d.system + d.idle + d.iowait + d.irq + d.softirq

/-- A later sample: each counter has gone on, modulo 2^64. -/
structure Later (prev : Cpu) (d : Increments) (curr : Cpu) : Prop where
  user : curr.user = prev.user + .ofNat d.user
  nice : curr.nice = prev.nice + .ofNat d.nice
  system : curr.system = prev.system + .ofNat d.system
  idle : curr.idle = prev.idle + .ofNat d.idle
  iowait : curr.iowait = prev.iowait + .ofNat d.iowait
  irq : curr.irq = prev.irq + .ofNat d.irq
  softirq : curr.softirq = prev.softirq + .ofNat d.softirq

/-- The totals have gone on by all that was counted. -/
theorem Later.totalTime {d : Increments} (h : Later prev d curr) :
    getTotalTime curr - getTotalTime prev = .ofNat d.total := by
  simp only [getTotalTime, h.user, h.nice, h.system, h.idle, h.iowait, h.irq, h.softirq,
    Increments.total, UInt64.ofNat_add]
  grind

/-- **The usage is exact, whatever wrapped.** -/
theorem usage_exact {d : Increments} (h : Later prev d curr) (hpos : 0 < d.total)
    (hlt : d.total < 2 ^ 64) (hidle : 100000 * d.idle < 2 ^ 64) (out : UInt64) :
    ∃ r, cpuTotalUsage (some curr) (some prev) (some out) = (.success, some r) ∧
      r.toNat = 100000 - 100000 * d.idle / d.total ∧ r.toNat ≤ 100000 := by
  have htotal : (getTotalTime curr - getTotalTime prev).toNat = d.total := by
    rw [h.totalTime]
    exact UInt64.toNat_ofNat_of_lt' hlt
  have hsame : getTotalTime curr ≠ getTotalTime prev := by
    intro hsame
    rw [hsame, UInt64.sub_self] at htotal
    have : (0 : UInt64).toNat = 0 := rfl
    omega
  have hzero : ¬ (getTotalTime prev = 0 ∧ getTotalTime curr = 0) :=
    fun hzero => hsame (hzero.2.trans hzero.1.symm)
  have hscaled : ((curr.idle - prev.idle) * 100000).toNat = 100000 * d.idle := by
    have hdelta : curr.idle - prev.idle = .ofNat d.idle := by
      rw [h.idle]
      grind
    have hvalue : (UInt64.ofNat d.idle).toNat = d.idle :=
      UInt64.toNat_ofNat_of_lt' (show d.idle < 2 ^ 64 by omega)
    rw [hdelta, UInt64.toNat_mul, hvalue, Nat.mul_comm]
    exact Nat.mod_eq_of_lt hidle
  have hquot : 100000 * d.idle / d.total ≤ 100000 := by
    refine Nat.div_le_of_le_mul ?_
    rw [Nat.mul_comm d.total]
    refine Nat.mul_le_mul_left _ ?_
    rw [Increments.total]
    omega
  refine ⟨_, by rw [cpuTotalUsage_eq, if_neg hzero, if_neg hsame], ?_⟩
  have hr : (100000 - (curr.idle - prev.idle) * 100000 /
      (getTotalTime curr - getTotalTime prev)).toNat = 100000 - 100000 * d.idle / d.total := by
    have hdiv := UInt64.toNat_div ((curr.idle - prev.idle) * 100000)
      (getTotalTime curr - getTotalTime prev)
    rw [hscaled, htotal] at hdiv
    rw [UInt64.toNat_sub, hdiv]
    simp only [UInt64.reduceToNat]
    omega
  exact ⟨hr, hr.trans_le (Nat.sub_le _ _)⟩

/-- A sample in which the idle counter and the total wrap. -/
theorem usage_exact_wrapped : ∃ r,
    cpuTotalUsage (some ⟨4, 0, 0, 2, 0, 0, 0, 0, 0, 0⟩)
      (some ⟨1, 0, 0, 18446744073709551615, 0, 0, 0, 0, 0, 0⟩) (some 7) = (.success, some r) ∧
      r.toNat = 100000 - 100000 * 3 / 6 ∧ r.toNat ≤ 100000 :=
  have hlater : Later ⟨1, 0, 0, 18446744073709551615, 0, 0, 0, 0, 0, 0⟩ ⟨3, 0, 0, 3, 0, 0, 0⟩
      ⟨4, 0, 0, 2, 0, 0, 0, 0, 0, 0⟩ := ⟨rfl, rfl, rfl, rfl, rfl, rfl, rfl⟩
  usage_exact hlater (by decide) (by decide) (by decide) 7

end Ctm
