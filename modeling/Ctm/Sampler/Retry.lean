import Ctm.Sampler.Consumers

/-!
# Retrying a read

`sampler_get_value` answers `EAGAIN` whenever one of its two slots is missing.  For a
window below the capacity of the ring buffer that is a matter of time: the slot is there
after `w + 1` captures.  A window at the capacity or above asks for a slot the ring buffer
never has, and the answer to it is `EAGAIN` for ever.

## Main definitions

* `Captured` — a sampler after a number of captures, all successful.
* `RetryHonoured` — a read that was told to retry succeeds after enough captures.
* `retryHonoured_iff` — the windows whose retries are honoured.
-/

namespace Ctm
namespace Sampler
variable {s s' : Sampler} {itemSize n w : ℕ} {processFn : List UInt8 → List UInt8 → ℤ}

/-- The sampler after `n` captures, all successful, with any reads between them. -/
def Captured (processFn : List UInt8 → List UInt8 → ℤ) (itemSize : ℕ) (s : Sampler) (n : ℕ)
    (s' : Sampler) : Prop :=
  ∃ es, run processFn s es = some s' ∧ (captures es).length = n ∧
    ∀ c ∈ captures es, c.ok = true ∧ c.slot.length = itemSize

/-- A read of window `w` that fails with `EAGAIN` calls `process_fn` after every large enough
number of captures. -/
def RetryHonoured (processFn : List UInt8 → List UInt8 → ℤ) (itemSize : ℕ) (s : Sampler)
    (w : ℕ) : Prop :=
  ∀ n s₁ v, Captured processFn itemSize s n s₁ →
    getValue (some s₁) w (some processFn) = some v → v.errno = some .EAGAIN →
    ∃ m, ∀ n' ≥ m, ∀ s₂, Captured processFn itemSize s n' s₂ →
      ∃ v', getValue (some s₂) w (some processFn) = some v' ∧ v'.args.isSome

/-- The captures are in the ring buffer. -/
theorem Captured.sampling (hs : Started itemSize s) (h : Captured processFn itemSize s n s') :
    ∃ xs, xs.length = n ∧ Sampling s' xs := by
  obtain ⟨es, hrun, hlen, hc⟩ := h
  obtain ⟨H, hsize⟩ := hs.sampling
  obtain ⟨s₁, hrun₁, H₁⟩ := run_sampling processFn H (fun c hmem => by
    rw [hsize]
    exact (hc c hmem).2)
  obtain rfl := Option.some.inj (hrun.symm.trans hrun₁)
  refine ⟨_, ?_, H₁⟩
  rw [List.append_nil, List.length_map, hlen]

/-- Any number of captures can be made. -/
theorem exists_captured (hs : Started itemSize s) (n : ℕ) :
    ∃ s', Captured processFn itemSize s n s' := by
  let c : Capture := ⟨0, List.replicate itemSize 0⟩
  have hcaptures : captures (List.replicate n (.iteration c)) = List.replicate n c := by
    have hcapture : Event.capture (.iteration c) = some c := rfl
    rw [captures, List.filterMap_replicate_of_some hcapture, List.reverse_replicate]
  have hall : ∀ c' ∈ List.replicate n c, c'.ok = true ∧ c'.slot.length = itemSize := by
    intro c' hc'
    rw [List.eq_of_mem_replicate hc']
    exact ⟨rfl, List.length_replicate⟩
  obtain ⟨H, hsize⟩ := hs.sampling
  obtain ⟨s', hrun, -⟩ := run_sampling processFn H
    (fun c' hmem => by
      rw [hcaptures] at hmem
      rw [hsize]
      exact (hall c' hmem).2)
  refine ⟨s', _, hrun, ?_, ?_⟩
  · rw [hcaptures, List.length_replicate]
  · rw [hcaptures]
    exact hall

/-- Enough captures for a window below the capacity. -/
theorem getValue_captured (hs : Started itemSize s) (h : Captured processFn itemSize s n s')
    (hw : 1 ≤ w) (hw' : w < samplerCapacity) (hn : w < n) :
    ∃ v, getValue (some s') w (some processFn) = some v ∧ v.args.isSome := by
  obtain ⟨xs, hlen, H⟩ := h.sampling hs
  refine ⟨_, getValue_sampling processFn H hw, ?_⟩
  rw [if_pos hw', valueOf, Window.pair, List.getElem?_eq_getElem (by omega),
    List.getElem?_eq_getElem (by omega)]
  rfl

/-- No number of captures is enough for a window from the capacity on. -/
theorem getValue_captured_large (hs : Started itemSize s)
    (h : Captured processFn itemSize s n s') (hw : samplerCapacity ≤ w) :
    getValue (some s') w (some processFn) = some ⟨-1, some .EAGAIN, none⟩ := by
  obtain ⟨xs, -, H⟩ := h.sampling hs
  have hpos : 1 ≤ samplerCapacity := by decide
  rw [getValue_sampling processFn H (by omega), if_neg (by omega)]

/-- **A retry request can be satisfied exactly for a window below the capacity.** -/
theorem retryHonoured_iff (hs : Started itemSize s) (hw : 1 ≤ w) :
    RetryHonoured processFn itemSize s w ↔ w < samplerCapacity := by
  constructor
  · intro hretry
    by_contra hlarge
    have hnever := fun {n s'} (h : Captured processFn itemSize s n s') =>
      getValue_captured_large hs h (not_lt.mp hlarge)
    obtain ⟨s₁, h₁⟩ := exists_captured hs 0
    obtain ⟨m, hm⟩ := hretry 0 s₁ _ h₁ (hnever h₁) rfl
    obtain ⟨s₂, h₂⟩ := exists_captured hs m
    obtain ⟨v, hv, hcalled⟩ := hm m (le_refl m) s₂ h₂
    obtain rfl := Option.some.inj (hv.symm.trans (hnever h₂))
    cases hcalled
  · intro hw' n s₁ v _ _ _
    refine ⟨w + 1, fun n' hn' s₂ h₂ => ?_⟩
    exact getValue_captured hs h₂ hw hw' (by omega)

/-- Window 1 is read after two captures. -/
theorem retryHonoured_one : RetryHonoured (fun _ _ => 0) 1
    ⟨⟨100, 0, List.replicate 100 0, 1, 0⟩, 500, true, some 7, false⟩ 1 := by
  have hs : Started 1 ⟨⟨100, 0, List.replicate 100 0, 1, 0⟩, 500, true, some 7, false⟩ :=
    ⟨500, ⟨true, true, true, none⟩, ⟨⟨100, 0, List.replicate 100 0, 1, 0⟩, 500, false, none, false⟩,
      7, rfl, rfl⟩
  exact (retryHonoured_iff hs (by decide)).mpr (by decide)

/-- A read of window 100 is told to retry after every number of captures. -/
theorem retry_never_honoured : ¬ ∀ (s : Sampler) (itemSize w : ℕ), Started itemSize s → 1 ≤ w →
    RetryHonoured (fun _ _ => 0) itemSize s w := by
  intro hall
  let s : Sampler := ⟨⟨100, 0, List.replicate 100 0, 1, 0⟩, 500, true, some 7, false⟩
  have hs : Started 1 s := ⟨500, ⟨true, true, true, none⟩,
    ⟨⟨100, 0, List.replicate 100 0, 1, 0⟩, 500, false, none, false⟩, 7, rfl, rfl⟩
  obtain ⟨s₁, h₁⟩ := exists_captured hs 0
  obtain ⟨m, hm⟩ := hall s 1 100 hs (by decide) 0 s₁ _ h₁
    (getValue_captured_large hs h₁ (by decide)) rfl
  obtain ⟨s₂, h₂⟩ := exists_captured hs m
  obtain ⟨v, hv, hcalled⟩ := hm m (le_refl m) s₂ h₂
  obtain rfl := Option.some.inj (hv.symm.trans (getValue_captured_large hs h₂ (by decide)))
  cases hcalled

end Sampler
end Ctm
