import Mathlib.Data.List.Induction

/-!
# Logs of readings

A log of readings lists pairs of a key and a value, in the order they were taken.  Later
readings of a key replace earlier ones, and a key is new at its first reading.

## Main definitions

* `last log k` — the last reading of a key.
* `newKeys old log` — the keys read that are not in `old`, in the order of their first
  readings.
-/

namespace Readings
variable {K V : Type*} [DecidableEq K] {log : List (K × V)} {old : List K} {k k' : K} {v : V}

/-- The last reading of a key. -/
def last (log : List (K × V)) (k : K) : Option V :=
  (log.reverse.find? fun r => r.1 = k).map Prod.snd

/-- The keys that are not in `old`, in the order of their first readings. -/
def newKeys (old : List K) (log : List (K × V)) : List K :=
  ((log.map Prod.fst).filter (· ∉ old)).eraseDups

theorem last_concat : last (log ++ [(k, v)]) k' = if k = k' then some v else last log k' := by
  by_cases hk : k = k'
  · simp [last, hk]
  · simp [last, hk]

theorem mem_of_last (h : last log k = some v) : (k, v) ∈ log := by
  obtain ⟨⟨k', v'⟩, hfind, rfl⟩ := Option.map_eq_some_iff.mp h
  obtain rfl : k' = k := by simpa using List.find?_some hfind
  exact List.mem_reverse.mp (List.mem_of_find?_eq_some hfind)

theorem mem_newKeys : k ∈ newKeys old log ↔ k ∉ old ∧ ∃ v, (k, v) ∈ log := by
  simp [newKeys, and_comm]

theorem eraseDups_concat (l : List K) (k : K) :
    (l ++ [k]).eraseDups = if k ∈ l then l.eraseDups else l.eraseDups ++ [k] := by
  rw [List.eraseDups_append]
  by_cases hk : k ∈ l
  · have hgone : [k].removeAll l = [] := by simp [List.removeAll, hk]
    rw [hgone, List.eraseDups_nil, List.append_nil, if_pos hk]
  · have hstay : [k].removeAll l = [k] := by simp [List.removeAll, hk]
    rw [hstay, if_neg hk]
    simp [List.eraseDups_cons]

/-- A reading makes its key new unless it is known. -/
theorem newKeys_concat : newKeys old (log ++ [(k, v)]) =
    if k ∈ old ∨ k ∈ newKeys old log then newKeys old log else newKeys old log ++ [k] := by
  by_cases hold : k ∈ old
  · simp [newKeys, hold]
  · have hconcat : newKeys old (log ++ [(k, v)]) =
        (((log.map Prod.fst).filter (· ∉ old)) ++ [k]).eraseDups := by
      simp [newKeys, hold]
    rw [hconcat, eraseDups_concat, newKeys]
    simp only [hold, false_or, List.mem_eraseDups]

/-- The new keys, the newest first, and then the old ones. -/
theorem nodup_newKeys (hold : old.Nodup) : ((newKeys old log).reverse ++ old).Nodup := by
  induction log using List.reverseRecOn with
  | nil => exact hold
  | append_singleton log r ih =>
      obtain ⟨k, v⟩ := r
      rw [newKeys_concat]
      by_cases hk : k ∈ old ∨ k ∈ newKeys old log
      · rwa [if_pos hk]
      · rw [if_neg hk, List.reverse_concat, List.cons_append, List.nodup_cons]
        exact ⟨by simpa [or_comm] using hk, ih⟩

end Readings
