import Ctm.HashMap.Atomicity

/-!
# A dictionary that may be refused memory

A `hash_map_put` that returns -1 should have done nothing, and then the map is still the
dictionary of the puts that returned 0.  It is, at every moment of a run, exactly as long as
no put breaks a chain.

## Main definitions

* `Seen.failed`, `specTry` — the dictionary in which a failed put does nothing.
* `Answers` — the answers of a run are those of the dictionary.
* `Refines` — so they are, and a search at any moment of the run would say nothing else.
* `refines_iff` — when a run refines the dictionary.
-/

namespace Ctm
namespace HashMap
variable {K V : Type} {f : Callbacks K} {m m' : HashMap K V} {hf : f.Lawful}
  {d : Finmap fun _ : hf.Key => V}

/-- The call returned -1. -/
def Seen.failed (o : Seen V) : Bool :=
  match o.answer with
  | .status ret => ret == -1
  | .value _ => false

/-- A call on the dictionary, which does nothing if it failed. -/
def specTry (hf : f.Lawful) (d : Finmap fun _ : hf.Key => V) (c : (Op K V × Allocs) × Bool) :
    (Answer V × ℕ) × Finmap fun _ : hf.Key => V :=
  if c.2 then ((.status (-1), d.keys.card), d) else specCall hf d c.1

/-- The dictionary after some calls. -/
def specRun (hf : f.Lawful) (d : Finmap fun _ : hf.Key => V) (calls : List (Op K V × Allocs))
    (os : List (Seen V)) : List (Answer V × ℕ) × Finmap fun _ : hf.Key => V :=
  Transition.specExec (specTry hf) d (calls.zip (os.map Seen.failed))

/-- The answers and counts of some calls are those of the dictionary. -/
def Answers (hf : f.Lawful) (d : Finmap fun _ : hf.Key => V) (calls : List (Op K V × Allocs))
    (os : List (Seen V)) : Prop :=
  os.map (fun o => (o.answer, o.count)) = (specRun hf d calls os).1

/-- The calls return, and if any key were searched for after any number of them, all the answers
would be those of the dictionary. -/
def Refines (hf : f.Lawful) (m : HashMap K V) (d : Finmap fun _ : hf.Key => V)
    (calls : List (Op K V × Allocs)) : Prop :=
  ∀ calls', calls' <+: calls → ∀ key a, ∃ os m',
    Transition.exec (call f) m (calls' ++ [(.get key, a)]) = some (os, m') ∧
      Answers hf d (calls' ++ [(.get key, a)]) os

/-! ## One call -/

/-- The dictionary answers no call with -1. -/
theorem specCall_ne (d : Finmap fun _ : hf.Key => V) (c : Op K V × Allocs) :
    (specCall hf d c).1.1 ≠ .status (-1) := by
  obtain ⟨op, a⟩ := c
  cases op with
  | put key value => simp [specCall]
  | get key => simp [specCall]
  | remove key =>
      by_cases hmem : hf.key key ∈ d
      · simp [specCall, hmem]
      · simp [specCall, hmem]

/-- A call that is answered as the dictionary answers it has not failed. -/
theorem failed_eq_false {c : Op K V × Allocs} {o : Seen V}
    (h : (o.answer, o.count) = (specCall hf d c).1) : o.failed = false := by
  have hne := specCall_ne d c
  rw [← h] at hne
  unfold Seen.failed
  split
  · rename_i ret hret
    rw [beq_eq_false_iff_ne]
    rintro rfl
    exact hne hret
  · rfl

/-- A put that is refused memory returns -1. -/
theorem put_ret_of_ENOMEM (hf : f.SkipsTombstone) (H : Load m) {a : Allocs} {key : K} {value : V}
    {r : Result K V} (h : put f a m (some key) (some value) = some r)
    (herr : r.errno = some .ENOMEM) : r.ret = -1 := by
  rcases put_cases (f := f) H a key value with ⟨-, hr⟩ | ⟨hgrow, hr⟩
  · rw [← Option.some.inj (hr.symm.trans h)]
  · obtain ⟨hL, -, -, -⟩ := grown_spec (f := f) H hgrow
    rcases putEntry_cases hf hL a key value with ⟨i, -, he⟩ | ⟨i, -, hfree, he⟩
    · rw [← Option.some.inj ((hr.trans he).symm.trans h)] at herr
      cases herr
    · have hput := Option.some.inj ((hr.trans he).symm.trans h)
      rcases putNew_cases a (firstFree_not_isLive hfree) key value with ⟨-, hn⟩ | ⟨-, e, -, hn⟩
      · rw [← hput, hn] at herr
        cases herr
      · rw [← hput, hn]

/-- The blocks of a map after a put that failed are those of the map before it. -/
theorem sameEntries_of_put_failed (hf : f.SkipsTombstone) (H : Load m) {a : Allocs} {key : K}
    {value : V} {r : Result K V} (h : put f a m (some key) (some value) = some r)
    (hret : r.ret = -1) : SameEntries m r.map := by
  rcases put_failed hf H h hret with ⟨-, hmap⟩ | ⟨hgrow, -, -, i, e, hfree, he, hmap⟩
  · rw [hmap]
    exact ⟨rfl, fun _ _ => Iff.rfl⟩
  · obtain ⟨-, hS, -, -⟩ := grown_spec (f := f) H hgrow
    rw [hmap]
    exact hS.trans (SameEntries.clear (firstFree_not_isLive hfree) he)

/-- **A call that breaks no chain acts as the dictionary does**, or fails and does nothing. -/
theorem call_tries (R : Represents hf m d) {c : Op K V × Allocs} {o : Seen V}
    (h : call f m c = some (o, m')) (hkeep : KeepsChains f m c) :
    (o.answer, o.count) = (specTry hf d (c, o.failed)).1 ∧
      Represents hf m' (specTry hf d (c, o.failed)).2 := by
  by_cases hok : o.errno ≠ some .ENOMEM
  · obtain ⟨hview, R'⟩ := call_refines R h hok
    have hfailed := failed_eq_false hview
    rw [specTry, hfailed]
    exact ⟨hview, R'⟩
  · obtain ⟨HL, HF⟩ := step_findable hf ⟨o, h⟩ hkeep ⟨R.load, R.findable⟩
    obtain ⟨op, a⟩ := c
    cases op with
    | get key =>
        rw [call_get] at h
        obtain ⟨rfl, -⟩ := Prod.mk.inj (Option.some.inj h)
        exact absurd (Option.some_ne_none _).symm hok
    | remove key =>
        rcases remove_cases (f := f) a m key with ⟨i, hi, hr⟩ | ⟨-, hr⟩
        · -- The shrink failed, but the key is gone.
          have hlive := HashEntry.isLive_of_matchesKey (matchesKey_of_findSlot hi)
          obtain ⟨r, hshrink, hret, -, hS, -⟩ :=
            shrink_spec (f := f) (R.load.tombstoneAt hlive) a
          rw [call_remove (hr.trans hshrink)] at h
          obtain ⟨rfl, rfl⟩ := Prod.mk.inj (Option.some.inj h)
          have R' := (R.tombstoneAt hi).sameEntries hS HL HF
          have hmem : hf.key key ∈ d := (R.mem_iff key).mpr ⟨i, hi⟩
          have hview : (Answer.status r.ret, r.map.hashMapCount) =
              (specCall hf d (.remove key, a)).1 := by
            refine Prod.ext ?_ R'.count_eq
            simp [specCall, hmem, hret]
          have hfailed : Seen.failed ⟨.status r.ret, r.map.hashMapCount, r.errno⟩ = false :=
            failed_eq_false hview
          rw [specTry, hfailed]
          exact ⟨hview, R'⟩
        · rw [call_remove hr] at h
          obtain ⟨rfl, -⟩ := Prod.mk.inj (Option.some.inj h)
          exact absurd (Option.some_ne_none _).symm hok
    | put key value =>
        obtain ⟨r, hr, heq⟩ := Option.bind_eq_some_iff.mp h
        obtain ⟨rfl, rfl⟩ := Prod.mk.inj (Option.some.inj heq)
        have hret : r.ret = -1 :=
          put_ret_of_ENOMEM hf.skipsTombstone R.load hr (not_not.mp hok)
        have R' := R.sameEntries (sameEntries_of_put_failed hf.skipsTombstone R.load hr hret) HL HF
        have hfailed :
            (⟨.status r.ret, r.map.hashMapCount, r.errno⟩ : Seen V).failed = true := by
          rw [hret]
          rfl
        rw [specTry, hfailed]
        exact ⟨Prod.ext (congrArg Answer.status hret) R'.count_eq, R'⟩

/-- A put that breaks a chain is not the dictionary's: some search after it is not. -/
theorem keepsChains_of_lookup (R : Represents hf m d) {c : Op K V × Allocs} {o : Seen V}
    (h : call f m c = some (o, m')) (hview : (o.answer, o.count) = (specTry hf d (c, o.failed)).1)
    (hlookup : ∀ key, lookup f m' key = (specTry hf d (c, o.failed)).2.lookup (hf.key key)) :
    KeepsChains f m c := by
  obtain ⟨op, a⟩ := c
  cases op with
  | get key => trivial
  | remove key => trivial
  | put key value =>
      refine (put_atomic_iff hf R.load R.findable a key value).mp ?_
      intro r hput hret
      rw [call_put hput] at h
      obtain ⟨rfl, rfl⟩ := Prod.mk.inj (Option.some.inj h)
      have hfailed :
          (⟨.status r.ret, r.map.hashMapCount, r.errno⟩ : Seen V).failed = true := by
        rw [hret]
        rfl
      rw [specTry, hfailed] at hview hlookup
      have S := sameEntries_of_put_failed hf.skipsTombstone R.load hput hret
      refine ⟨fun key' => ?_, S.count, S.mem_iterAll⟩
      rw [get_eq_lookup, get_eq_lookup, hlookup key', R.lookup_eq key']
      rfl

/-! ## Runs -/

theorem specRun_cons (c : Op K V × Allocs) (calls : List (Op K V × Allocs)) (o : Seen V)
    (os : List (Seen V)) : specRun hf d (c :: calls) (o :: os) =
      ((specTry hf d (c, o.failed)).1 ::
          (specRun hf (specTry hf d (c, o.failed)).2 calls os).1,
        (specRun hf (specTry hf d (c, o.failed)).2 calls os).2) := rfl

theorem answers_cons {c : Op K V × Allocs} {calls : List (Op K V × Allocs)} {o : Seen V}
    {os : List (Seen V)} : Answers hf d (c :: calls) (o :: os) ↔
      (o.answer, o.count) = (specTry hf d (c, o.failed)).1 ∧
        Answers hf (specTry hf d (c, o.failed)).2 calls os := by
  rw [Answers, specRun_cons, List.map_cons, List.cons.injEq]
  rfl

/-- **A run that breaks no chain** answers as the dictionary, and represents it. -/
theorem run_tries (R : Represents hf m d) {calls : List (Op K V × Allocs)}
    (hkeep : Transition.Along (KeepsChains f) (call f) m calls) :
    ∃ os m', Transition.exec (call f) m calls = some (os, m') ∧ Answers hf d calls os ∧
      Represents hf m' (specRun hf d calls os).2 := by
  induction calls generalizing m d with
  | nil => exact ⟨[], m, rfl, rfl, R⟩
  | cons c calls ih =>
      obtain ⟨o, m₁, hcall, -⟩ := call_returns hf.skipsTombstone R.load c
      obtain ⟨hc, hrest⟩ := (Transition.along_cons hcall).mp hkeep
      obtain ⟨hview, R₁⟩ := call_tries R hcall hc
      obtain ⟨os, m₂, hrun, hanswers, R₂⟩ := ih R₁ hrest
      exact ⟨o :: os, m₂, Transition.exec_cons_eq_some.mpr ⟨o, m₁, os, m₂, hcall, hrun, rfl⟩,
        answers_cons.mpr ⟨hview, hanswers⟩, R₂⟩

/-- A run that refines the dictionary starts at a map that searches as the dictionary does. -/
theorem Refines.lookup {calls : List (Op K V × Allocs)} (h : Refines hf m d calls) (key : K) :
    HashMap.lookup f m key = d.lookup (hf.key key) := by
  obtain ⟨os, m', hrun, hanswers⟩ := h [] List.nil_prefix key ⟨true, true, true⟩
  obtain ⟨o, m₁, os', m₂, hcall, hrest, heq⟩ := Transition.exec_cons_eq_some.mp hrun
  obtain ⟨rfl, -⟩ := Prod.mk.inj heq
  obtain ⟨rfl, -⟩ := Prod.mk.inj (Option.some.inj ((call_get m _ key).symm.trans hcall))
  have hview := (answers_cons.mp hanswers).1
  exact Answer.value.inj (Prod.mk.inj hview).1

/-- It goes on refining the dictionary behind its first call. -/
theorem Refines.tail {c : Op K V × Allocs} {calls : List (Op K V × Allocs)} {o : Seen V}
    {m₁ : HashMap K V} (h : Refines hf m d (c :: calls)) (hcall : call f m c = some (o, m₁)) :
    (o.answer, o.count) = (specTry hf d (c, o.failed)).1 ∧
      Refines hf m₁ (specTry hf d (c, o.failed)).2 calls := by
  have hafter : ∀ calls', calls' <+: calls → ∀ key a, ∃ os m',
      Transition.exec (call f) m₁ (calls' ++ [(.get key, a)]) = some (os, m') ∧
        Answers hf d (c :: (calls' ++ [(.get key, a)])) (o :: os) := by
    intro calls' hpart key a
    obtain ⟨os, m', hrun, hanswers⟩ :=
      h (c :: calls') ((List.prefix_cons_inj c).mpr hpart) key a
    obtain ⟨o', m₁', os', m₂, hcall', hrest, heq⟩ := Transition.exec_cons_eq_some.mp hrun
    obtain ⟨rfl, rfl⟩ := Prod.mk.inj heq
    obtain ⟨rfl, rfl⟩ := Prod.mk.inj (Option.some.inj (hcall.symm.trans hcall'))
    exact ⟨os', _, hrest, hanswers⟩
  constructor
  · have hkey : Nonempty K := by
      cases c.1 with
      | put key value => exact ⟨key⟩
      | get key => exact ⟨key⟩
      | remove key => exact ⟨key⟩
    obtain ⟨os, m', -, hanswers⟩ :=
      hafter [] List.nil_prefix (Classical.choice hkey) ⟨true, true, true⟩
    exact (answers_cons.mp hanswers).1
  · intro calls' hpart key a
    obtain ⟨os, m', hrun, hanswers⟩ := hafter calls' hpart key a
    exact ⟨os, m', hrun, (answers_cons.mp hanswers).2⟩

/-- A search behind part of a run breaks no chain. -/
theorem keepsChains_search {calls calls' : List (Op K V × Allocs)} (hpart : calls' <+: calls)
    (h : Transition.Along (KeepsChains f) (call f) m calls) (key : K) (a : Allocs) :
    Transition.Along (KeepsChains f) (call f) m (calls' ++ [(.get key, a)]) := by
  induction calls' generalizing m calls with
  | nil => exact ⟨trivial, fun _ _ _ => trivial⟩
  | cons c calls' ih =>
      obtain ⟨more, rfl⟩ := hpart
      obtain ⟨hc, hrest⟩ := h
      exact ⟨hc, fun o m₁ hcall => ih (List.prefix_append calls' more) (hrest o m₁ hcall)⟩

/-- **When the hash map is a dictionary under memory exhaustion.**  Whichever allocations are
refused, the answers of a run, and of a search at any moment of it, are those of the dictionary
in which the puts that returned -1 did nothing, if and only if no put breaks a chain. -/
theorem refines_iff (hf : f.Lawful) {keySize valueSize : ℕ} {mallocMap : Bool} {a : Allocs}
    (hcreate : create keySize valueSize (some f) mallocMap a = some m)
    (calls : List (Op K V × Allocs)) :
    Refines hf m ∅ calls ↔ Transition.Along (KeepsChains f) (call f) m calls := by
  have R : Represents hf m ∅ := by
    rw [create_eq_some hcreate]
    exact Represents.empty
  constructor
  · intro hrefines
    generalize (∅ : Finmap fun _ : hf.Key => V) = d at R hrefines
    clear hcreate
    induction calls generalizing m d with
    | nil => trivial
    | cons c calls ih =>
        obtain ⟨o, m₁, hcall, -⟩ := call_returns hf.skipsTombstone R.load c
        obtain ⟨hview, htail⟩ := hrefines.tail hcall
        have hc := keepsChains_of_lookup R hcall hview htail.lookup
        exact (Transition.along_cons hcall).mpr ⟨hc, ih _ (call_tries R hcall hc).2 htail⟩
  · intro hkeep calls' hpart key a'
    obtain ⟨os, m', hrun, hanswers, -⟩ := run_tries R (keepsChains_search hpart hkeep key a')
    exact ⟨os, m', hrun, hanswers⟩

/-- A put that is refused the block of its key, and then the same put once more. -/
theorem refines_iff_refused : Refines (intCallbacks_lawful 0) empty ∅
    [(.put ⟨16, by decide⟩ 1, ⟨true, false, true⟩), (.put ⟨16, by decide⟩ 2, ⟨true, true, true⟩),
      (.remove ⟨16, by decide⟩, ⟨true, true, true⟩)] := by
  have hcreate : create 4 4 (some (intCallbacks 0)) true ⟨true, true, true⟩ =
    some (empty : HashMap { pid : BitVec 32 // pid ≠ 0 } ℕ) := rfl
  exact (refines_iff (intCallbacks_lawful 0) hcreate _).mpr ⟨KeepsChains.of_empty _ _ _,
    fun _ _ _ => ⟨KeepsChains.of_entry rfl, fun _ _ _ => ⟨trivial, fun _ _ _ => trivial⟩⟩⟩

end HashMap
end Ctm
