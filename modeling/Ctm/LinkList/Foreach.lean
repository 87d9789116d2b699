import Ctm.LinkList.Ring

/-!
# Loops over a list

The rules for the iteration macros.  `LIST_FOREACH` visits the nodes of the list in
order when its body leaves the links alone.  `LIST_FOREACH_SAFE` also when its body takes
the visited node out of the list, as the next node is read first.

## Main definitions

* `listForeach_spec` — a loop whose body may return early.
* `listForeach_preserves` — what its body keeps.
* `listForeachSafe_spec` — a loop whose body may delete the visited node.
* `listForeachSafe_view` — the same loop with less in its state.
-/

namespace Ctm
namespace Heap
variable {A B σ ρ : Type} [DecidableEq A] {heap : σ → Heap A} {head : A} {fuel : ℕ} {s : σ}
  {l : List A} {node : B → A} {ps : List B}

omit [DecidableEq A] in
/-- The node after a node of the list. -/
theorem IsList.next_of_append {h : Heap A} {cell x : A} {l₁ l₂ : List A}
    (H : IsList h head cell (l₁ ++ x :: l₂)) :
    h.next (some x) = some (some (l₂.headD head)) := by
  rw [next_some (H.readable (by simp)), (Ring.seg_append.mp H.ring.seg).2.next_start]

omit [DecidableEq A] in
/-- The first node of the list. -/
theorem IsList.next_head {h : Heap A} {cell : A} (H : IsList h head cell l) :
    h.next (some head) = some (some (l.headD head)) := by
  rw [next_some (H.readable (by simp)), H.ring.seg.next_start]

/-- **`LIST_FOREACH`.**  The list runs through the nodes of `ps`.  `P qs s` holds after the
entries `qs`, with the list as it was; the body at the next one extends it, or returns an
`R`. -/
theorem listForeach_spec {body : σ → A → Option (ρ ⊕ σ)} (P : List B → σ → Prop) (R : ρ → Prop)
    (hlist : ∀ qs s, P qs s → ∃ cell, IsList (heap s) head cell (ps.map node))
    (hbody : ∀ qs q rs s, qs ++ q :: rs = ps → P qs s →
      (∃ r, body s (node q) = some (.inl r) ∧ R r) ∨
      (∃ s', body s (node q) = some (.inr s') ∧ P (qs ++ [q]) s'))
    (hfuel : ps.length < fuel) (h0 : P [] s) :
    (∃ r, listForeach heap head body fuel s = some (.inl r) ∧ R r) ∨
    (∃ s', listForeach heap head body fuel s = some (.inr s') ∧ P ps s') := by
  have key : ∀ (rs qs : List B) (fuel : ℕ) (s : σ), qs ++ rs = ps → rs.length < fuel →
      P qs s →
      (∃ r, listForeachFrom heap head body fuel s (some ((rs.map node).headD head)) =
        some (.inl r) ∧ R r) ∨
      (∃ s', listForeachFrom heap head body fuel s (some ((rs.map node).headD head)) =
        some (.inr s') ∧ P ps s') := by
    intro rs
    induction rs with
    | nil =>
        intro qs fuel s hps hfuel hP
        obtain ⟨fuel, rfl⟩ := Nat.exists_eq_succ_of_ne_zero (show fuel ≠ 0 by omega)
        rw [List.append_nil] at hps
        subst hps
        exact .inr ⟨s, if_pos rfl, hP⟩
    | cons q rs ih =>
        intro qs fuel s hps hfuel hP
        obtain ⟨fuel, rfl⟩ := Nat.exists_eq_succ_of_ne_zero (show fuel ≠ 0 by omega)
        have hnodes : ps.map node = qs.map node ++ node q :: rs.map node := by simp [← hps]
        obtain ⟨cell, H⟩ := hlist qs s hP
        rw [hnodes] at H
        have hq : node q ≠ head := by
          intro heq
          exact (List.nodup_cons.mp H.ring.nodup).1 (by simp [← heq])
        have hpos : some (node q) ≠ some head := fun h => hq (Option.some.inj h)
        rw [List.map_cons, List.headD_cons]
        rcases hbody qs q rs s hps hP with ⟨r, hr, hR⟩ | ⟨s', hs', hP'⟩
        · refine .inl ⟨r, ?_, hR⟩
          simp only [listForeachFrom, if_neg hpos, Option.bind_eq_bind, Option.bind_some, hr]
        · obtain ⟨cell', H'⟩ := hlist _ s' hP'
          rw [hnodes] at H'
          have hstep : listForeachFrom heap head body (fuel + 1) s (some (node q)) =
              listForeachFrom heap head body fuel s' (some ((rs.map node).headD head)) := by
            simp only [listForeachFrom, if_neg hpos, Option.bind_eq_bind, Option.bind_some, hs',
              H'.next_of_append]
          rw [hstep]
          exact ih (qs ++ [q]) fuel s' (by simpa using hps) (by simp at hfuel; omega) hP'
  obtain ⟨cell, H⟩ := hlist [] s h0
  rw [listForeach, H.next_head]
  exact key ps [] fuel s (List.nil_append ps) hfuel h0

/-- A loop that runs to its end keeps what its body keeps. -/
theorem listForeach_preserves {body : σ → A → Option (ρ ⊕ σ)} {I : σ → Prop}
    (hbody : ∀ s a s', I s → body s a = some (.inr s') → I s') (hs : I s) {s' : σ}
    (h : listForeach heap head body fuel s = some (.inr s')) : I s' := by
  have key : ∀ fuel s pos, I s → listForeachFrom heap head body fuel s pos = some (.inr s') →
      I s' := by
    intro fuel
    induction fuel with
    | zero =>
        intro s pos hs h
        cases h
    | succ fuel ih =>
        intro s pos hs h
        rw [listForeachFrom] at h
        split at h
        · obtain rfl : s = s' := by simpa using h
          exact hs
        · obtain ⟨curr, -, h⟩ := Option.bind_eq_some_iff.mp h
          obtain ⟨r, hr, h⟩ := Option.bind_eq_some_iff.mp h
          cases r with
          | inl r => cases Option.some.inj h
          | inr s₁ =>
              obtain ⟨pos', -, h⟩ := Option.bind_eq_some_iff.mp h
              exact ih s₁ pos' (hbody s curr s₁ hs hr) h
  obtain ⟨pos, -, h⟩ := Option.bind_eq_some_iff.mp h
  exact key fuel s pos hs h

/-- **`LIST_FOREACH_SAFE`.**  `P qs rs s` holds between the visits, after the entries `qs`,
when `rs` are still to come and are the last ones of the list. -/
theorem listForeachSafe_spec {body : σ → A → Option σ} (P : List B → List B → σ → Prop)
    (hlist : ∀ qs rs s, P qs rs s →
      ∃ cell kept, IsList (heap s) head cell (kept ++ rs.map node))
    (hbody : ∀ qs q rs s, P qs (q :: rs) s →
      ∃ s', body s (node q) = some s' ∧ P (qs ++ [q]) rs s')
    (hfuel : ps.length < fuel) (hstart : ∃ cell, IsList (heap s) head cell (ps.map node))
    (h0 : P [] ps s) :
    ∃ s', listForeachSafe heap head body fuel s = some s' ∧ P ps [] s' := by
  have key : ∀ (rs qs : List B) (fuel : ℕ) (s : σ), rs.length < fuel → P qs rs s →
      ∃ s', ((heap s).next (some ((rs.map node).headD head))).bind
          (listForeachSafeFrom heap head body fuel s (some ((rs.map node).headD head))) =
            some s' ∧
        P (qs ++ rs) [] s' := by
    intro rs
    induction rs with
    | nil =>
        intro qs fuel s hfuel hP
        obtain ⟨fuel, rfl⟩ := Nat.exists_eq_succ_of_ne_zero (show fuel ≠ 0 by omega)
        obtain ⟨cell, kept, H⟩ := hlist qs [] s hP
        refine ⟨s, ?_, by simpa using hP⟩
        rw [List.map_nil, List.headD_nil, H.next_head, Option.bind_some]
        exact if_pos rfl
    | cons q rs ih =>
        intro qs fuel s hfuel hP
        obtain ⟨fuel, rfl⟩ := Nat.exists_eq_succ_of_ne_zero (show fuel ≠ 0 by omega)
        obtain ⟨cell, kept, H⟩ := hlist qs (q :: rs) s hP
        rw [List.map_cons] at H
        have hq : node q ≠ head := by
          intro heq
          exact (List.nodup_cons.mp H.ring.nodup).1 (by simp [← heq])
        obtain ⟨s', hs', hP'⟩ := hbody qs q rs s hP
        obtain ⟨s'', hrun, hP''⟩ := ih (qs ++ [q]) fuel s' (by simp at hfuel; omega) hP'
        refine ⟨s'', ?_, by simpa using hP''⟩
        rw [List.map_cons, List.headD_cons, H.next_of_append, Option.bind_some,
          listForeachSafeFrom, if_neg (fun h => hq (Option.some.inj h))]
        simp only [Option.bind_eq_bind, Option.bind_some, hs']
        exact hrun
  obtain ⟨cell, H⟩ := hstart
  rw [listForeachSafe, H.next_head]
  exact key ps [] fuel s hfuel h0

/-- A loop that returns does the same to any view of its state that has the heap and that the
body respects. -/
theorem listForeachSafe_view {τ : Type} {body : σ → A → Option σ}
    {body' : τ → A → Option τ} {heap' : τ → Heap A} (view : σ → τ)
    (hheap : ∀ s, heap' (view s) = heap s)
    (hbody : ∀ s a s', body s a = some s' → body' (view s) a = some (view s')) {s' : σ}
    (h : listForeachSafe heap head body fuel s = some s') :
    listForeachSafe heap' head body' fuel (view s) = some (view s') := by
  have key : ∀ fuel s pos n, listForeachSafeFrom heap head body fuel s pos n = some s' →
      listForeachSafeFrom heap' head body' fuel (view s) pos n = some (view s') := by
    intro fuel
    induction fuel with
    | zero =>
        intro s pos n h
        cases h
    | succ fuel ih =>
        intro s pos n h
        rw [listForeachSafeFrom] at h ⊢
        by_cases hpos : pos = some head
        · rw [if_pos hpos] at h ⊢
          rw [Option.some.inj h]
        · rw [if_neg hpos] at h ⊢
          obtain ⟨curr, hcurr, h⟩ := Option.bind_eq_some_iff.mp h
          obtain ⟨s₁, hs₁, h⟩ := Option.bind_eq_some_iff.mp h
          obtain ⟨n', hn', h⟩ := Option.bind_eq_some_iff.mp h
          simp only [hcurr, hbody s curr s₁ hs₁, hheap, hn', Option.bind_eq_bind, Option.bind_some]
          exact ih s₁ n n' h
  obtain ⟨pos, hpos, h⟩ := Option.bind_eq_some_iff.mp h
  obtain ⟨n, hn, h⟩ := Option.bind_eq_some_iff.mp h
  simp only [listForeachSafe, hheap, hpos, hn, Option.bind_eq_bind, Option.bind_some]
  exact key fuel s pos n h

end Heap
end Ctm
