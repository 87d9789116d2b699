import Mathlib.Data.List.Nodup
import Mathlib.Logic.Function.Basic

/-!
# Circular doubly linked lists

Cells linked in both directions by two partial maps `next` and `prev`.  A segment
`Seg next prev a l b` goes from `a` through the cells `l` to `b` along `next`, and back
along `prev`; a ring with head `h` is a segment from `h` to `h` without repetitions.

The three changes of links that keep a segment are stated for any new maps that agree
with the old ones away from the cells involved.

## Main definitions

* `Seg`, `IsRing` — segments and rings.
* `IsRing.insert`, `IsRing.splice` — a cell joins after the head, or any cell leaves.
* `follow` — the cells met along a map until the head comes back.
-/

namespace Ring

variable {A : Type*} {next prev next' prev' : A → Option A} {a b x p n h : A} {l l₁ l₂ : List A}

/-- From `a` through `l` to `b`, linked both ways. -/
def Seg (next prev : A → Option A) (a : A) : List A → A → Prop
  | [], b => next a = some b ∧ prev b = some a
  | x :: l, b => next a = some x ∧ prev x = some a ∧ Seg next prev x l b

theorem seg_append : Seg next prev a (l₁ ++ x :: l₂) b ↔
    Seg next prev a l₁ x ∧ Seg next prev x l₂ b := by
  induction l₁ generalizing a with
  | nil => simp only [List.nil_append, Seg, and_assoc]
  | cons y l₁ ih => simp only [List.cons_append, Seg, ih, and_assoc]

/-- Maps that agree on the cells that are left, and on those that are entered, have the
same segment. -/
theorem Seg.frame (H : Seg next prev a l b) (hnext : ∀ y ∈ a :: l, next' y = next y)
    (hprev : ∀ y, y ∈ l ∨ y = b → prev' y = prev y) : Seg next' prev' a l b := by
  induction l generalizing a with
  | nil =>
      obtain ⟨h₁, h₂⟩ := H
      exact ⟨(hnext a (by simp)).trans h₁, (hprev b (.inr rfl)).trans h₂⟩
  | cons y l ih =>
      obtain ⟨h₁, h₂, h₃⟩ := H
      refine ⟨(hnext a (by simp)).trans h₁, (hprev y (by simp)).trans h₂, ih h₃ ?_ ?_⟩
      · intro z hz
        exact hnext z (List.mem_cons_of_mem _ hz)
      · intro z hz
        apply hprev
        rcases hz with hz | hz
        · exact .inl (List.mem_cons_of_mem _ hz)
        · exact .inr hz

/-- A segment read backwards. -/
theorem Seg.reverse (H : Seg next prev a l b) : Seg prev next b l.reverse a := by
  induction l generalizing a with
  | nil => exact ⟨H.2, H.1⟩
  | cons y l ih =>
      obtain ⟨h₁, h₂, h₃⟩ := H
      rw [List.reverse_cons, seg_append]
      exact ⟨ih h₃, h₂, h₁⟩

/-- The cell after the start of a segment. -/
theorem Seg.next_start (H : Seg next prev a l b) : next a = some (l.headD b) := by
  cases l with
  | nil => exact H.1
  | cons y l => exact H.1

theorem headD_mem : l.headD b ∈ l ++ [b] := by
  cases l with
  | nil => simp
  | cons y l => simp

/-- The cell before the end of a segment is its start or one of its cells. -/
theorem Seg.prev_end (H : Seg next prev a l b) : ∃ q ∈ a :: l, prev b = some q := by
  induction l generalizing a with
  | nil => exact ⟨a, by simp, H.2⟩
  | cons y l ih =>
      obtain ⟨q, hq, h⟩ := ih H.2.2
      exact ⟨q, List.mem_cons_of_mem _ hq, h⟩

/-- The start of a segment can be moved to a new cell linked like the old start. -/
theorem Seg.restart (H : Seg next prev a l b) (hnd : l.Nodup) (hb : b ∉ l)
    (hn : next a = some n) (hnext : next' x = some n) (hprev : prev' n = some x)
    (fnext : ∀ y ∈ l, next' y = next y)
    (fprev : ∀ y, y ∈ l ∨ y = b → y ≠ n → prev' y = prev y) : Seg next' prev' x l b := by
  cases l with
  | nil =>
      obtain rfl : n = b := Option.some.inj (hn.symm.trans H.1)
      exact ⟨hnext, hprev⟩
  | cons y l =>
      obtain ⟨h₁, -, h₃⟩ := H
      obtain rfl : n = y := Option.some.inj (hn.symm.trans h₁)
      refine ⟨hnext, hprev, h₃.frame fnext ?_⟩
      intro z hz
      have hzn : z ≠ n := by
        intro hzn
        subst hzn
        rcases hz with hz | hz
        · exact (List.nodup_cons.mp hnd).1 hz
        · exact hb (by simp [hz])
      refine fprev z ?_ hzn
      rcases hz with hz | hz
      · exact .inl (List.mem_cons_of_mem _ hz)
      · exact .inr hz

/-- A cell leaves a segment: its neighbours `p` and `n` are linked to each other. -/
theorem Seg.splice (H₁ : Seg next prev a l₁ x) (H₂ : Seg next prev x l₂ b)
    (hnd : (a :: (l₁ ++ x :: l₂)).Nodup) (hb : b ∉ l₁ ++ x :: l₂)
    (hp : prev x = some p) (hn : next x = some n)
    (hnext : next' p = some n) (hprev : prev' n = some p)
    (fnext : ∀ y, y ≠ p → y ≠ x → next' y = next y)
    (fprev : ∀ y, y ≠ n → y ≠ x → prev' y = prev y) : Seg next' prev' a (l₁ ++ l₂) b := by
  induction l₁ generalizing a with
  | nil =>
      obtain rfl : p = a := Option.some.inj (hp.symm.trans H₁.2)
      have hnd' : (p :: x :: l₂).Nodup := hnd
      simp only [List.nodup_cons, List.mem_cons, not_or] at hnd'
      obtain ⟨⟨-, hpl⟩, hxl, hl⟩ := hnd'
      have hbx : b ≠ x ∧ b ∉ l₂ := by simpa using hb
      refine H₂.restart hl hbx.2 hn hnext hprev ?_ ?_
      · intro y hy
        exact fnext y (fun h => hpl (h ▸ hy)) (fun h => hxl (h ▸ hy))
      · intro y hy hyn
        refine fprev y hyn ?_
        rcases hy with hy | rfl
        · exact fun h => hxl (h ▸ hy)
        · exact hbx.1
  | cons y l₁ ih =>
      obtain ⟨h₁, h₂, h₃⟩ := H₁
      obtain ⟨q, hq, hqx⟩ := h₃.prev_end
      obtain rfl : p = q := Option.some.inj (hp.symm.trans hqx)
      rw [List.cons_append, List.nodup_cons] at hnd
      obtain ⟨ha, hnd⟩ := hnd
      have hb' : b ∉ l₁ ++ x :: l₂ := fun h => hb (List.mem_cons_of_mem _ h)
      have hap : a ≠ p := by
        rintro rfl
        apply ha
        rcases List.mem_cons.mp hq with rfl | hq
        · simp
        · simp [hq]
      have hax : a ≠ x := by
        rintro rfl
        apply ha
        simp
      have hy := (List.nodup_cons.mp hnd).1
      have hyn : y ≠ n := by
        intro hyn
        subst hyn
        have hhead := H₂.next_start
        rw [hn] at hhead
        have hmem : y ∈ l₂ ++ [b] := by
          rw [Option.some.inj hhead]
          exact headD_mem
        rcases List.mem_append.mp hmem with hmem | hmem
        · exact hy (by simp [hmem])
        · exact hb (by simp [List.mem_singleton.mp hmem])
      have hyx : y ≠ x := by
        rintro rfl
        exact hy (by simp)
      exact ⟨(fnext a hap hax).trans h₁, (fprev y hyn hyx).trans h₂, ih h₃ hnd hb'⟩

/-- A ring with head `h` and cells `l`, in the order of `next`. -/
structure IsRing (next prev : A → Option A) (h : A) (l : List A) : Prop where
  nodup : (h :: l).Nodup
  seg : Seg next prev h l h

theorem IsRing.empty (hnext : next h = some h) (hprev : prev h = some h) :
    IsRing next prev h [] := ⟨List.nodup_singleton h, hnext, hprev⟩

/-- Read backwards, a ring is a ring. -/
theorem IsRing.reverse (H : IsRing next prev h l) : IsRing prev next h l.reverse where
  nodup := by
    have := H.nodup
    simp only [List.nodup_cons, List.mem_reverse, List.nodup_reverse] at this ⊢
    exact this
  seg := H.seg.reverse

/-- The successor of a cell of the ring is a cell of the ring, and links back. -/
theorem IsRing.prev_of_next (H : IsRing next prev h l) (ha : a ∈ h :: l) (hb : next a = some b) :
    b ∈ h :: l ∧ prev b = some a := by
  have key : ∀ (l : List A) (c : A), Seg next prev c l h → a ∈ c :: l →
      (b ∈ l ∨ b = h) ∧ prev b = some a := by
    intro l
    induction l with
    | nil =>
        intro c hseg hmem
        obtain rfl := List.mem_singleton.mp hmem
        obtain rfl := Option.some.inj (hb.symm.trans hseg.1)
        exact ⟨.inr rfl, hseg.2⟩
    | cons y l ih =>
        intro c hseg hmem
        obtain ⟨h₁, h₂, h₃⟩ := hseg
        rcases List.mem_cons.mp hmem with rfl | hmem
        · obtain rfl := Option.some.inj (hb.symm.trans h₁)
          exact ⟨.inl (by simp), h₂⟩
        · obtain ⟨hin | rfl, hprev⟩ := ih y h₃ hmem
          · exact ⟨.inl (List.mem_cons_of_mem _ hin), hprev⟩
          · exact ⟨.inr rfl, hprev⟩
  obtain ⟨hin | rfl, hprev⟩ := key l h H.seg ha
  · exact ⟨List.mem_cons_of_mem _ hin, hprev⟩
  · exact ⟨by simp, hprev⟩

/-- In a ring with a cell besides the head no cell is its own successor. -/
theorem IsRing.ne_next (H : IsRing next prev h l) (ha : a ∈ l) (hb : next a = some b) : a ≠ b := by
  rintro rfl
  obtain ⟨l₁, l₂, rfl⟩ := List.append_of_mem ha
  have hsucc := (seg_append.mp H.seg).2.next_start
  rw [hb] at hsucc
  have hmem : a ∈ l₂ ++ [h] := by
    rw [Option.some.inj hsucc]
    exact headD_mem
  have hnd := H.nodup
  simp only [List.nodup_cons, List.nodup_append, List.mem_append, List.mem_cons, not_or] at hnd
  rcases List.mem_append.mp hmem with hmem | hmem
  · exact hnd.2.2.1.1 hmem
  · exact hnd.1.2.1 (List.mem_singleton.mp hmem).symm

/-- A new cell joins after the head. -/
theorem IsRing.insert (H : IsRing next prev h l) (hx : x ∉ h :: l) (hn : next h = some n)
    (hnext : next' h = some x) (hprev : prev' x = some h)
    (hnext' : next' x = some n) (hprev' : prev' n = some x)
    (fnext : ∀ y, y ≠ h → y ≠ x → next' y = next y)
    (fprev : ∀ y, y ≠ n → y ≠ x → prev' y = prev y) : IsRing next' prev' h (x :: l) := by
  obtain ⟨hh, hl⟩ := List.nodup_cons.mp H.nodup
  have hxh : x ≠ h := fun he => hx (by simp [he])
  have hxl : x ∉ l := fun hm => hx (List.mem_cons_of_mem _ hm)
  refine ⟨?_, hnext, hprev, H.seg.restart hl hh hn hnext' hprev' ?_ ?_⟩
  · simp only [List.nodup_cons, List.mem_cons, not_or]
    exact ⟨⟨Ne.symm hxh, hh⟩, hxl, hl⟩
  · intro y hy
    exact fnext y (fun he => hh (he ▸ hy)) (fun he => hxl (he ▸ hy))
  · intro y hy hyn
    refine fprev y hyn ?_
    rcases hy with hy | rfl
    · exact fun he => hxl (he ▸ hy)
    · exact Ne.symm hxh

/-- A cell leaves the ring. -/
theorem IsRing.splice (H : IsRing next prev h (l₁ ++ x :: l₂))
    (hp : prev x = some p) (hn : next x = some n)
    (hnext : next' p = some n) (hprev : prev' n = some p)
    (fnext : ∀ y, y ≠ p → y ≠ x → next' y = next y)
    (fprev : ∀ y, y ≠ n → y ≠ x → prev' y = prev y) : IsRing next' prev' h (l₁ ++ l₂) := by
  obtain ⟨H₁, H₂⟩ := seg_append.mp H.seg
  obtain ⟨hh, -⟩ := List.nodup_cons.mp H.nodup
  refine ⟨?_, H₁.splice H₂ H.nodup hh hp hn hnext hprev fnext fprev⟩
  refine H.nodup.sublist ?_
  exact ((List.sublist_cons_self x l₂).append_left l₁).cons_cons h

/-- The cells met from `a` along `next` until `h` comes back; `none` when the links break
or the fuel runs out. -/
def follow [DecidableEq A] (next : A → Option A) (h : A) : ℕ → A → Option (List A)
  | 0, _ => none
  | fuel + 1, a => do
      let b ← next a
      if b = h then some [] else (follow next h fuel b).map (b :: ·)

theorem Seg.follow [DecidableEq A] (H : Seg next prev a l h) (hl : h ∉ l) {fuel : ℕ}
    (hfuel : l.length < fuel) : follow next h fuel a = some l := by
  induction l generalizing a fuel with
  | nil =>
      obtain ⟨fuel, rfl⟩ := Nat.exists_eq_succ_of_ne_zero (show fuel ≠ 0 by omega)
      simp [Ring.follow, H.1]
  | cons y l ih =>
      obtain ⟨fuel, rfl⟩ := Nat.exists_eq_succ_of_ne_zero (show fuel ≠ 0 by omega)
      obtain ⟨h₁, -, h₃⟩ := H
      have hyh : y ≠ h := fun he => hl (by simp [he])
      have hrest : Ring.follow next h fuel y = some l :=
        ih h₃ (fun hm => hl (List.mem_cons_of_mem _ hm)) (by simp at hfuel; omega)
      simp [Ring.follow, h₁, hyh, hrest]

/-- Following `next` around a ring visits its cells in order. -/
theorem IsRing.follow [DecidableEq A] (H : IsRing next prev h l) {fuel : ℕ}
    (hfuel : l.length < fuel) : Ring.follow next h fuel h = some l :=
  H.seg.follow (List.nodup_cons.mp H.nodup).1 hfuel

end Ring
