import Ctm.RingBuffer.Bounds
import Ctm.Sampler.Turns

/-!
# The threads of a sampler in the order of their creation

There can be several sampling threads at a time, each in its callback with a call of
`sampler_stop`.  A live thread that `sampler->thread` names is the latest of them, so a thread
joins only itself and threads created after it.  A `pthread_create` that fails leaves the name
unspecified; it keeps the order as long as it does not leave that of an older thread.

## Main definitions

* `KeepsName` — the failing starts that leave no older thread named.
* `Ranked` — the sampling threads in the order of their creation.
* `Ordered` — the invariant of the runs whose starts keep the order.
-/

namespace Ctm

/-- A write to the slot that is due advances the ring buffer. -/
theorem RingBuffer.Advanced.write {rb rb' : RingBuffer} {n : ℕ} (H : rb.Advanced n)
    {x : List UInt8} (h : rb.write x = some rb') : rb'.Advanced (n + 1) := by
  obtain ⟨⟨slot, rb₁⟩, hadvance, h⟩ := Option.bind_eq_some_iff.mp h
  obtain ⟨buffer, hstore, h⟩ := Option.bind_eq_some_iff.mp h
  obtain rfl := Option.some.inj h
  rw [RingBuffer.advance_spec H] at hadvance
  obtain ⟨rfl, rfl⟩ := Prod.mk.inj (Option.some.inj hadvance)
  exact ⟨H.capacity_pos, H.itemSize_pos, H.fits, (Block.length_of_store hstore).trans H.length, rfl,
    by simp⟩

/-- There is room for an item in the slot that is due. -/
theorem RingBuffer.Advanced.exists_write {rb : RingBuffer} {n : ℕ} (H : rb.Advanced n) :
    ∃ x rb', rb.write x = some rb' := by
  obtain ⟨slot, rb', hadvance, H', hle⟩ := H.advance
  have hspec := RingBuffer.advance_spec H
  rw [hadvance] at hspec
  obtain ⟨-, rfl⟩ := Prod.mk.inj (Option.some.inj hspec)
  obtain ⟨buffer, hstore⟩ := Block.store_isSome
    (by simpa using hle : slot + (List.replicate rb.itemSize (0 : UInt8)).length ≤ rb.buffer.length)
  refine ⟨List.replicate rb.itemSize 0,
    ⟨rb.capacity, min (n + 1) rb.capacity, buffer, rb.itemSize, n % rb.capacity⟩, ?_⟩
  simp only [RingBuffer.write, hadvance, Option.bind_eq_bind, Option.bind_some, hstore]

namespace Sampler
namespace System
variable {s s' : System} {a : Action} {c : Caller} {t t' : ThreadId}

/-- A start whose `pthread_create` fails leaves the name as it was, or that of no live thread. -/
def KeepsName (s : System) (a : Action) : Prop :=
  ∀ c code junk, a = .start c (.failed code junk) → s.sampler.isRunning = false →
    junk = s.sampler.thread ∨ ∀ t, junk = some t → ¬ s.Alive t

/-- The live threads in the order of their creation: one that is named is the latest, and one that
joins another was created before it. -/
structure Ranked (s : System) (rank : ThreadId → ℕ) : Prop where
  bounded : ∃ bound, ∀ t, s.Alive t → rank t < bound
  named : ∀ t t', s.sampler.thread = some t' → s.Alive t' → s.Alive t → rank t ≤ rank t'
  injective : ∀ t t', s.Alive t → s.Alive t' → rank t = rank t' → t = t'
  joins : ∀ t t' destroys, s.calls (.sampling t) = some ⟨destroys, .joining (some t')⟩ →
    s.Alive t' → t' = t ∨ rank t < rank t'

/-- What holds in every run: the order of the threads, calls of sampling threads only in their
callbacks, only destroys past their stop, and a ring buffer in order. -/
structure Ordered (s : System) : Prop where
  ranked : ∃ rank, Ranked s rank
  calling : ∀ t, s.calls (.sampling t) ≠ none → s.threads t = some .callback
  stopped : ∀ c call, s.calls c = some call → call.wait = .stopped → call.destroys = true
  ring : ∃ n, s.sampler.ringBuffer.Advanced n

/-! ## The order of the threads -/

theorem callback_of_canCall (h : s.canCall (.sampling t) = true) : s.threads t = some .callback := by
  simp only [canCall, Bool.and_eq_true, beq_iff_eq] at h
  exact h.2

/-- A call other than the one an update puts there was there before. -/
theorem calls_of_update {c' : Caller} {call : Call} {call' : Option Call}
    (h : Function.update s.calls c call' c' = some call) (hne : call' ≠ some call) :
    s.calls c' = some call := by
  by_cases hcc : c' = c
  · subst hcc
    rw [Function.update_self] at h
    exact absurd h hne
  · rwa [Function.update_of_ne hcc] at h

/-- A call that goes on, or returns, is not a new one. -/
theorem calls_ne_of_setCall {c' : Caller} {call : Call} {call' : Option Call}
    (hcall : s.calls c = some call) (h : (s.setCall c call').calls c' ≠ none) :
    s.calls c' ≠ none := by
  by_cases hcc : c' = c
  · rw [hcc, hcall]
    exact Option.some_ne_none call
  · rwa [setCall_calls_of_ne _ hcc] at h

/-- The locked section of a stop leaves its caller before the join, or past it. -/
theorem stopBy_call_wait {c' : Caller} {destroys : Bool} {call : Call}
    (h : (s.stopBy c destroys).calls c' = some call) :
    call.wait = .unlocked ∨ (call.wait = .stopped ∧ call.destroys = true) ∨
      s.calls c' = some call := by
  rw [stopBy_calls] at h
  by_cases hcc : c' = c
  · subst hcc
    rw [Function.update_self] at h
    split at h
    · obtain rfl := Option.some.inj h
      exact .inl rfl
    · split at h
      · obtain rfl := Option.some.inj h
        exact .inr (.inl ⟨rfl, rfl⟩)
      · cases h
  · rw [Function.update_of_ne hcc] at h
    exact .inr (.inr h)

/-- A stop begins no join under the lock. -/
theorem stopBy_joining {c' : Caller} {destroys destroys' : Bool} {target : Option ThreadId}
    (h : (s.stopBy c destroys).calls c' = some ⟨destroys', .joining target⟩) :
    s.calls c' = some ⟨destroys', .joining target⟩ := by
  rcases stopBy_call_wait h with hwait | ⟨hwait, -⟩ | hcall
  · cases hwait
  · cases hwait
  · exact hcall

@[simp] theorem stopBy_ringBuffer (c : Caller) (destroys : Bool) :
    (s.stopBy c destroys).sampler.ringBuffer = s.sampler.ringBuffer := by
  simp only [stopBy]
  split <;> rfl

/-- The call of a thread whose join has returned joins nothing. -/
theorem afterStop_joining {c' : Caller} {destroys : Bool} {call : Call} {target : Option ThreadId}
    (h : (s.afterStop c call).calls c' = some ⟨destroys, .joining target⟩) :
    s.calls c' = some ⟨destroys, .joining target⟩ := by
  refine calls_of_update h ?_
  split
  · simp
  · simp

section Ranked
variable {rank : ThreadId → ℕ}

/-- A step that keeps the name, and adds no live thread and no join, keeps the order. -/
theorem Ranked.of_frame (H : Ranked s rank) (hthread : s'.sampler.thread = s.sampler.thread)
    (halive : ∀ t, s'.Alive t → s.Alive t)
    (hjoins : ∀ t t' destroys, s'.calls (.sampling t) = some ⟨destroys, .joining (some t')⟩ →
      s.calls (.sampling t) = some ⟨destroys, .joining (some t')⟩) : Ranked s' rank where
  bounded := by
    obtain ⟨bound, hbound⟩ := H.bounded
    exact ⟨bound, fun t ht => hbound t (halive t ht)⟩
  named t t' hname ht' ht := H.named t t' (hthread.symm.trans hname) (halive t' ht') (halive t ht)
  injective t t' ht ht' := H.injective t t' (halive t ht) (halive t' ht')
  joins t t' destroys hcall ht' := H.joins t t' destroys (hjoins t t' destroys hcall) (halive t' ht')

/-- A name that a failed start leaves is the one that was there, or names no live thread. -/
theorem Ranked.failed (H : Ranked s rank) {junk : Option ThreadId}
    (hjunk : junk = s.sampler.thread ∨ ∀ t, junk = some t → ¬ s.Alive t) :
    Ranked { s with sampler := { s.sampler with isRunning := false, thread := junk } } rank where
  bounded := H.bounded
  named t t' hname ht' ht := by
    rcases hjunk with hsame | hdead
    · exact H.named t t' (hsame.symm.trans hname) ht' ht
    · exact absurd ht' (hdead t' hname)
  injective := H.injective
  joins := H.joins

/-- A new thread is the latest. -/
theorem Ranked.started (H : Ranked s rank)
    (hcalling : ∀ t, s.calls (.sampling t) ≠ none → s.threads t = some .callback)
    (hnew : s.threads t = none) :
    ∃ rank', Ranked ({ s with sampler := { s.sampler with
      isRunning := true, thread := some t } }.setThread t (some .top)) rank' := by
  obtain ⟨bound, hbound⟩ := H.bounded
  have halive : ∀ t', t' ≠ t → ({ s with sampler := { s.sampler with
      isRunning := true, thread := some t } }.setThread t (some .top)).Alive t' → s.Alive t' := by
    intro t' hne ht'
    rwa [Alive, setThread_threads_of_ne _ hne] at ht'
  have hle : ∀ t', ({ s with sampler := { s.sampler with
      isRunning := true, thread := some t } }.setThread t (some .top)).Alive t' →
      Function.update rank t bound t' ≤ bound := by
    intro t' ht'
    by_cases htt : t' = t
    · rw [htt, Function.update_self]
    · rw [Function.update_of_ne htt]
      exact (hbound t' (halive t' htt ht')).le
  refine ⟨Function.update rank t bound, ⟨bound + 1, ?_⟩, ?_, ?_, ?_⟩
  · intro t' ht'
    exact Nat.lt_succ_of_le (hle t' ht')
  · intro t₁ t₂ hname _ h₁
    obtain rfl := Option.some.inj hname
    rw [Function.update_self]
    exact hle t₁ h₁
  · intro t₁ t₂ h₁ h₂ heq
    by_cases h₁t : t₁ = t
    · by_cases h₂t : t₂ = t
      · rw [h₁t, h₂t]
      · rw [h₁t, Function.update_self, Function.update_of_ne h₂t] at heq
        exact absurd heq.symm (hbound t₂ (halive t₂ h₂t h₂)).ne
    · by_cases h₂t : t₂ = t
      · rw [h₂t, Function.update_self, Function.update_of_ne h₁t] at heq
        exact absurd heq (hbound t₁ (halive t₁ h₁t h₁)).ne
      · rw [Function.update_of_ne h₁t, Function.update_of_ne h₂t] at heq
        exact H.injective t₁ t₂ (halive t₁ h₁t h₁) (halive t₂ h₂t h₂) heq
  · intro t₁ t₂ destroys hcall h₂
    change s.calls (.sampling t₁) = _ at hcall
    have h₁ : s.threads t₁ = some .callback := by
      apply hcalling
      rw [hcall]
      exact Option.some_ne_none _
    have h₁t : t₁ ≠ t := by
      intro htt
      rw [htt, hnew] at h₁
      cases h₁
    rw [Function.update_of_ne h₁t]
    by_cases h₂t : t₂ = t
    · right
      rw [h₂t, Function.update_self]
      apply hbound
      rw [Alive, h₁]
      exact Option.some_ne_none _
    · rw [Function.update_of_ne h₂t]
      exact H.joins t₁ t₂ destroys hcall (halive t₂ h₂t h₂)

/-- The thread a join finds named is the latest. -/
theorem Ranked.join (H : Ranked s rank)
    (hcalling : ∀ t, s.calls (.sampling t) ≠ none → s.threads t = some .callback)
    {destroys : Bool} (hcall : s.calls c = some ⟨destroys, .unlocked⟩) :
    Ranked (s.setCall c (some ⟨destroys, .joining s.sampler.thread⟩)) rank where
  bounded := H.bounded
  named := H.named
  injective := H.injective
  joins t t' destroys' hcall' ht' := by
    by_cases hct : Caller.sampling t = c
    · rw [← hct, setCall_calls_self] at hcall'
      obtain ⟨-, hwait⟩ := Call.mk.inj (Option.some.inj hcall')
      have hthread : s.sampler.thread = some t' := Wait.joining.inj hwait
      have ht : s.Alive t := by
        rw [Alive, hcalling t (by rw [hct, hcall]; exact Option.some_ne_none _)]
        exact Option.some_ne_none _
      rcases (H.named t t' hthread ht' ht).lt_or_eq with hlt | heq
      · exact .inr hlt
      · exact .inl (H.injective t t' ht ht' heq).symm
    · rw [setCall_calls_of_ne _ hct] at hcall'
      exact H.joins t t' destroys' hcall' ht'

end Ranked

/-! ## The invariant -/

theorem alive_of_setThread {phase : Phase} {phase' : Option Phase} (h : s.threads t = some phase)
    (ht' : (s.setThread t phase').Alive t') : s.Alive t' := by
  cases phase' with
  | none => exact alive_of_alive_exited ht'
  | some phase' => exact alive_of_alive_moved h ht'

/-- A live thread that goes on, or exits, keeps its place. -/
theorem Ranked.moved {rank : ThreadId → ℕ} (R : Ranked s rank) {phase : Phase}
    {phase' : Option Phase} (h : s.threads t = some phase) : Ranked (s.setThread t phase') rank :=
  R.of_frame rfl (fun _ ht' => alive_of_setThread h ht') (fun _ _ _ hcall => hcall)

theorem Ordered.ranked_step (H : Ordered s) (hok : KeepsName s a) (h : Step s a s') :
    ∃ rank, Ranked s' rank := by
  obtain ⟨rank, R⟩ := H.ranked
  cases turn h with
  | ignored c create => exact ⟨rank, R⟩
  | failed c code junk hrun => exact ⟨rank, R.failed (hok c code junk rfl hrun)⟩
  | started c t hrun hnew => exact R.started H.calling hnew
  | stopped c hcan =>
      refine ⟨rank, R.of_frame (by simp) (by simp [Alive]) ?_⟩
      intro t t' destroys hcall
      exact stopBy_joining hcall
  | destroyed n hcan =>
      refine ⟨rank, R.of_frame (by simp) (by simp [Alive]) ?_⟩
      intro t t' destroys hcall
      exact stopBy_joining hcall
  | join c destroys hcall => exact ⟨rank, R.join H.calling hcall⟩
  | joined c destroys target hcall hreturns =>
      refine ⟨rank, R.of_frame rfl (fun _ ht => ht) ?_⟩
      intro t t' destroys' hcall'
      exact afterStop_joining hcall'
  | freed c hcall =>
      refine ⟨rank, R.of_frame rfl (fun _ ht => ht) ?_⟩
      intro t t' destroys hcall'
      exact calls_of_update hcall' (by simp)
  | sampled t capture ringBuffer phase htop hrun hwrite hphase =>
      refine ⟨rank, R.of_frame rfl ?_ (fun _ _ _ hcall => hcall)⟩
      intro t' ht'
      exact alive_of_setThread (s := { s with sampler := _ }) htop ht'
  | left t capture htop hrun => exact ⟨rank, R.moved htop⟩
  | returned t hphase hcall => exact ⟨rank, R.moved hphase⟩
  | woke t hphase => exact ⟨rank, R.moved hphase⟩
  | exited t hphase => exact ⟨rank, R.moved hphase⟩

/-- A thread in its callback stays there while another one moves. -/
theorem callback_kept {phase : Option Phase} (hcallback : s.threads t' = some .callback)
    (h : s.threads t ≠ some .callback) : (s.setThread t phase).threads t' = some .callback := by
  have htt : t' ≠ t := by
    intro htt
    rw [htt] at hcallback
    exact h hcallback
  rwa [setThread_threads_of_ne _ htt]

theorem Ordered.calling_step (H : Ordered s) (h : Step s a s')
    (hcall : s'.calls (.sampling t) ≠ none) : s'.threads t = some .callback := by
  cases turn h with
  | ignored c create => exact H.calling t hcall
  | failed c code junk hrun => exact H.calling t hcall
  | started c t' hrun hnew =>
      refine callback_kept (s := { s with sampler := _ }) (H.calling t hcall) ?_
      simp [hnew]
  | stopped c hcan =>
      rw [stopBy_threads]
      obtain ⟨call, hcall⟩ := Option.ne_none_iff_exists'.mp hcall
      rcases stopBy_call hcall with ⟨rfl, -⟩ | hcall
      · exact callback_of_canCall hcan
      · exact H.calling t (by simp [hcall])
  | destroyed n hcan =>
      change (s.stopBy (.other n) true).threads t = _
      rw [stopBy_threads]
      obtain ⟨call, hcall⟩ := Option.ne_none_iff_exists'.mp hcall
      rcases stopBy_call hcall with ⟨hc, -⟩ | hcall
      · cases hc
      · exact H.calling t (by simp [hcall])
  | join c destroys hold => exact H.calling t (calls_ne_of_setCall hold hcall)
  | joined c destroys target hold hreturns => exact H.calling t (calls_ne_of_setCall hold hcall)
  | freed c hold => exact H.calling t (calls_ne_of_setCall hold hcall)
  | sampled t' capture ringBuffer phase htop hrun hwrite hphase =>
      refine callback_kept (s := { s with sampler := _ }) (H.calling t hcall) ?_
      simp [htop]
  | left t' capture htop hrun => exact callback_kept (H.calling t hcall) (by simp [htop])
  | returned t' hphase hnone =>
      have htt : t ≠ t' := by
        intro htt
        rw [htt] at hcall
        exact hcall hnone
      rw [setThread_threads_of_ne _ htt]
      exact H.calling t hcall
  | woke t' hphase => exact callback_kept (H.calling t hcall) (by simp [hphase])
  | exited t' hphase => exact callback_kept (H.calling t hcall) (by simp [hphase])

theorem Ordered.stopped_step (H : Ordered s) (h : Step s a s') {call : Call}
    (hcall : s'.calls c = some call) (hwait : call.wait = .stopped) : call.destroys = true := by
  have hstop : ∀ c' destroys, (s.stopBy c' destroys).calls c = some call →
      call.destroys = true := by
    intro c' destroys hcall
    rcases stopBy_call_wait hcall with h | ⟨-, h⟩ | hold
    · rw [hwait] at h
      cases h
    · exact h
    · exact H.stopped c call hold hwait
  cases turn h with
  | stopped c' hcan => exact hstop c' false hcall
  | destroyed n hcan => exact hstop (.other n) true hcall
  | join c' destroys hold =>
      refine H.stopped c call (calls_of_update hcall ?_) hwait
      intro h
      obtain rfl := Option.some.inj h
      cases hwait
  | joined c' destroys target hold hreturns =>
      by_cases hkind : some (Call.mk true .stopped) = some call
      · obtain rfl := Option.some.inj hkind
        rfl
      · refine H.stopped c call (calls_of_update hcall ?_) hwait
        split
        · exact hkind
        · exact (Option.some_ne_none call).symm
  | freed c' hold => exact H.stopped c call (calls_of_update hcall (by simp)) hwait
  | _ => exact H.stopped c call hcall hwait

theorem Ordered.ring_step (H : Ordered s) (h : Step s a s') :
    ∃ n, s'.sampler.ringBuffer.Advanced n := by
  obtain ⟨n, A⟩ := H.ring
  cases turn h with
  | sampled t capture ringBuffer phase htop hrun hwrite hphase => exact ⟨n + 1, A.write hwrite⟩
  | stopped c hcan => exact ⟨n, by rwa [stopBy_ringBuffer]⟩
  | destroyed m hcan => exact ⟨n, by simpa using A⟩
  | _ => exact ⟨n, A⟩

theorem Ordered.step (H : Ordered s) (hok : KeepsName s a) (h : Step s a s') : Ordered s' where
  ranked := H.ranked_step hok h
  calling _ := H.calling_step h
  stopped _ _ := H.stopped_step h
  ring := H.ring_step h

theorem Initial.ordered (h : Initial s) : Ordered s := by
  obtain ⟨intervalMs, itemSize, r, sampler, subscriber, hcreate, rfl⟩ := h
  obtain ⟨hsize, ringBuffer, halloc, rfl⟩ := create_eq_some hcreate
  refine ⟨⟨fun _ => 0, ⟨0, ?_⟩, ?_, ?_, ?_⟩, ?_, ?_, 0, ?_⟩
  · intro t ht
    exact absurd rfl ht
  · intro t t' hname
    cases hname
  · intro t t' ht
    exact absurd rfl ht
  · intro t t' destroys hcall
    cases hcall
  · intro t hcall
    exact absurd rfl hcall
  · intro c call hcall
    cases hcall
  · exact (RingBuffer.Holds.alloc halloc (by decide) (Nat.one_le_iff_ne_zero.mpr hsize)).toAdvanced

theorem Ordered.of_reachable
    (h : Transition.Reachable Initial (Transition.Guarded KeepsName Step) s) : Ordered s := by
  refine h.invariant Ordered (fun _ hs => hs.ordered) ?_
  intro s a s' H hstep
  exact H.step hstep.1 hstep.2

/-- A run of the machine without failing starts. -/
theorem keepsName_of_exec {as : List Action} {os : List Unit}
    (has : ∀ a ∈ as, ∀ c code junk, a ≠ .start c (.failed code junk))
    (hs : Transition.Reachable Initial (Transition.Guarded KeepsName Step) s)
    (h : Transition.exec answer s as = some (os, s')) :
    Transition.Reachable Initial (Transition.Guarded KeepsName Step) s' := by
  refine Transition.exec_reachable ?_ hs h
  intro a ha o _ s s' hanswer
  refine ⟨?_, step_of_answer hanswer⟩
  intro c code junk hfailed
  exact absurd hfailed (has a ha c code junk)

end System
end Sampler
end Ctm
