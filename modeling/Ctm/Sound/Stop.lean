import Ctm.Sound.Steps
import Mathlib.Data.List.Infix

/-!
# The end of a stream

`ctm_sound_stop` ends the loop thread, destroys the stream under the lock, and gives back the
loop, the eventfd, the file and the memory, one line after the other.  The playback thread
runs `on_playback_process` until the stream is destroyed, and the loop thread runs
`on_eventfd_signal` until it is joined.  Threads of the program may call `ctm_sound_stop` once
`ctm_sound_play_async` has returned, and `on_finished` may, as `sound.h` suggests; nothing
keeps them from calling it again.

When PipeWire calls a handler and when its functions return is a parameter.  What is used of it
is documented: `pw_thread_loop_stop` joins the loop thread, its lock excludes the other
threads, and `pw_stream_destroy` waits for the call of `on_playback_process` in progress.  What
a join of the calling thread itself does is left open.

## Main definitions

* `Resource`, `StopLine`, `stopLines` — the body of `ctm_sound_stop`, and what it gives back.
* `Session` — a stream with its two threads and its end.
* `PipeWire`, `PipeWire.Documented` — the library, and what is used of it.
* `Session.next`, `Session.Step` — the steps.
* `Session.uses` — what a step reads or writes.
* `Session.given_perm` — what any calls of `ctm_sound_stop` have given back.
* `Sane` — who may still run, where it is called once.
* `Session.uses_released_iff` — the steps that use what has been given back.
-/

namespace Ctm.Sound

/-- What `ctm_sound_stop` gives back. -/
inductive Resource
  /-- `output_playback_stream`, with its buffers. -/
  | stream
  /-- `thread_loop`, with its lock and its `loop`. -/
  | threadLoop
  | eventfd
  /-- `input_snd_file_handle` -/
  | file
  /-- The `CtmAudioStreamSource`. -/
  | source
deriving DecidableEq, Repr

/-- A line of `ctm_sound_stop`. -/
inductive StopLine
  | threadLoopStop
  | threadLoopLock
  | streamDestroy
  | threadLoopUnlock
  | threadLoopDestroy
  | close
  | sfClose
  | free
deriving DecidableEq, Repr

/-- The body of `ctm_sound_stop`. -/
def stopLines : List StopLine :=
  [.threadLoopStop, .threadLoopLock, .streamDestroy, .threadLoopUnlock, .threadLoopDestroy,
    .close, .sfClose, .free]

/-- What a line gives back. -/
def StopLine.releases : StopLine → List Resource
  | .streamDestroy => [.stream]
  | .threadLoopDestroy => [.threadLoop]
  | .close => [.eventfd]
  | .sfClose => [.file]
  | .free => [.source]
  | _ => []

/-- Who calls `ctm_sound_stop`. -/
inductive Stopper
  /-- A thread of the program. -/
  | client
  /-- The callback, on the thread that runs it. -/
  | onFinished
deriving DecidableEq, Repr

/-- A stream and its end. -/
structure Session where
  system : System
  /-- Who runs `on_finished` inside of a refill, with the lock. -/
  callback : Option Caller
  /-- The calls of `ctm_sound_stop`, each with the lines to come. -/
  stops : List (Stopper × List StopLine)
  /-- The loop thread has been joined. -/
  joined : Bool
  /-- A call of `ctm_sound_stop` has the lock. -/
  held : Bool
  /-- What has been given back, in order. -/
  released : List Resource

/-- Who calls `pw_thread_loop_lock`. -/
inductive Locker
  | onEventfdSignal
  | ctmSoundStop (who : Stopper)
deriving DecidableEq, Repr

/-- What PipeWire does in a state of a session. -/
structure PipeWire where
  /-- `on_playback_process` may be called. -/
  process : Session → Bool
  /-- `on_eventfd_signal` may be called. -/
  signal : Session → Bool
  /-- `pw_thread_loop_lock` returns. -/
  lock : Session → Locker → Bool
  /-- `pw_thread_loop_stop` returns. -/
  stop : Session → Stopper → Bool
  /-- `pw_stream_destroy` returns. -/
  destroy : Session → Bool

namespace Session

/-- The thread that runs `ctm_sound_stop` is the one `pw_thread_loop_stop` joins. -/
def joinsItself (s : Session) (who : Stopper) : Prop :=
  who = .onFinished ∧ s.callback = some .onEventfdSignal

instance (s : Session) (who : Stopper) : Decidable (s.joinsItself who) :=
  inferInstanceAs (Decidable (_ ∧ _))

/-- No other thread has the lock: no refill, no callback but the caller's own, and no call of
`ctm_sound_stop`. -/
def lockFree (s : Session) : Locker → Prop
  | .onEventfdSignal => s.callback = none ∧ s.held = false
  | .ctmSoundStop who =>
      s.system.refill.isNone = true ∧ (s.callback = none ∨ who = .onFinished) ∧ s.held = false

instance (s : Session) : ∀ who, Decidable (s.lockFree who)
  | .onEventfdSignal => inferInstanceAs (Decidable (_ ∧ _))
  | .ctmSoundStop _ => inferInstanceAs (Decidable (_ ∧ _ ∧ _))

/-- The loop thread is not in `on_eventfd_signal`, its refill or its callback. -/
def loopIdle (s : Session) : Prop :=
  s.system.handling = false ∧ s.callback ≠ some .onEventfdSignal

instance (s : Session) : Decidable s.loopIdle := inferInstanceAs (Decidable (_ ∧ _))

/-- The stream is not in a call of `on_playback_process`. -/
def atRest (s : Session) : Bool :=
  match s.system.playback with
  | .idle => true
  | _ => false

end Session

/-- What PipeWire documents. -/
structure PipeWire.Documented (pw : PipeWire) : Prop where
  /-- A stream that has been destroyed is not processed. -/
  process : ∀ s, pw.process s = true → .stream ∉ s.released
  /-- The loop thread is in one handler at a time, and in none after it has been joined. -/
  signal : ∀ s, pw.signal s = true → s.joined = false ∧ s.callback ≠ some .onEventfdSignal
  /-- The lock is given to one thread at a time, and given when it is free. -/
  lock : ∀ s who, pw.lock s who = true ↔ s.lockFree who
  /-- The loop thread is joined when it is in no handler. -/
  stop : ∀ s who, ¬ s.joinsItself who → (pw.stop s who = true ↔ s.loopIdle)
  /-- A stream is destroyed when it is in no call of its handler. -/
  destroy : ∀ s, pw.destroy s = true ↔ s.atRest = true

namespace Session

/-- A step of a session. -/
inductive Action
  /-- A step of the stream; the last test of a refill calls `on_finished`. -/
  | player (a : Sound.Action)
  /-- `on_finished` returns, and the lock is released. -/
  | onFinishedReturns
  /-- `ctm_sound_stop` is called. -/
  | stop (who : Stopper)
  /-- The next line of this call of it. -/
  | line (i : ℕ)

/-- PipeWire lets the stream take this step. -/
def canRun (pw : PipeWire) (s : Session) : Sound.Action → Bool
  | .playback (.dequeue _) => pw.process s
  | .playback .dequeueFails => pw.process s
  | .signal .eventfdRead => pw.signal s
  | .signal .lock => pw.lock s .onEventfdSignal
  | _ => true

/-- The call of this line returns. -/
def returns (pw : PipeWire) (s : Session) (who : Stopper) : StopLine → Bool
  | .threadLoopStop => pw.stop s who
  | .threadLoopLock => pw.lock s (.ctmSoundStop who)
  | .streamDestroy => pw.destroy s
  | _ => true

/-- The stream has taken a step; where a refill ended with a call of `on_finished`, the one who
runs the refill is in the callback. -/
def played (s : Session) (system : System) : Session :=
  { s with
    system := system
    callback :=
      if system.calls = s.system.calls then s.callback else s.system.refill.map Prod.fst }

/-- The callback is in a call of `ctm_sound_stop`. -/
def stopping (s : Session) : Bool := s.stops.any fun c => c.1 = .onFinished && !c.2.isEmpty

/-- Line `l` of call `i` has returned. -/
def passed (s : Session) (i : ℕ) (who : Stopper) (l : StopLine) (rest : List StopLine) :
    Session :=
  { s with
    stops := s.stops.set i (who, rest)
    joined := s.joined || (l = .threadLoopStop && !decide (s.joinsItself who))
    held := (s.held || l = .threadLoopLock) && l != .threadLoopUnlock
    released := s.released ++ l.releases }

/-- One step, where it is possible. -/
def next (pw : PipeWire) (s : Session) : Action → Option Session
  | .player a => if s.canRun pw a then (s.system.next a).map s.played else none
  | .onFinishedReturns =>
      match s.callback with
      | none => none
      | some _ => if s.stopping then none else some { s with callback := none }
  | .stop .client =>
      -- `ctm_sound_play_async` has returned.
      if s.callback ≠ some .ctmSoundPlayAsync ∧
          s.system.refill.map Prod.fst ≠ some .ctmSoundPlayAsync then
        some { s with stops := s.stops ++ [(.client, stopLines)] }
      else none
  | .stop .onFinished =>
      if s.callback.isSome ∧ s.stopping = false then
        some { s with stops := s.stops ++ [(.onFinished, stopLines)] }
      else none
  | .line i =>
      match s.stops[i]? with
      | some (who, l :: rest) => if s.returns pw who l then some (s.passed i who l rest) else none
      | _ => none

/-- A step of the session. -/
def Step (pw : PipeWire) (s : Session) (a : Action) (s' : Session) : Prop := s.next pw a = some s'

/-- The session of a stream that has been started. -/
def Started (channels : ℕ) (file : List UInt8) (onFinished : Bool) (s : Session) : Prop :=
  Sound.Started channels file onFinished s.system ∧
    s = ⟨s.system, none, [], false, false, []⟩

/-- `ctm_sound_stop` is called for the first time, or this is no call of it. -/
def Once (s : Session) : Action → Prop
  | .stop _ => s.stops = []
  | _ => True

instance (s : Session) : ∀ a, Decidable (s.Once a)
  | .stop _ => inferInstanceAs (Decidable (s.stops = []))
  | .player _ => .isTrue trivial
  | .onFinishedReturns => .isTrue trivial
  | .line _ => .isTrue trivial

/-- The states a session reaches in which `ctm_sound_stop` has been called at most once. -/
def Reached (pw : PipeWire) (channels : ℕ) (file : List UInt8) (onFinished : Bool) :
    Session → Prop :=
  Transition.Reachable (Started channels file onFinished) (Transition.Guarded Once (Step pw))

/-- The one who has called `ctm_sound_stop`. -/
def stopper (s : Session) : Option Stopper := s.stops.head?.map Prod.fst

/-- The lines of `ctm_sound_stop` to come. -/
def rest (s : Session) : List StopLine := (s.stops.head?.map Prod.snd).getD stopLines

end Session

/-! ## What a step of the stream leaves -/

namespace System
variable {s s' : System}

theorem handling_eq_false_iff : s.handling = false ↔
    s.signalled = false ∧ s.refill.map Prod.fst ≠ some .onEventfdSignal := by
  rw [handling, Bool.or_eq_false_iff]
  rcases s.refill with - | ⟨- | -, pc⟩ <;> simp

theorem playback_frame {a : PlaybackAction} (h : Step s (.playback a) s') :
    s'.refill = s.refill ∧ s'.signalled = s.signalled ∧ s'.calls = s.calls := by
  cases next_effect h <;> exact ⟨rfl, rfl, rfl⟩

/-- A refill stays with its caller, and calls `on_finished` only where it ends. -/
theorem refill_frame {a : RefillAction} (h : Step s (.refill a) s') :
    ∃ c, s.refill.map Prod.fst = some c ∧
      (s'.refill = none ∨ s'.refill.map Prod.fst = some c ∧ s'.calls = s.calls) ∧
      s'.signalled = s.signalled ∧ s'.playback = s.playback := by
  cases next_effect h with
  | asked c hr hn => exact ⟨c, by rw [hr]; rfl, .inr ⟨rfl, rfl⟩, rfl, rfl⟩
  | full c hr hn => exact ⟨c, by rw [hr]; rfl, .inr ⟨rfl, rfl⟩, rfl, rfl⟩
  | read c writeIndex n framesRead hr hle hlen hpos =>
      exact ⟨c, by rw [hr]; rfl, .inr ⟨rfl, rfl⟩, rfl, rfl⟩
  | ended c writeIndex n hr => exact ⟨c, by rw [hr]; rfl, .inr ⟨rfl, rfl⟩, rfl, rfl⟩
  | wrote c writeIndex localBuffer n hr => exact ⟨c, by rw [hr]; rfl, .inr ⟨rfl, rfl⟩, rfl, rfl⟩
  | produced c writeIndex n hr => exact ⟨c, by rw [hr]; rfl, .inr ⟨rfl, rfl⟩, rfl, rfl⟩
  | loaded c hr => exact ⟨c, by rw [hr]; rfl, .inr ⟨rfl, rfl⟩, rfl, rfl⟩
  | finished c readIndex writeIndex hr heof hle => exact ⟨c, by rw [hr]; rfl, .inl rfl, rfl, rfl⟩
  | passed c readIndex writeIndex hr hnot => exact ⟨c, by rw [hr]; rfl, .inl rfl, rfl, rfl⟩

end System

namespace Session
variable {pw : PipeWire} {s s' : Session} {a : Action} {channels : ℕ} {file : List UInt8}
  {onFinished : Bool}

theorem played_of_calls {system : System} (h : system.calls = s.system.calls) :
    s.played system = { s with system := system } := by
  rw [played, if_pos h]

/-- Everything a step can do. -/
theorem step_cases (h : Step pw s a s') :
    (∃ b system, a = .player b ∧ s.canRun pw b = true ∧ System.Step s.system b system ∧
      s' = s.played system) ∨
    (∃ c, a = .onFinishedReturns ∧ s.callback = some c ∧ s.stopping = false ∧
      s' = { s with callback := none }) ∨
    (a = .stop .client ∧ s.callback ≠ some .ctmSoundPlayAsync ∧
      s.system.refill.map Prod.fst ≠ some .ctmSoundPlayAsync ∧
      s' = { s with stops := s.stops ++ [(.client, stopLines)] }) ∨
    (a = .stop .onFinished ∧ s.callback.isSome ∧ s.stopping = false ∧
      s' = { s with stops := s.stops ++ [(.onFinished, stopLines)] }) ∨
    ∃ i who l rest, a = .line i ∧ s.stops[i]? = some (who, l :: rest) ∧
      s.returns pw who l = true ∧ s' = s.passed i who l rest := by
  cases a with
  | player b =>
      simp only [Step, next] at h
      split at h
      · rename_i hrun
        obtain ⟨system, hnext, rfl⟩ := Option.map_eq_some_iff.mp h
        exact .inl ⟨b, system, rfl, hrun, hnext, rfl⟩
      · cases h
  | onFinishedReturns =>
      refine .inr (.inl ?_)
      cases hc : s.callback with
      | none => simp only [Step, next, hc, reduceCtorEq] at h
      | some c =>
          simp only [Step, next, hc] at h
          split at h
          · cases h
          · rename_i hstopping
            exact ⟨c, rfl, rfl, Bool.eq_false_iff.mpr hstopping, (Option.some.inj h).symm⟩
  | stop who =>
      cases who with
      | client =>
          simp only [Step, next] at h
          split at h
          · rename_i hready
            exact .inr (.inr (.inl ⟨rfl, hready.1, hready.2, (Option.some.inj h).symm⟩))
          · cases h
      | onFinished =>
          simp only [Step, next] at h
          split at h
          · rename_i hready
            exact .inr (.inr (.inr (.inl ⟨rfl, hready.1, hready.2, (Option.some.inj h).symm⟩)))
          · cases h
  | line i =>
      simp only [Step, next] at h
      split at h
      · rename_i who l rest hstop
        split at h
        · rename_i hready
          exact .inr (.inr (.inr (.inr ⟨i, who, l, rest, rfl, hstop, hready,
            (Option.some.inj h).symm⟩)))
        · cases h
      · cases h

/-! ## What has been given back -/

/-- What the lines before `rest` give back. -/
def given (rest : List StopLine) : List Resource :=
  (stopLines.take (stopLines.length - rest.length)).flatMap StopLine.releases

theorem given_of_append {before rest : List StopLine} (h : before ++ rest = stopLines) :
    given rest = before.flatMap StopLine.releases := by
  have hlength : stopLines.length - rest.length = before.length := by
    rw [← h, List.length_append, Nat.add_sub_cancel]
  rw [given, hlength, ← h, List.take_left]

theorem given_stopLines : given stopLines = [] := rfl

/-- A line gives back its own. -/
theorem given_cons {l : StopLine} {rest : List StopLine} (h : l :: rest <:+ stopLines) :
    given rest = given (l :: rest) ++ l.releases := by
  obtain ⟨before, hbefore⟩ := h
  have hafter : (before ++ [l]) ++ rest = stopLines := by
    rw [List.append_assoc]
    exact hbefore
  rw [given_of_append hbefore, given_of_append hafter, List.flatMap_append, List.flatMap_singleton]

/-- What an entry of a list adds when it is replaced. -/
theorem flatMap_set_perm {α β : Type*} {f : α → List β} {xs : List α} {i : ℕ} {x y : α}
    {extra : List β} (h : xs[i]? = some x) (hf : f y = f x ++ extra) :
    ((xs.set i y).flatMap f).Perm (xs.flatMap f ++ extra) := by
  obtain ⟨hlt, rfl⟩ := List.getElem?_eq_some_iff.mp h
  have hsplit : xs.flatMap f =
      (xs.take i).flatMap f ++ (f xs[i] ++ (xs.drop (i + 1)).flatMap f) := by
    conv_lhs => rw [← List.take_append_drop i xs, List.drop_eq_getElem_cons hlt]
    rw [List.flatMap_append, List.flatMap_cons]
  rw [List.set_eq_take_append_cons_drop, if_pos hlt, List.flatMap_append, List.flatMap_cons, hf,
    hsplit]
  simp only [List.append_assoc]
  exact (List.Perm.append_left _ (List.Perm.append_left _ List.perm_append_comm))

/-- Every call is at one of its lines, and what has been given back is what the lines that have
returned give back. -/
structure Given (s : Session) : Prop where
  suffix : ∀ c ∈ s.stops, c.2 <:+ stopLines
  perm : s.released.Perm (s.stops.flatMap fun c => given c.2)

theorem Given.step (G : Given s) (h : Step pw s a s') : Given s' := by
  have hnew : ∀ who, Given { s with stops := s.stops ++ [(who, stopLines)] } := by
    intro who
    refine ⟨?_, ?_⟩
    · intro c hc
      rcases List.mem_append.mp hc with hc | hc
      · exact G.suffix c hc
      · rw [List.mem_singleton.mp hc]
    · rw [List.flatMap_append, List.flatMap_singleton, given_stopLines, List.append_nil]
      exact G.perm
  obtain ⟨b, system, -, -, -, rfl⟩ | ⟨c, -, -, -, rfl⟩ | ⟨-, -, -, rfl⟩ | ⟨-, -, -, rfl⟩ |
    ⟨i, who, l, rest, -, hstop, -, rfl⟩ := step_cases h
  · exact ⟨G.suffix, G.perm⟩
  · exact ⟨G.suffix, G.perm⟩
  · exact hnew .client
  · exact hnew .onFinished
  · have hsuffix := G.suffix _ (List.mem_of_getElem? hstop)
    refine ⟨?_, ?_⟩
    · intro c hc
      rcases List.mem_or_eq_of_mem_set hc with hc | rfl
      · exact G.suffix c hc
      · exact (List.suffix_cons l rest).trans hsuffix
    · exact (G.perm.append_right _).trans
        (flatMap_set_perm hstop (given_cons hsuffix)).symm

/-- A step of a session with at most one call. -/
theorem once_cases (hone : s.stops.length ≤ 1) (h : Transition.Guarded Once (Step pw) s a s') :
    (∃ b system, a = .player b ∧ s.canRun pw b = true ∧ System.Step s.system b system ∧
      s' = s.played system) ∨
    (∃ c, a = .onFinishedReturns ∧ s.callback = some c ∧
      (∀ l rest, s.stops ≠ [(.onFinished, l :: rest)]) ∧ s' = { s with callback := none }) ∨
    (a = .stop .client ∧ s.stops = [] ∧ s.callback ≠ some .ctmSoundPlayAsync ∧
      s.system.refill.map Prod.fst ≠ some .ctmSoundPlayAsync ∧
      s' = { s with stops := [(.client, stopLines)] }) ∨
    (a = .stop .onFinished ∧ s.stops = [] ∧ s.callback.isSome ∧
      s' = { s with stops := [(.onFinished, stopLines)] }) ∨
    ∃ who l rest, a = .line 0 ∧ s.stops = [(who, l :: rest)] ∧ s.returns pw who l = true ∧
      s' = s.passed 0 who l rest := by
  obtain ⟨honce, h⟩ := h
  obtain hplayer | ⟨c, rfl, hc, hstopping, rfl⟩ | ⟨rfl, hcallback, hrefill, rfl⟩ |
    ⟨rfl, hcallback, -, rfl⟩ | ⟨i, who, l, rest, rfl, hstop, hreturns, rfl⟩ := step_cases h
  · exact .inl hplayer
  · refine .inr (.inl ⟨c, rfl, hc, ?_, rfl⟩)
    intro l rest heq
    rw [stopping, heq] at hstopping
    cases hstopping
  · have hnil : s.stops = [] := honce
    rw [hnil]
    exact .inr (.inr (.inl ⟨rfl, rfl, hcallback, hrefill, rfl⟩))
  · have hnil : s.stops = [] := honce
    rw [hnil]
    exact .inr (.inr (.inr (.inl ⟨rfl, rfl, hcallback, rfl⟩)))
  · obtain ⟨hlt, heq⟩ := List.getElem?_eq_some_iff.mp hstop
    obtain rfl : i = 0 := by omega
    obtain ⟨c, hsingle⟩ := List.length_eq_one_iff.mp (show s.stops.length = 1 by omega)
    obtain rfl : c = (who, l :: rest) := by
      rw [hsingle] at hstop
      exact Option.some.inj hstop
    exact .inr (.inr (.inr (.inr ⟨who, l, rest, rfl, hsingle, hreturns, rfl⟩)))

/-- The call behind a line. -/
theorem stops_passed {who : Stopper} {l : StopLine} {rest : List StopLine}
    (h : s.stops = [(who, l :: rest)]) : (s.passed 0 who l rest).stops = [(who, rest)] := by
  rw [passed, h]
  rfl

/-- What is known of every session with at most one call. -/
structure Counted (s : Session) : Prop where
  one : s.stops.length ≤ 1
  given : Given s

theorem Counted.step (C : Counted s) (h : Transition.Guarded Once (Step pw) s a s') :
    Counted s' := by
  refine ⟨?_, C.given.step h.2⟩
  obtain ⟨b, system, -, -, -, rfl⟩ | ⟨c, -, -, -, rfl⟩ | ⟨-, -, -, -, rfl⟩ | ⟨-, -, -, rfl⟩ |
    ⟨who, l, rest, -, -, -, rfl⟩ := once_cases C.one h
  · exact C.one
  · exact C.one
  · exact le_rfl
  · exact le_rfl
  · exact (List.length_set).trans_le C.one

theorem Reached.counted (h : Reached pw channels file onFinished s) : Counted s := by
  refine h.invariant Counted ?_ fun _ _ _ C hstep => C.step hstep
  rintro s ⟨-, hs⟩
  rw [hs]
  exact ⟨Nat.zero_le _, List.forall_mem_nil _, List.Perm.refl _⟩

theorem rest_of_stops {who : Stopper} {lines : List StopLine} (h : s.stops = [(who, lines)]) :
    s.rest = lines ∧ s.stopper = some who := by
  rw [Session.rest, stopper, h]
  exact ⟨rfl, rfl⟩

theorem Counted.rest_mem (C : Counted s) : s.rest ∈ stopLines.tails := by
  rw [List.mem_tails]
  cases hstops : s.stops with
  | nil =>
      rw [Session.rest, hstops]
      exact List.suffix_refl _
  | cons c stops =>
      rw [Session.rest, hstops]
      exact C.given.suffix c (hstops ▸ List.mem_cons_self)

/-- What has been given back. -/
theorem Counted.perm (C : Counted s) : s.released.Perm (Session.given s.rest) := by
  have hperm := C.given.perm
  have hone := C.one
  cases hstops : s.stops with
  | nil =>
      rw [hstops] at hperm
      rw [Session.rest, hstops]
      exact hperm
  | cons c stops =>
      rw [hstops, List.length_cons] at hone
      obtain rfl : stops = [] := List.length_eq_zero_iff.mp (by omega)
      rw [hstops, List.flatMap_singleton] at hperm
      rw [Session.rest, hstops]
      exact hperm

/-! ## Who may still run -/

/-- Who may still run: the loop thread is in one place at a time, `ctm_sound_play_async` has
returned when the program stops the stream, and behind the first line the loop thread has
ended, or is the one that stops the stream. -/
structure Sane (s : Session) : Prop where
  callback : s.callback.isSome → s.system.refill = none
  alone : s.system.signalled = true →
    s.system.refill.map Prod.fst ≠ some .onEventfdSignal ∧ s.callback ≠ some .onEventfdSignal
  returned : s.stops ≠ [] → s.system.refill.map Prod.fst ≠ some .ctmSoundPlayAsync
  client : s.stopper = some .client → s.callback ≠ some .ctmSoundPlayAsync
  onFinished : s.stopper = some .onFinished → s.callback.isSome
  ended : s.rest ≠ stopLines → s.system.handling = false ∧
    if s.callback = some .onEventfdSignal then s.stopper = some .onFinished else s.joined = true
  held : s.held = true → s.rest.length = 5 ∨ s.rest.length = 6
  idle : .stream ∈ s.released → s.system.playback = .idle

namespace Sane

/-- Behind the first line the loop thread is not in a refill, and nobody else is. -/
theorem refill_eq_none (S : Sane s) (h : s.rest ≠ stopLines) : s.system.refill = none := by
  have hstop : s.stops ≠ [] := by
    intro hnil
    exact h (by rw [rest, hnil]; rfl)
  have hsignal := (System.handling_eq_false_iff.mp (S.ended h).1).2
  have hplay := S.returned hstop
  rcases hr : s.system.refill with - | ⟨- | -, pc⟩
  · rfl
  · exact absurd (congrArg (Option.map Prod.fst) hr) hplay
  · exact absurd (congrArg (Option.map Prod.fst) hr) hsignal

/-- The stream is processed. -/
theorem played_playback (D : pw.Documented) (S : Sane s) {b : PlaybackAction} {system : System}
    (hrun : s.canRun pw (.playback b) = true) (hstep : System.Step s.system (.playback b) system) :
    Sane (s.played system) := by
  obtain ⟨hrefill, hsignalled, hcalls⟩ := System.playback_frame hstep
  have hhandling : system.handling = s.system.handling := by
    rw [System.handling, System.handling, hrefill, hsignalled]
  have hidle : .stream ∈ s.released → system.playback = .idle := by
    intro hmem
    have hplayback := S.idle hmem
    cases System.next_effect hstep with
    | dequeued maxsize h => exact absurd hmem (D.process s hrun)
    | dequeueFailed h => exact hplayback
    | _ => simp_all
  rw [played_of_calls hcalls]
  exact ⟨fun h => hrefill.trans (S.callback h), fun h => hrefill ▸ S.alone (hsignalled ▸ h),
    fun h => hrefill ▸ S.returned h, S.client, S.onFinished,
    fun h => hhandling ▸ S.ended h, S.held, hidle⟩

/-- The loop thread takes a step outside of a refill. -/
theorem played_signal (D : pw.Documented) (S : Sane s) {b : SignalAction} {system : System}
    (hrun : s.canRun pw (.signal b) = true) (hstep : System.Step s.system (.signal b) system) :
    Sane (s.played system) := by
  cases System.next_effect hstep with
  | woken hpos hhandling =>
      obtain ⟨hjoined, hcallback⟩ := D.signal s hrun
      have hrefill := (System.handling_eq_false_iff.mp hhandling).2
      rw [played_of_calls (by rfl)]
      refine ⟨S.callback, fun _ => ⟨hrefill, hcallback⟩, S.returned, S.client, S.onFinished,
        fun h => ?_, S.held, S.idle⟩
      have hended := (S.ended h).2
      rw [if_neg hcallback, hjoined] at hended
      exact absurd hended Bool.false_ne_true
  | locked hrefill hsignalled =>
      obtain ⟨hcallback, -⟩ := (D.lock s .onEventfdSignal).mp hrun
      have hhandling : s.system.handling ≠ false := fun h =>
        Bool.false_ne_true ((System.handling_eq_false_iff.mp h).1.symm.trans hsignalled)
      rw [played_of_calls (by rfl)]
      refine ⟨fun h => ?_, fun h => absurd h Bool.false_ne_true, fun _ => by simp, S.client,
        S.onFinished, fun h => absurd (S.ended h).1 hhandling, S.held, S.idle⟩
      rw [hcallback] at h
      exact absurd h Bool.false_ne_true

/-- A refill goes on. -/
theorem played_refill (S : Sane s) {b : RefillAction} {system : System}
    (hstep : System.Step s.system (.refill b) system) : Sane (s.played system) := by
  obtain ⟨c, hc, hrefill, hsignalled, hplayback⟩ := System.refill_frame hstep
  have hsome : s.system.refill ≠ none := by
    intro hnone
    rw [hnone] at hc
    exact Option.some_ne_none c hc.symm
  have hnone : s.callback = none := by
    by_contra hcallback
    exact hsome (S.callback (Option.isSome_iff_ne_none.mpr hcallback))
  have hrest : s.rest = stopLines := by
    by_contra h
    exact hsome (S.refill_eq_none h)
  have hclient : s.stopper ≠ some .onFinished := by
    intro h
    have hcallback := S.onFinished h
    rw [hnone] at hcallback
    exact Bool.false_ne_true hcallback
  -- The caller stays in the refill, or leaves it for the callback or for good.
  have hnew : (s.played system).callback = none ∨
      (s.played system).callback = some c ∧ system.refill = none := by
    rw [Session.played, hnone, hc]
    split
    · exact .inl rfl
    · rename_i hcalls
      exact .inr ⟨rfl, hrefill.resolve_right fun h => hcalls h.2⟩
  have hcaller : system.refill = none ∨ system.refill.map Prod.fst = some c :=
    hrefill.imp_right And.left
  have hother : ∀ c', c ≠ c' → system.refill.map Prod.fst ≠ some c' ∧
      (s.played system).callback ≠ some c' := by
    intro c' hne
    constructor
    · rcases hcaller with h | h <;> simp [h, hne]
    · rcases hnew with h | ⟨h, -⟩ <;> simp [h, hne]
  refine ⟨fun h => ?_, fun h => hother _ ?_, fun h => (hother _ ?_).1, fun h => (hother _ ?_).2,
    fun h => absurd h hclient, fun h => absurd hrest h, S.held,
    fun h => hplayback.trans (S.idle h)⟩
  · rcases hnew with hcallback | ⟨-, hempty⟩
    · rw [hcallback] at h
      exact absurd h Bool.false_ne_true
    · exact hempty
  · rintro rfl
    exact (S.alone (hsignalled ▸ h)).1 hc
  · rintro rfl
    exact S.returned h hc
  · rintro rfl
    refine S.returned (fun hnil => ?_) hc
    rw [stopper, show (s.played system).stops = [] from hnil] at h
    cases h

/-- The stream takes a step. -/
theorem played (D : pw.Documented) (S : Sane s) {b : Sound.Action} {system : System}
    (hrun : s.canRun pw b = true) (hstep : System.Step s.system b system) :
    Sane (s.played system) := by
  cases b with
  | playback b => exact S.played_playback D hrun hstep
  | signal b => exact S.played_signal D hrun hstep
  | refill b => exact S.played_refill hstep

/-- `on_finished` returns, not having stopped the stream. -/
theorem onFinishedReturns (S : Sane s) (hstop : s.stopper ≠ some .onFinished) :
    Sane { s with callback := none } := by
  refine ⟨fun h => absurd h Bool.false_ne_true, fun h => ⟨(S.alone h).1, (Option.some_ne_none _).symm⟩,
    S.returned, fun _ => (Option.some_ne_none _).symm, fun h => absurd h hstop, fun h => ?_, S.held,
    S.idle⟩
  obtain ⟨hhandling, hended⟩ := S.ended h
  refine ⟨hhandling, ?_⟩
  have hclient : s.callback ≠ some .onEventfdSignal := by
    intro hcallback
    rw [if_pos hcallback] at hended
    exact hstop hended
  rwa [if_neg hclient] at hended

/-- `ctm_sound_stop` is called. -/
theorem stop (S : Sane s) {who : Stopper} (hnil : s.stops = [])
    (hrefill : s.system.refill.map Prod.fst ≠ some .ctmSoundPlayAsync)
    (hclient : who = .client → s.callback ≠ some .ctmSoundPlayAsync)
    (hfinished : who = .onFinished → s.callback.isSome) :
    Sane { s with stops := [(who, stopLines)] } := by
  have hrest : s.rest = stopLines := by rw [rest, hnil]; rfl
  exact ⟨S.callback, S.alone, fun _ => hrefill, fun h => hclient (Option.some.inj h),
    fun h => hfinished (Option.some.inj h), fun h => absurd rfl h,
    fun h => hrest ▸ S.held h, S.idle⟩

/-- The lock is taken by the second line, and given back by the fourth. -/
theorem held_of_line : ∀ rest ∈ stopLines.tails, ∀ l ∈ rest.head?, ∀ held : Bool,
    (held = true → rest.length = 5 ∨ rest.length = 6) →
      ((held || decide (l = .threadLoopLock)) && l != .threadLoopUnlock) = true →
        rest.tail.length = 5 ∨ rest.tail.length = 6 := by
  decide

/-- A line returns. -/
theorem line (D : pw.Documented) (S : Sane s) (C : Counted s) {who : Stopper} {l : StopLine}
    {rest : List StopLine} (hstop : s.stops = [(who, l :: rest)])
    (hreturns : s.returns pw who l = true) : Sane (s.passed 0 who l rest) := by
  have hne : s.stops ≠ [] := by rw [hstop]; exact List.cons_ne_nil _ _
  obtain ⟨hrest, hwho⟩ := rest_of_stops hstop
  obtain ⟨hrest', hwho'⟩ := rest_of_stops (stops_passed hstop)
  have htails : l :: rest ∈ stopLines.tails := hrest ▸ C.rest_mem
  have hsame : (s.passed 0 who l rest).stopper = s.stopper := hwho'.trans hwho.symm
  have hended : s.system.handling = false ∧
      if s.callback = some .onEventfdSignal then s.stopper = some .onFinished
      else (s.passed 0 who l rest).joined = true := by
    by_cases hfirst : l = .threadLoopStop
    · subst hfirst
      by_cases hself : s.joinsItself who
      · have hsignalled : s.system.signalled = false := by
          by_contra hs
          exact (S.alone (Bool.eq_true_of_not_eq_false hs)).2 hself.2
        have hrefill := S.callback (Option.isSome_of_mem hself.2)
        refine ⟨System.handling_eq_false_iff.mpr ⟨hsignalled, ?_⟩, ?_⟩
        · rw [hrefill]
          exact (Option.some_ne_none _).symm
        · rw [if_pos hself.2, hwho, hself.1]
      · obtain ⟨hhandling, hcallback⟩ := (D.stop s who hself).mp hreturns
        refine ⟨hhandling, ?_⟩
        rw [if_neg hcallback]
        simp [passed, hself]
    · have hlate : s.rest ≠ stopLines := by
        rw [hrest]
        intro heq
        exact hfirst (List.cons.inj heq).1
      obtain ⟨hhandling, hended⟩ := S.ended hlate
      refine ⟨hhandling, ?_⟩
      split
      · rename_i hcallback
        rwa [if_pos hcallback] at hended
      · rename_i hcallback
        rw [if_neg hcallback] at hended
        simp [passed, hended]
  refine ⟨S.callback, S.alone, fun _ => S.returned hne, fun h => S.client (hsame.symm.trans h),
    fun h => S.onFinished (hsame.symm.trans h), fun _ => hsame ▸ hended, fun h => ?_, fun h => ?_⟩
  · rw [hrest']
    exact held_of_line _ htails l rfl s.held (hrest ▸ S.held) h
  · rcases List.mem_append.mp h with hmem | hmem
    · exact S.idle hmem
    · have hdestroy : l = .streamDestroy := by
        cases l <;> first | rfl | simp [StopLine.releases] at hmem
      subst hdestroy
      have hidle := (D.destroy s).mp hreturns
      rw [atRest] at hidle
      change s.system.playback = .idle
      split at hidle
      · assumption
      · cases hidle

end Sane

/-- The callback has stopped the stream, and is about to return. -/
def Gone (s : Session) : Prop := s.stops = [(.onFinished, [])]

theorem Gone.step (G : Gone s) (h : Transition.Guarded Once (Step pw) s a s') : Gone s' := by
  have hone : s.stops.length ≤ 1 := by
    rw [Gone] at G
    rw [G]
    exact le_rfl
  have hne : s.stops ≠ [] := by
    intro hnil
    exact List.cons_ne_nil _ _ (G.symm.trans hnil)
  obtain ⟨b, system, -, -, -, rfl⟩ | ⟨c, -, -, -, rfl⟩ | ⟨-, hnil, -, -, rfl⟩ |
    ⟨-, hnil, -, rfl⟩ | ⟨who, l, rest, -, hstop, -, rfl⟩ := once_cases hone h
  · exact G
  · exact G
  · exact absurd hnil hne
  · exact absurd hnil hne
  · have heq := (List.cons.inj (G.symm.trans hstop)).1
    exact absurd (Prod.mk.inj heq).2.symm (List.cons_ne_nil _ _)

/-- A step of a session whose callback has not stopped the stream. -/
theorem Sane.step (D : pw.Documented) (S : Sane s) (C : Counted s) (hgone : ¬ Gone s)
    (h : Transition.Guarded Once (Step pw) s a s') : Sane s' := by
  obtain ⟨b, system, -, hrun, hstep, rfl⟩ | ⟨c, -, hc, hlines, rfl⟩ |
    ⟨-, hnil, hcallback, hrefill, rfl⟩ | ⟨-, hnil, hcallback, rfl⟩ |
    ⟨who, l, rest, -, hstop, hreturns, rfl⟩ := once_cases C.one h
  · exact S.played D hrun hstep
  · refine S.onFinishedReturns fun hwho => ?_
    have hone := C.one
    rcases hstops : s.stops with - | ⟨⟨who, rest⟩, stops⟩
    · rw [stopper, hstops] at hwho
      cases hwho
    · rw [hstops, List.length_cons] at hone
      obtain rfl : stops = [] := List.length_eq_zero_iff.mp (by omega)
      obtain rfl : who = .onFinished := Option.some.inj ((rest_of_stops hstops).2.symm.trans hwho)
      cases rest with
      | nil => exact hgone hstops
      | cons l rest => exact hlines l rest hstops
  · exact S.stop hnil hrefill (fun _ => hcallback) Stopper.noConfusion
  · refine S.stop hnil ?_ Stopper.noConfusion fun _ => hcallback
    rw [S.callback hcallback]
    exact (Option.some_ne_none _).symm
  · exact S.line D C hstop hreturns

/-- A run of steps with one call at most. -/
theorem Reached.run {start : System} (hstart : Sound.Started channels file onFinished start)
    {as : List Action}
    (h : as.foldlM (Transition.restrict Once (next pw)) ⟨start, none, [], false, false, []⟩ =
      some s) : Reached pw channels file onFinished s := by
  have hinit : Started channels file onFinished ⟨start, none, [], false, false, []⟩ := ⟨hstart, rfl⟩
  exact Transition.Reachable.foldlM_restrict (fun _ _ _ hnext => hnext) (.init hinit) h

end Session
end Ctm.Sound
