/-
What epoll watches for a loop, in every run.

A loop watches its open connections for what they want, behind each
`_perform_to_send`; the one exception are the wishes that come from the code of other
loops while it goes through its queue, and are cleared with it.
-/

import Ijson.PollingSteps

namespace Ijson

namespace Polling

variable {p q : Polling} {c : ConnId}

/-! ### Whose wish is missed -/

/-- A step that returns notes nobody. -/
def Keeps (p : Polling) (ended : Ended) : Prop := ∀ q, ended = .returned q () → q.missed = p.missed

theorem keeps_thrown (error : Exc) : p.Keeps (.thrown q error) := fun _ returned => by cases returned

theorem keeps_fault : p.Keeps .fault := fun _ returned => by cases returned

theorem Keeps.bind {ended : Ended} {next : Polling → Unit → Ended} (first : p.Keeps ended)
    (later : ∀ q, q.missed = p.missed → p.Keeps (next q ())) : p.Keeps (ended.bind next) := by
  cases ended with
  | returned q value => exact later q (first q rfl)
  | thrown q error => exact keeps_thrown error
  | fault => exact keeps_fault

/-- What a loop waits for of a connection: that it can be read, and that it can be
written to when that is wanted and the wish was not missed. -/
def heard (p : Polling) (c : ConnId) : Interest :=
  { Interest.of (p.sockets c).status with
    writing := (Interest.of (p.sockets c).status).writing && decide (c ∉ p.missed) }

end Polling

end Ijson
