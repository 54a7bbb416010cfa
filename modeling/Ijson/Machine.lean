/-
Runs of the server.

Operations are executed one at a time, by whichever loop the connection belongs
to.  An exception that leaves a loop ends that loop.  A fault is undefined
behaviour or a lock that is never obtained; a run does not go on after one.
-/

import Ijson.Receive

namespace Ijson

/-- What happens next: a connection is accepted, bytes arrive on one, one can
be written to, one is gone, or one of the periodic passes is due. -/
inductive Input where
  | accept (loop : Nat) (garbage : Garbage)
  | recv (c : ConnId) (chunk : Bytes) (env : Env)
  | send (c : ConnId) (sent : Option Nat)
  | hangup (c : ConnId)
  | checkTimeout (now : Nat)
  | cleanDeadTasks
  | deleteConnections (loop : Nat)

/-- `BUF_SIZE`. -/
def bufSize : Nat := 16384

namespace Input

/-- What `::send` is given to write. -/
def offered (s : Server) (c : ConnId) : Bytes :=
  match (s.conns c).sendBuffer, (s.conns c).directMessage with
  | [], d :: _ => (s.direct d).data
  | bytes, _ => bytes

def open? (s : Server) (c : ConnId) : Prop :=
  c < s.accepted ∧ (s.conns c).connected = true ∧ (s.conns c).closed = false ∧
    (s.conns c).nloop ∉ s.stopped

instance (s : Server) (c : ConnId) : Decidable (open? s c) :=
  inferInstanceAs (Decidable (_ ∧ _ ∧ _ ∧ _))

def Enabled (s : Server) : Input → Prop
  | .accept loop _ => loop < s.threads
  | .recv c chunk _ => open? s c ∧ chunk ≠ [] ∧ chunk.length ≤ bufSize
  | .send c sent =>
      open? s c ∧ (s.conns c).writing = true ∧ ∀ n, sent = some n → n ≤ (offered s c).length
  | .hangup c => open? s c
  | .checkTimeout _ => 0 ∉ s.stopped
  | .cleanDeadTasks => True
  | .deleteConnections loop => loop < s.threads ∧ loop ∉ s.stopped

open Program Routine

/-- Code of a loop: an exception that leaves it ends the loop. -/
def inLoop (loop : Nat) (routine : Routine Unit) : Routine Unit :=
  catching (do
    perform (.count fun stats => { stats with ioevent := stats.ioevent + 1 })
    routine) fun error => perform (.died loop error)

def routine (s : Server) : Input → Routine Unit
  | .accept loop garbage => perform (.accept loop garbage)
  | .recv c chunk env =>
      inLoop (s.conns c).nloop do
        perform (.receive (s.conns c).nloop chunk)
        guarded (onRecv env c chunk) c
  | .send c sent => inLoop (s.conns c).nloop (guarded (perform (.flush c sent)) c)
  | .hangup c => inLoop (s.conns c).nloop (close c)
  | .checkTimeout now => inLoop 0 (Routine.checkTimeout now)
  | .cleanDeadTasks => Routine.cleanDeadTasks
  | .deleteConnections loop => inLoop loop (perform (.reap loop))

instance (s : Server) (input : Input) : Decidable (input.Enabled s) := by
  cases input with
  | send c sent =>
      cases sent with
      | none => exact decidable_of_iff (open? s c ∧ (s.conns c).writing = true) (by simp [Enabled])
      | some n =>
          exact decidable_of_iff
            (open? s c ∧ (s.conns c).writing = true ∧ n ≤ (offered s c).length) (by simp [Enabled])
  | accept loop garbage => exact inferInstanceAs (Decidable (_ < _))
  | recv c chunk env => exact inferInstanceAs (Decidable (_ ∧ _ ∧ _))
  | hangup c => exact inferInstanceAs (Decidable (open? s c))
  | checkTimeout now => exact inferInstanceAs (Decidable (_ ∉ _))
  | cleanDeadTasks => exact inferInstanceAs (Decidable True)
  | deleteConnections loop => exact inferInstanceAs (Decidable (_ ∧ _))

/-- The moments and the outcome of an operation. -/
def run (input : Input) (s : Server) : List (Action × Server) × Outcome Server Exc Unit :=
  (input.routine s).run Action.apply s

end Input

/-- The states between operations, in runs whose actions all meet `assumed`. -/
inductive Reachable (assumed : Action → Server → Prop) : Server → Prop where
  | new (threads : Nat) (jsonrpc2 : Bool) (version : Bytes) (startTime : Nat) :
      Reachable assumed (Server.new threads jsonrpc2 version startTime)
  | step {s after : Server} (input : Input) :
      Reachable assumed s → input.Enabled s →
      (∀ moment ∈ (input.run s).1, assumed moment.1 moment.2) →
      (input.run s).2 = .returned after () → Reachable assumed after

/-- The states a run meets, also in the middle of an operation, as long as all
actions before met `assumed`. -/
inductive Met (assumed : Action → Server → Prop) : Server → Prop where
  | between {s : Server} : Reachable assumed s → Met assumed s
  | during {s : Server} (input : Input) (before after : List (Action × Server))
      (moment : Action × Server) :
      Reachable assumed s → input.Enabled s →
      (input.run s).1 = before ++ moment :: after →
      (∀ earlier ∈ before, assumed earlier.1 earlier.2) → Met assumed moment.2

/-- Runs without an assumption. -/
abbrev anything (_ : Action) (_ : Server) : Prop := True

/-- The state after operations one after another; `none` when one of them is
not enabled or does not return. -/
def afterAll : List Input → Server → Option Server
  | [], s => some s
  | input :: rest, s =>
      if input.Enabled s then
        match (input.run s).2 with
        | .returned after _ => afterAll rest after
        | _ => none
      else none

theorem reachable_afterAll {inputs : List Input} {s after : Server} (reachable : Reachable anything s)
    (afterEq : afterAll inputs s = some after) : Reachable anything after := by
  induction inputs generalizing s with
  | nil =>
      cases afterEq
      exact reachable
  | cons input rest ih =>
      rw [afterAll] at afterEq
      split at afterEq
      · rename_i enabled
        split at afterEq
        · rename_i middle _ returned
          exact ih (.step input reachable enabled (fun _ _ => trivial) returned) afterEq
        · cases afterEq
      · cases afterEq

/-- The same for operations whose actions all meet `assumed`. -/
def afterMeeting (assumed : Action → Server → Prop) [∀ action s, Decidable (assumed action s)] :
    List Input → Server → Option Server
  | [], s => some s
  | input :: rest, s =>
      if input.Enabled s ∧ ∀ moment ∈ (input.run s).1, assumed moment.1 moment.2 then
        match (input.run s).2 with
        | .returned after _ => afterMeeting assumed rest after
        | _ => none
      else none

theorem reachable_afterMeeting {assumed : Action → Server → Prop}
    [∀ action s, Decidable (assumed action s)] {inputs : List Input} {s after : Server}
    (reachable : Reachable assumed s) (afterEq : afterMeeting assumed inputs s = some after) :
    Reachable assumed after := by
  induction inputs generalizing s with
  | nil =>
      cases afterEq
      exact reachable
  | cons input rest ih =>
      rw [afterMeeting] at afterEq
      split at afterEq
      · rename_i meets
        split at afterEq
        · rename_i middle _ returned
          exact ih (.step input reachable meets.1 meets.2 returned) afterEq
        · cases afterEq
      · cases afterEq

end Ijson
