/-
A stream that is fed from two sources.

Messages of the one kind go to the end of a buffer.  Those of the other kind wait
in a queue; one of them is written only when the buffer is empty, and what the
write leaves of it goes to the buffer.
-/

import Mathlib.Data.List.Induction

namespace Ijson

/-- What is still to be written. -/
structure Outlet (α : Type) where
  buffer : List α
  queue : List (List α)

inductive Source where
  | buffer
  | queue
  deriving DecidableEq

namespace Outlet

variable {α : Type}

def empty : Outlet α := ⟨[], []⟩

/-- A write takes any number of the elements it is offered. -/
inductive Move (α : Type) where
  | put (message : List α)
  | enqueue (message : List α)
  | write (taken : Nat)

/-- What a write is offered. -/
def offered (outlet : Outlet α) : List α :=
  match outlet.buffer, outlet.queue with
  | [], message :: _ => message
  | buffer, _ => buffer

def step (outlet : Outlet α) : Move α → Outlet α
  | .put message => { outlet with buffer := outlet.buffer ++ message }
  | .enqueue message => { outlet with queue := outlet.queue ++ [message] }
  | .write taken =>
      match outlet.buffer, outlet.queue with
      | [], message :: rest => ⟨message.drop taken, rest⟩
      | buffer, queue => ⟨buffer.drop taken, queue⟩

def written (outlet : Outlet α) : Move α → List α
  | .write taken => outlet.offered.take taken
  | _ => []

/-- What has been written in the end, and what is left. -/
def run : Outlet α → List (Move α) → List α × Outlet α
  | outlet, [] => ([], outlet)
  | outlet, move :: moves =>
      let later := (outlet.step move).run moves
      (outlet.written move ++ later.1, later.2)

/-- The messages put into the buffer. -/
def puts (moves : List (Move α)) : List (List α) :=
  moves.filterMap fun
    | .put message => some message
    | _ => none

/-- The messages put into the queue. -/
def enqueued (moves : List (Move α)) : List (List α) :=
  moves.filterMap fun
    | .enqueue message => some message
    | _ => none

/-- The messages of one source, in their order. -/
def fromSource (source : Source) (order : List (Source × List α)) : List (List α) :=
  (order.filter fun message => message.1 = source).map Prod.snd

/-- The messages one after another. -/
def whole (order : List (Source × List α)) : List α := (order.map Prod.snd).flatten

section Sources

variable (order : List (Source × List α)) (message : List α)

theorem whole_append (later : List (Source × List α)) : whole (order ++ later) = whole order ++ whole later := by
  rw [whole, List.map_append, List.flatten_append]
  rfl

theorem fromSource_append (source : Source) (later : List (Source × List α)) :
    fromSource source (order ++ later) = fromSource source order ++ fromSource source later := by
  rw [fromSource, List.filter_append, List.map_append]
  rfl

end Sources

theorem run_append (outlet : Outlet α) (moves later : List (Move α)) :
    outlet.run (moves ++ later) =
      ((outlet.run moves).1 ++ ((outlet.run moves).2.run later).1, ((outlet.run moves).2.run later).2) := by
  induction moves generalizing outlet with
  | nil => rfl
  | cons move moves ih =>
      rw [List.cons_append, run, run, ih]
      simp only [List.append_assoc]

/-- The messages in the order in which they are written: `sent` of them has been,
the rest is what is left in the buffer and the messages of the queue. -/
structure Serves (moves : List (Move α)) (order : List (Source × List α)) (sent : List α)
    (outlet : Outlet α) : Prop where
  responses : fromSource .buffer order = puts moves
  directs : fromSource .queue order ++ outlet.queue = enqueued moves
  stream : sent ++ outlet.buffer = whole order

theorem Serves.put {moves : List (Move α)} {order : List (Source × List α)} {sent : List α}
    {outlet : Outlet α} (serves : Serves moves order sent outlet) (message : List α) :
    Serves (moves ++ [.put message]) (order ++ [(.buffer, message)]) sent (outlet.step (.put message)) := by
  constructor
  · rw [fromSource_append, serves.responses, puts, puts, List.filterMap_append]
    rfl
  · rw [fromSource_append, enqueued, List.filterMap_append]
    change fromSource .queue order ++ [] ++ outlet.queue = enqueued moves ++ []
    rw [List.append_nil, List.append_nil, serves.directs]
  · rw [whole_append, ← serves.stream, List.append_assoc]
    change sent ++ (outlet.buffer ++ message) = sent ++ (outlet.buffer ++ (message ++ []))
    rw [List.append_nil]

theorem Serves.enqueue {moves : List (Move α)} {order : List (Source × List α)} {sent : List α}
    {outlet : Outlet α} (serves : Serves moves order sent outlet) (message : List α) :
    Serves (moves ++ [.enqueue message]) order sent (outlet.step (.enqueue message)) := by
  constructor
  · rw [serves.responses, puts, puts, List.filterMap_append]
    exact (List.append_nil _).symm
  · rw [enqueued, List.filterMap_append]
    change fromSource .queue order ++ (outlet.queue ++ [message]) = enqueued moves ++ [message]
    rw [← List.append_assoc, serves.directs]
  · exact serves.stream

/-- The buffer is written first.  A message of the queue is written when all
before it is, so that its rest comes next. -/
theorem Serves.write {moves : List (Move α)} {order : List (Source × List α)} {sent : List α}
    {outlet : Outlet α} (serves : Serves moves order sent outlet) (taken : Nat) :
    ∃ after, Serves (moves ++ [.write taken]) after (sent ++ outlet.written (.write taken))
      (outlet.step (.write taken)) := by
  have responses : puts (moves ++ [.write taken]) = puts moves := by
    rw [puts, List.filterMap_append]
    exact List.append_nil _
  have directs : enqueued (moves ++ [.write taken]) = enqueued moves := by
    rw [enqueued, List.filterMap_append]
    exact List.append_nil _
  obtain ⟨buffer, queue⟩ := outlet
  cases buffer with
  | nil =>
      cases queue with
      | nil =>
          refine ⟨order, ?_, ?_, ?_⟩
          · rw [responses, serves.responses]
          · rw [directs, ← serves.directs]
            rfl
          · rw [← serves.stream]
            simp [written, offered, step]
      | cons message rest =>
          refine ⟨order ++ [(.queue, message)], ?_, ?_, ?_⟩
          · rw [responses, fromSource_append, serves.responses]
            exact List.append_nil _
          · rw [directs, ← serves.directs, fromSource_append, List.append_assoc]
            rfl
          · rw [whole_append, ← serves.stream, List.append_nil, List.append_assoc]
            change sent ++ (message.take taken ++ message.drop taken) = sent ++ (message ++ [])
            rw [List.take_append_drop, List.append_nil]
  | cons first buffer =>
      refine ⟨order, ?_, ?_, ?_⟩
      · rw [responses, serves.responses]
      · rw [directs, ← serves.directs]
        rfl
      · rw [← serves.stream, List.append_assoc]
        change sent ++ ((first :: buffer).take taken ++ (first :: buffer).drop taken) = _
        rw [List.take_append_drop]

/-- Every run writes whole messages one after another. -/
theorem run_serves (moves : List (Move α)) :
    ∃ order, Serves moves order (empty.run moves).1 (empty.run moves).2 := by
  induction moves using List.reverseRecOn with
  | nil => exact ⟨[], rfl, rfl, rfl⟩
  | append_singleton moves move ih =>
      obtain ⟨order, serves⟩ := ih
      rw [run_append]
      simp only [run, List.append_nil]
      cases move with
      | put message =>
          refine ⟨order ++ [(.buffer, message)], ?_⟩
          have more := serves.put message
          rwa [← List.append_nil (empty.run moves).1] at more
      | enqueue message =>
          refine ⟨order, ?_⟩
          have more := serves.enqueue message
          rwa [← List.append_nil (empty.run moves).1] at more
      | write taken => exact serves.write taken

end Outlet

end Ijson
