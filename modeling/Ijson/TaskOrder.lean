/-
The order of the waiting tasks.

A task is inserted behind the last one that is not less urgent, and taken out
anywhere.  In every run the deques are therefore ordered by priority, and among
equal priorities by the moment of arrival.
-/

import Ijson.PriorityQueue
import Ijson.QueueEntries
import Ijson.Recording
import Ijson.GeneratedIds

namespace Ijson

open Program

/-! ### The tasks of a queue -/

/-- The tasks of loop `j` in slot `i`, none in a free slot. -/
def Registry.tasks (registry : Registry) (i j : Nat) : List Message :=
  match registry.queueAt i j with
  | none => []
  | some queue => queue.clients

def Server.tasks (s : Server) (i j : Nat) : List Message := s.registry.tasks i j

namespace Server

variable {s : Server}

theorem tasks_of_queue {i j : Nat} {queue : Queue} (queueEq : s.queue i j = some queue) :
    s.tasks i j = queue.clients := by
  rw [tasks, Registry.tasks, ← queue_eq, queueEq]

/-- Only the tasks of the deque that is written change. -/
theorem setQueue_tasks {i j : Nat} {old : Queue} (live : s.queue i j = some old) (new : Queue)
    (i' j' : Nat) : (s.setQueue i j new).registry.tasks i' j' =
      if i' = i ∧ j' = j then new.clients else s.tasks i' j' := by
  unfold tasks Registry.tasks
  rw [setQueue_queueAt live]
  by_cases same : i' = i ∧ j' = j
  · rw [if_pos same, if_pos same]
  · rw [if_neg same, if_neg same]

theorem setLine_tasks {i : Nat} {line other : QueueLine} (live : s.line i = some line)
    (same : other.queue = line.queue) (i' j' : Nat) :
    (s.setLine i other).registry.tasks i' j' = s.tasks i' j' := by
  unfold tasks Registry.tasks
  rw [setLine_same live same]

theorem eraseMessage_tasks (i j p i' j' : Nat) : (s.eraseMessage i j p).registry.tasks i' j' =
    if i' = i ∧ j' = j then (s.tasks i j).eraseIdx p else s.tasks i' j' := by
  unfold eraseMessage
  cases live : s.queue i j with
  | none =>
      have empty : s.tasks i j = [] := by
        rw [tasks, Registry.tasks, ← queue_eq, live]
      by_cases same : i' = i ∧ j' = j
      · rw [if_pos same, same.1, same.2, empty]
        exact empty
      · rw [if_neg same]
        rfl
  | some queue =>
      simp only
      rw [setQueue_tasks live, tasks_of_queue live]

theorem eraseWorker_tasks (i j p i' j' : Nat) :
    (s.eraseWorker i j p).registry.tasks i' j' = s.tasks i' j' := by
  unfold eraseWorker
  cases live : s.queue i j with
  | none => rfl
  | some queue =>
      simp only
      rw [setQueue_tasks live]
      by_cases same : i' = i ∧ j' = j
      · rw [if_pos same, same.1, same.2, tasks_of_queue live]
      · rw [if_neg same]

end Server

/-! ### What the actions do to the tasks -/

/-- The task that a moment puts into the deque of loop `j` in slot `i`. -/
def arrives (i j : Nat) (moment : Action × Server) : Option Message :=
  match moment.1 with
  | .enqueueSync c k _ =>
      if k = i ∧ (moment.2.conns c).nloop = j then some (moment.2.syncTask c) else none
  | .enqueueAsync c k name =>
      if k = i ∧ (moment.2.conns c).nloop = j then some (moment.2.asyncTask c name) else none
  | _ => none

theorem Fewer.tasks {before after : Registry} {i j : Nat}
    (fewer : Fewer (before.queueAt i j) (after.queueAt i j)) :
    (after.tasks i j).Sublist (before.tasks i j) := by
  unfold Registry.tasks
  cases found : after.queueAt i j with
  | none => exact List.nil_sublist _
  | some queue =>
      rcases fewer queue found with empty | ⟨old, oldEq, _, clients⟩
      · rw [empty]
        exact List.nil_sublist _
      · rw [oldEq]
        exact clients

end Ijson
