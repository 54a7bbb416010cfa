/-
Every queue has the two deques of each loop.
-/

import Ijson.WorkerHomes

namespace Ijson

open Program

/-- The queues have as many pairs of deques as there are loops. -/
def Registry.Shaped (threads : Nat) (registry : Registry) : Prop :=
  ∀ (i : Nat) (line : QueueLine), registry.queueList[i]?.join = some line → line.queue.length = threads

namespace Server

variable {s : Server} {threads : Nat}

theorem setLine_shaped {i : Nat} {line other : QueueLine} (shaped : s.registry.Shaped threads)
    (live : s.line i = some line) (same : other.queue.length = line.queue.length) :
    (s.setLine i other).registry.Shaped threads := by
  intro k found isFound
  simp only [setLine, List.getElem?_set] at isFound
  by_cases here : i = k
  · rw [if_pos here] at isFound
    split at isFound
    · cases isFound
      rw [same]
      exact shaped i line live
    · cases isFound
  · rw [if_neg here] at isFound
    exact shaped k found isFound

theorem setQueue_shaped (shaped : s.registry.Shaped threads) (i j : Nat) (queue : Queue) :
    (s.setQueue i j queue).registry.Shaped threads := by
  unfold setQueue
  cases live : s.line i with
  | none => exact shaped
  | some line => exact setLine_shaped shaped live List.length_set

theorem eraseMessage_shaped (shaped : s.registry.Shaped threads) (i j p : Nat) :
    (s.eraseMessage i j p).registry.Shaped threads := by
  unfold eraseMessage
  cases s.queue i j with
  | none => exact shaped
  | some queue => exact setQueue_shaped shaped i j _

theorem eraseWorker_shaped (shaped : s.registry.Shaped threads) (i j p : Nat) :
    (s.eraseWorker i j p).registry.Shaped threads := by
  unfold eraseWorker
  cases s.queue i j with
  | none => exact shaped
  | some queue => exact setQueue_shaped shaped i j _

end Server

theorem Registry.Placed.shaped {threads : Nat} {key : Bytes} {before after : Registry}
    (placed : Registry.Placed (QueueLine.new threads key) before.queueList after.queueList)
    (shaped : before.Shaped threads) : after.Shaped threads := by
  intro i line found
  rcases placed i with kept | ⟨_, fresh⟩
  · rw [kept] at found
    exact shaped i line found
  · rw [fresh] at found
    cases found
    exact List.length_replicate

theorem Registry.removeQueue_shaped {threads : Nat} {registry after : Registry} {key : Bytes}
    {line : Option QueueLine} (removed : registry.removeQueue key = some (after, line))
    (shaped : registry.Shaped threads) : after.Shaped threads := by
  unfold removeQueue at removed
  cases deleted : registry.mapper.del key with
  | none =>
      rw [deleted] at removed
      cases removed
  | some result =>
      obtain ⟨mapper, n⟩ := result
      rw [deleted] at removed
      simp only at removed
      split at removed
      · cases removed
        exact shaped
      · split at removed
        · cases removed
          intro i other found
          simp only [List.getElem?_set] at found
          split at found
          · split at found <;> cases found
          · exact shaped i other found
        · cases removed

theorem writes_shaped {action : Action} {s : Server} {registry : Registry} (shaped : s.registry.Shaped s.threads)
    (writes : registry ∈ action.writes s) : registry.Shaped s.threads := by
  have lines : ∀ {i : Nat} (change : QueueLine → QueueLine), (∀ line, (change line).queue = line.queue) →
      (∃ line, s.line i = some line ∧ registry = (s.setLine i (change line)).registry) →
      registry.Shaped s.threads := by
    rintro i change same ⟨line, live, rfl⟩
    exact Server.setLine_shaped shaped live (by rw [same])
  have queues : ∀ {i j : Nat} (change : Queue → Queue),
      (∃ queue, s.queue i j = some queue ∧ registry = (s.setQueue i j (change queue)).registry) →
      registry.Shaped s.threads := by
    rintro i j change ⟨queue, live, rfl⟩
    exact Server.setQueue_shaped shaped i j _
  have messages : ∀ {i j p : Nat}, registry ∈ [(s.eraseMessage i j p).registry] → registry.Shaped s.threads := by
    intro i j p member
    rw [List.mem_singleton.mp member]
    exact Server.eraseMessage_shaped shaped i j p
  have workers : ∀ {i j p : Nat}, registry ∈ [(s.eraseWorker i j p).registry] → registry.Shaped s.threads := by
    intro i j p member
    rw [List.mem_singleton.mp member]
    exact Server.eraseWorker_shaped shaped i j p
  have undone : ∀ {i j p : Nat}, (registry = (s.eraseWorker i j p).registry ∨ ∃ w queue,
      s.workerAt i j p = some w ∧ (s.eraseWorker i j p).queue i (s.conns w).nloop = some queue ∧
      registry = ((s.eraseWorker i j p).setQueue i (s.conns w).nloop
        { queue with workers := w :: queue.workers }).registry) → registry.Shaped s.threads := by
    rintro i j p (rfl | ⟨w, queue, found, live, rfl⟩)
    · exact Server.eraseWorker_shaped shaped i j p
    · exact Server.setQueue_shaped (Server.eraseWorker_shaped shaped i j p) _ _ _
  have created : ∀ {key}, ((∃ slot, s.registry.getQueue s.threads key true = .returned registry slot) ∨
      ∃ error, s.registry.getQueue s.threads key true = .thrown registry error) → registry.Shaped s.threads := by
    intro key result
    have placed := s.registry.getQueue_placed s.threads key true
    rcases result with ⟨slot, returned⟩ | ⟨error, thrown⟩
    · rw [returned] at placed
      exact Registry.Placed.shaped placed shaped
    · rw [thrown] at placed
      exact Registry.Placed.shaped placed shaped
  cases action with
  | resolve c key => exact created (mem_lookedUp writes)
  | create key => exact created (mem_lookedUp writes)
  | describe i info =>
      exact lines (fun line => { line with
        info := if (Json.unescape info).2.isNone then (Json.unescape info).1 else [] }) (fun _ => rfl)
        (mem_changedLine writes)
  | visit i now => exact lines (fun line => { line with lastWorker := now }) (fun _ => rfl) (mem_changedLine writes)
  | lock i on => exact lines (fun line => { line with locked := on }) (fun _ => rfl) (mem_changedLine writes)
  | leaveList c =>
      simp only [Action.writes] at writes
      cases item : (s.conns c).workerItem with
      | none =>
          rw [item] at writes
          cases writes
      | some i =>
          rw [item] at writes
          exact lines (fun line => { line with workers := line.workers.erase c }) (fun _ => rfl)
            (mem_changedLine writes)
  | subscribe c i name =>
      exact lines (fun line => { line with workers := c :: line.workers }) (fun _ => rfl) (mem_changedLine writes)
  | dropMessage | refuseNoId | refuseCollision | giveAsync | giveNoid | giveId | discard =>
      exact messages writes
  | register c i =>
      exact queues (fun queue => { queue with workers := queue.workers ++ [c] }) (mem_changedQueue writes)
  | dropEntry | handAsync | handNoid | handId => exact workers writes
  | undoNoId | undoCollision => exact undone (mem_rolledBack writes)
  | enqueueSync c i name =>
      exact queues (fun queue =>
        { queue with clients := insertMessage (s.syncTask c) queue.clients }) (mem_changedQueue writes)
  | enqueueAsync c i name =>
      exact queues (fun queue =>
        { queue with clients := insertMessage (s.asyncTask c name) queue.clients }) (mem_changedQueue writes)
  | unhook key =>
      simp only [Action.writes] at writes
      cases removed : s.registry.removeQueue key with
      | none =>
          rw [removed] at writes
          cases writes
      | some result =>
          obtain ⟨after, line⟩ := result
          rw [removed] at writes
          rw [List.mem_singleton.mp writes]
          exact Registry.removeQueue_shaped removed shaped
  | _ =>
      rw [List.mem_singleton.mp writes]
      exact shaped

/-- In every run, at every moment, a live queue has a pair of deques for each loop. -/
theorem shaped_met {assumed : Action → Server → Prop} {s : Server} (met : Met assumed s) :
    s.registry.Shaped s.threads := by
  have preserved : ∀ (input : Input) (action : Action) (t : Server), input.Places action t →
      anything action t → t.registry.Shaped t.threads →
      (action.apply t).Ends (fun _ u => u.registry.Shaped u.threads) fun _ u => u.registry.Shaped u.threads := by
    intro input action t _ _ shaped
    have wrote := Server.apply_writes t action
    by_cases accepts : ∃ loop garbage, action = .accept loop garbage
    · obtain ⟨loop, garbage, rfl⟩ := accepts
      exact shaped
    · have grounds := Grounded.apply_grounds t fun loop garbage same => accepts ⟨loop, garbage, same⟩
      refine Ends.mono (Ends.both wrote grounds) (fun _ u after => ?_) fun _ u after => ?_
      · rw [after.2.threads]
        exact writes_shaped shaped after.1
      · rw [after.2.threads]
        exact writes_shaped shaped after.1
  have between : ∀ {t : Server}, Reachable assumed t → t.registry.Shaped t.threads := by
    intro t reachable
    induction reachable with
    | new threads jsonrpc2 version startTime =>
        intro i line found
        simp [Server.new, Registry.new] at found
    | step input before enabled _ returned ih =>
        have ends := run_invariant (preserved input) (Input.routine_places input _) ih fun _ _ => trivial
        rw [show ((input.routine _).run Action.apply _).2 = _ from returned] at ends
        exact ends.2
  cases met with
  | between reachable => exact between reachable
  | during input before after moment reachable enabled split _ =>
      exact (moment_invariant (preserved input) (Input.routine_places input _) (between reachable) split
        fun _ _ => trivial).1

namespace Routine

theorem deque_met {assumed : Action → Server → Prop} {s : Server} (met : Met assumed s) {i : Nat}
    {line : QueueLine} (live : s.line i = some line) {j : Nat} (below : j < s.threads) :
    (s.queue i j).isSome = true := by
  have inside : j < line.queue.length := by
    rw [shaped_met met i line live]
    exact below
  rw [Server.queue, live, Option.bind_some, List.getElem?_eq_getElem inside]
  rfl

/-- A dispatch of an accepted connection finds all the deques of a live queue. -/
theorem deques_met {assumed : Action → Server → Prop} {s : Server} (met : Met assumed s) {i : Nat}
    {line : QueueLine} (live : s.line i = some line) {c : ConnId} (known : c < s.accepted) {j : Nat}
    (member : j ∈ loopOrder (s.conns c).nloop s.threads) : j < s.threads ∧ (s.queue i j).isSome = true := by
  have below : j < s.threads := by
    rcases List.mem_cons.mp member with own | other
    · rw [own]
      exact (homed_met met).loops c known
    · exact List.mem_range.mp (List.mem_of_mem_filter other)
  exact ⟨below, deque_met met live below⟩

end Routine

end Ijson
