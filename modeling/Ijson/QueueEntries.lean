/-
The deques of the queues.

Most actions at most take entries out of the deques.  A deque gains one when a
worker is registered or a claim rolled back, and when a task is queued.
-/

import Ijson.RegistryInvariant
import Ijson.RegistryWrites

namespace Ijson

open Program

/-! ### The deques of a registry -/

/-- The deques of loop `j` in slot `i`. -/
def Registry.queueAt (registry : Registry) (i j : Nat) : Option Queue :=
  registry.queueList[i]?.join.bind fun line => line.queue[j]?

namespace Server

variable {s : Server}

theorem queue_eq (i j : Nat) : s.queue i j = s.registry.queueAt i j := rfl

theorem setLine_queueAt {i : Nat} {line : QueueLine} (live : s.line i = some line)
    (other : QueueLine) (i' j' : Nat) : (s.setLine i other).registry.queueAt i' j' =
      if i' = i then other.queue[j']? else s.registry.queueAt i' j' := by
  have inside : i < s.registry.queueList.length := by
    by_contra outside
    rw [Server.line, List.getElem?_eq_none (by omega)] at live
    cases live
  unfold Registry.queueAt setLine
  by_cases same : i' = i
  · subst same
    rw [if_pos rfl, List.getElem?_set_self inside]
    rfl
  · rw [if_neg same, List.getElem?_set_ne (Ne.symm same)]

/-- A line may be replaced by one with the same deques. -/
theorem setLine_same {i : Nat} {line other : QueueLine} (live : s.line i = some line)
    (same : other.queue = line.queue) (i' j' : Nat) :
    (s.setLine i other).registry.queueAt i' j' = s.registry.queueAt i' j' := by
  rw [setLine_queueAt live]
  by_cases equal : i' = i
  · subst equal
    rw [if_pos rfl, same, ← queue_eq, queue, live]
    rfl
  · rw [if_neg equal]

theorem setQueue_queueAt {i j : Nat} {old : Queue} (live : s.queue i j = some old) (new : Queue)
    (i' j' : Nat) : (s.setQueue i j new).registry.queueAt i' j' =
      if i' = i ∧ j' = j then some new else s.registry.queueAt i' j' := by
  unfold queue at live
  unfold setQueue
  cases lineEq : s.line i with
  | none =>
      rw [lineEq] at live
      cases live
  | some line =>
      rw [lineEq] at live
      have inside : j < line.queue.length := (List.getElem?_eq_some_iff.mp live).1
      simp only
      rw [setLine_queueAt lineEq]
      by_cases slot : i' = i
      · subst slot
        have here : s.registry.queueAt i' j' = line.queue[j']? := by
          rw [← queue_eq, queue, lineEq]
          rfl
        rw [if_pos rfl, here]
        by_cases loop : j' = j
        · subst loop
          rw [if_pos ⟨rfl, rfl⟩, List.getElem?_set_self inside]
        · rw [if_neg fun both => loop both.2, List.getElem?_set_ne (Ne.symm loop)]
      · rw [if_neg slot, if_neg fun both => slot both.1]

end Server

/-! ### Entries that leave -/

/-- The actions that put an entry into a deque. -/
def Action.fills : Action → Bool
  | .register _ _ | .undoNoId _ _ _ _ | .undoCollision _ _ _ _ _ | .enqueueSync _ _ _
  | .enqueueAsync _ _ _ => true
  | _ => false

/-- A deque is new and empty, or has lost entries at most. -/
def Fewer (old new : Option Queue) : Prop :=
  ∀ queue, new = some queue → queue = { workers := [], clients := [] } ∨
    ∃ before, old = some before ∧ queue.workers.Sublist before.workers ∧
      queue.clients.Sublist before.clients

theorem Fewer.refl (old : Option Queue) : Fewer old old :=
  fun queue found => Or.inr ⟨queue, found, List.Sublist.refl _, List.Sublist.refl _⟩

theorem fewer_none (old : Option Queue) : Fewer old none := by
  intro queue found
  cases found

theorem Registry.Placed.fewer {threads : Nat} {key : Bytes} {before after : Registry}
    (placed : Registry.Placed (QueueLine.new threads key) before.queueList after.queueList) (i j : Nat) :
    Fewer (before.queueAt i j) (after.queueAt i j) := by
  unfold Registry.queueAt
  rcases placed i with kept | ⟨_, fresh⟩
  · rw [kept]
    exact Fewer.refl _
  · rw [fresh]
    intro queue found
    rw [Option.bind_some, QueueLine.new, List.getElem?_replicate] at found
    split at found
    · cases found
      exact Or.inl rfl
    · cases found

theorem Registry.removeQueue_fewer {registry after : Registry} {key : Bytes} {line : Option QueueLine}
    (removed : registry.removeQueue key = some (after, line)) (i j : Nat) :
    Fewer (registry.queueAt i j) (after.queueAt i j) := by
  unfold removeQueue at removed
  cases deleted : registry.mapper.del key with
  | none =>
      rw [deleted] at removed
      cases removed
  | some result =>
      obtain ⟨mapper, n⟩ := result
      rw [deleted] at removed
      simp only at removed
      split at removed
      · cases removed
        exact Fewer.refl _
      · split at removed
        · cases removed
          unfold Registry.queueAt
          by_cases same : n - 1 = i
          · rw [same, List.getElem?_set_self']
            cases registry.queueList[i]? with
            | none => exact fewer_none _
            | some slot => exact fewer_none _
          · rw [List.getElem?_set_ne same]
            exact Fewer.refl _
        · cases removed

section Erased

variable {s : Server} (i j p i' j' : Nat)

theorem eraseMessage_fewer :
    Fewer (s.registry.queueAt i' j') ((s.eraseMessage i j p).registry.queueAt i' j') := by
  unfold Server.eraseMessage
  cases live : s.queue i j with
  | none => exact Fewer.refl _
  | some queue =>
      simp only
      rw [Server.setQueue_queueAt live]
      by_cases same : i' = i ∧ j' = j
      · rw [if_pos same, same.1, same.2, ← Server.queue_eq, live]
        intro new found
        cases found
        exact Or.inr ⟨queue, rfl, List.Sublist.refl _, List.eraseIdx_sublist _ _⟩
      · rw [if_neg same]
        exact Fewer.refl _

theorem eraseWorker_fewer :
    Fewer (s.registry.queueAt i' j') ((s.eraseWorker i j p).registry.queueAt i' j') := by
  unfold Server.eraseWorker
  cases live : s.queue i j with
  | none => exact Fewer.refl _
  | some queue =>
      simp only
      rw [Server.setQueue_queueAt live]
      by_cases same : i' = i ∧ j' = j
      · rw [if_pos same, same.1, same.2, ← Server.queue_eq, live]
        intro new found
        cases found
        exact Or.inr ⟨queue, rfl, List.eraseIdx_sublist _ _, List.Sublist.refl _⟩
      · rw [if_neg same]
        exact Fewer.refl _

end Erased

/-- Every other action at most takes entries out. -/
theorem writes_fewer {action : Action} {s : Server} {registry : Registry}
    (writes : registry ∈ action.writes s) (plain : action.fills = false) (i j : Nat) :
    Fewer (s.registry.queueAt i j) (registry.queueAt i j) := by
  have erased : ∀ {k l p}, registry ∈ [(s.eraseMessage k l p).registry] →
      Fewer (s.registry.queueAt i j) (registry.queueAt i j) := by
    intro k l p member
    rw [List.mem_singleton.mp member]
    exact eraseMessage_fewer k l p i j
  have worker : ∀ {k l p}, registry ∈ [(s.eraseWorker k l p).registry] →
      Fewer (s.registry.queueAt i j) (registry.queueAt i j) := by
    intro k l p member
    rw [List.mem_singleton.mp member]
    exact eraseWorker_fewer k l p i j
  have line : ∀ (k : Nat) (change : QueueLine → QueueLine), (∀ line, (change line).queue = line.queue) →
      (∃ line, s.line k = some line ∧ registry = (s.setLine k (change line)).registry) →
      Fewer (s.registry.queueAt i j) (registry.queueAt i j) := by
    rintro k change same ⟨line, live, rfl⟩
    rw [Server.setLine_same live (same line)]
    exact Fewer.refl _
  have created : ∀ {key}, ((∃ slot, s.registry.getQueue s.threads key true = .returned registry slot) ∨
      ∃ error, s.registry.getQueue s.threads key true = .thrown registry error) →
      Fewer (s.registry.queueAt i j) (registry.queueAt i j) := by
    intro key result
    have placed := s.registry.getQueue_placed s.threads key true
    rcases result with ⟨slot, returned⟩ | ⟨error, thrown⟩
    · rw [returned] at placed
      exact Registry.Placed.fewer placed i j
    · rw [thrown] at placed
      exact Registry.Placed.fewer placed i j
  cases action with
  | resolve c key => exact created (mem_lookedUp writes)
  | create key => exact created (mem_lookedUp writes)
  | describe k info =>
      let text := Json.unescape info
      exact line k (fun line => { line with info := if text.2.isNone then text.1 else [] })
        (fun _ => rfl) (mem_changedLine writes)
  | visit k now =>
      exact line k (fun line => { line with lastWorker := now }) (fun _ => rfl) (mem_changedLine writes)
  | lock k on => exact line k (fun line => { line with locked := on }) (fun _ => rfl) (mem_changedLine writes)
  | leaveList c =>
      simp only [Action.writes] at writes
      cases itemEq : (s.conns c).workerItem with
      | none =>
          rw [itemEq] at writes
          cases writes
      | some k =>
          rw [itemEq] at writes
          exact line k (fun line => { line with workers := line.workers.erase c }) (fun _ => rfl)
            (mem_changedLine writes)
  | subscribe c k name =>
      exact line k (fun line => { line with workers := c :: line.workers }) (fun _ => rfl) (mem_changedLine writes)
  | dropMessage k l p => exact erased writes
  | refuseNoId k l p => exact erased writes
  | refuseCollision k l p random => exact erased writes
  | giveAsync c k l p more => exact erased writes
  | giveNoid c k l p => exact erased writes
  | giveId c k l p random => exact erased writes
  | discard k l p => exact erased writes
  | dropEntry k l p => exact worker writes
  | handAsync c k l p name => exact worker writes
  | handNoid c k l p name => exact worker writes
  | handId c k l p name random => exact worker writes
  | register => cases plain
  | undoNoId => cases plain
  | undoCollision => cases plain
  | enqueueSync => cases plain
  | enqueueAsync => cases plain
  | unhook key =>
      simp only [Action.writes] at writes
      cases removed : s.registry.removeQueue key with
      | none =>
          rw [removed] at writes
          cases writes
      | some result =>
          obtain ⟨after, found⟩ := result
          rw [removed] at writes
          rw [List.mem_singleton.mp writes]
          exact Registry.removeQueue_fewer removed i j
  | _ =>
      rw [List.mem_singleton.mp writes]
      exact Fewer.refl _

end Ijson
