/-
The names of queues, as requests give them and as the registry keeps them.

A list of names is cut at every comma and blank.  Only `get_queue` and
`delete_queue` change which names there are; all other actions leave the routing
and the names alone.
-/

import Ijson.WorkerHomes

namespace Ijson

/-! ### Names in a list -/

/-- A character that stands between two names. -/
def separator (a : UInt8) : Bool := a = Json.comma || a = blank

/-- One leading slash is cut off. -/
def unslashed : Bytes → Bytes
  | 47 :: rest => rest
  | name => name

namespace Routine

end Routine

/-! ### Names in the registry -/

/-- The slots the names have when they are looked up one after the other, and the
registry then. -/
def lookUps (threads : Nat) : List Bytes → Registry → Option (List Nat × Registry)
  | [], registry => some ([], registry)
  | name :: names, registry =>
      match registry.getQueue threads name true with
      | .returned registry (some i) => (lookUps threads names registry).map fun found => (i :: found.1, found.2)
      | _ => none

theorem lookUps_cons {threads : Nat} {name : Bytes} {names : List Bytes} {registry : Registry}
    {found : List Nat × Registry} : lookUps threads (name :: names) registry = some found ↔
      ∃ i middle slots, registry.getQueue threads name true = .returned middle (some i) ∧
        lookUps threads names middle = some (slots, found.2) ∧ found.1 = i :: slots := by
  rw [lookUps]
  cases registry.getQueue threads name true with
  | returned middle slot =>
      cases slot with
      | none => simp
      | some i =>
          simp only [Option.map_eq_some_iff, Outcome.returned.injEq, Option.some.injEq]
          constructor
          · rintro ⟨⟨slots, last⟩, later, rfl⟩
            exact ⟨i, middle, slots, ⟨rfl, rfl⟩, later, rfl⟩
          · rintro ⟨i, middle, slots, ⟨rfl, rfl⟩, later, first⟩
            exact ⟨_, later, Prod.ext first.symm rfl⟩
  | thrown middle error => simp
  | fault => simp

theorem lookUps_append {threads : Nat} {names more : List Bytes} {registry : Registry}
    {found : List Nat × Registry} : lookUps threads (names ++ more) registry = some found ↔
      ∃ first middle second, lookUps threads names registry = some (first, middle) ∧
        lookUps threads more middle = some (second, found.2) ∧ found.1 = first ++ second := by
  induction names generalizing registry found with
  | nil =>
      constructor
      · intro whole
        exact ⟨[], registry, found.1, rfl, whole, rfl⟩
      · rintro ⟨first, middle, second, nothing, whole, split⟩
        cases nothing
        rw [List.nil_append] at split ⊢
        rw [whole, ← split]
  | cons name names ih =>
      rw [List.cons_append, lookUps_cons]
      constructor
      · rintro ⟨i, next, slots, here, later, first⟩
        obtain ⟨front, middle, back, before, behind, split⟩ := ih.mp later
        refine ⟨i :: front, middle, back, ?_, behind, ?_⟩
        · exact lookUps_cons.mpr ⟨i, next, front, here, before, rfl⟩
        · rw [first, show slots = front ++ back from split, List.cons_append]
      · rintro ⟨first, middle, second, before, behind, split⟩
        obtain ⟨i, next, slots, here, later, isFirst⟩ := lookUps_cons.mp before
        refine ⟨i, next, slots ++ second, here, ?_, ?_⟩
        · exact ih.mpr ⟨slots, middle, second, later, behind, rfl⟩
        · rw [split, show first = i :: slots from isFirst, List.cons_append]

/-- The names of the queues, slot by slot. -/
def Registry.names (registry : Registry) : List (Option Bytes) :=
  registry.queueList.map (Option.map QueueLine.name)

/-- The routing is the same, and every slot has a queue of the same name, or none. -/
structure Registry.SameNames (before after : Registry) : Prop where
  mapper : after.mapper = before.mapper
  names : after.names = before.names

/-- An action that may enter or remove a queue. -/
def Action.renames : Action → Bool
  | .resolve _ _ => true
  | .create _ => true
  | .unhook _ => true
  | _ => false

namespace Registry.SameNames

variable {s : Server} {registry before middle after : Registry}

theorem refl (registry : Registry) : SameNames registry registry := ⟨rfl, rfl⟩

theorem trans (first : SameNames before middle) (second : SameNames middle after) :
    SameNames before after :=
  ⟨second.mapper.trans first.mapper, second.names.trans first.names⟩

theorem length_eq (same : SameNames before after) : after.queueList.length = before.queueList.length := by
  have names := congrArg List.length same.names
  rwa [Registry.names, Registry.names, List.length_map, List.length_map] at names

theorem slot_name (same : SameNames before after) (i : Nat) :
    after.queueList[i]?.map (Option.map QueueLine.name) =
      before.queueList[i]?.map (Option.map QueueLine.name) := by
  rw [← List.getElem?_map, ← List.getElem?_map]
  exact congrArg (·[i]?) same.names

theorem line_name (same : SameNames before after) (i : Nat) :
    after.queueList[i]?.join.map QueueLine.name = before.queueList[i]?.join.map QueueLine.name := by
  have shape : ∀ slot : Option (Option QueueLine),
      slot.join.map QueueLine.name = (slot.map (Option.map QueueLine.name)).join := by
    intro slot
    cases slot <;> rfl
  rw [shape, shape, same.slot_name]

theorem setLine {i : Nat} {line other : QueueLine} (live : s.line i = some line)
    (same : other.name = line.name) : SameNames s.registry (s.setLine i other).registry := by
  refine ⟨rfl, List.ext_getElem? fun k => ?_⟩
  have inside : i < s.registry.queueList.length := by
    by_contra outside
    rw [Server.line, List.getElem?_eq_none (by omega)] at live
    cases live
  have here : s.registry.queueList[i]? = some (some line) := by
    rw [Server.line] at live
    cases slot : s.registry.queueList[i]? with
    | none =>
        rw [slot] at live
        cases live
    | some found =>
        rw [slot] at live
        exact congrArg some live
  unfold Registry.names Server.setLine
  rw [List.getElem?_map, List.getElem?_map]
  by_cases equal : i = k
  · rw [← equal, List.getElem?_set_self inside, here]
    exact congrArg (fun name => some (some name)) same
  · rw [List.getElem?_set_ne equal]

theorem setQueue (s : Server) (i j : Nat) (queue : Queue) :
    SameNames s.registry (s.setQueue i j queue).registry := by
  unfold Server.setQueue
  cases live : s.line i with
  | none => exact refl _
  | some line => exact setLine live rfl

theorem eraseMessage (s : Server) (i j p : Nat) : SameNames s.registry (s.eraseMessage i j p).registry := by
  unfold Server.eraseMessage
  cases s.queue i j with
  | none => exact refl _
  | some queue => exact setQueue s i j _

theorem eraseWorker (s : Server) (i j p : Nat) : SameNames s.registry (s.eraseWorker i j p).registry := by
  unfold Server.eraseWorker
  cases s.queue i j with
  | none => exact refl _
  | some queue => exact setQueue s i j _

theorem slot_eq (same : SameNames before after) (n : Nat) : after.slot n = before.slot n := by
  have name := same.slot_name (n - 1)
  unfold Registry.slot
  cases left : after.queueList[n - 1]? with
  | none =>
      cases right : before.queueList[n - 1]? with
      | none => rfl
      | some found =>
          rw [left, right] at name
          cases name
  | some slot =>
      cases right : before.queueList[n - 1]? with
      | none =>
          rw [left, right] at name
          cases name
      | some found =>
          rw [left, right] at name
          cases slot with
          | none =>
              cases found with
              | none => rfl
              | some line => cases name
          | some line =>
              cases found with
              | none => cases name
              | some other => rfl

theorem freeSlot_eq (same : SameNames before after) : after.freeSlot = before.freeSlot := by
  have shape : ∀ slots : List (Option QueueLine), slots.findIdx? Option.isNone =
      (slots.map (Option.map QueueLine.name)).findIdx? Option.isNone := by
    intro slots
    rw [List.findIdx?_map]
    congr 1
    funext slot
    cases slot <;> rfl
  unfold Registry.freeSlot
  rw [shape, shape, List.map_take, List.map_take]
  exact congrArg (fun names => (names.take 65536).findIdx? Option.isNone) same.names

/-- `get_queue` looks at the routing and the names only. -/
theorem getQueue {threads : Nat} {key : Bytes} {create : Bool} {slot : Option Nat} {found : Registry}
    (same : SameNames before after) (returned : after.getQueue threads key create = .returned found slot) :
    ∃ other, before.getQueue threads key create = .returned other slot ∧ SameNames other found := by
  have lengths := same.length_eq
  have created : after.createQueue threads key = .returned found slot →
      ∃ other, before.createQueue threads key = .returned other slot ∧ SameNames other found := by
    intro returned
    unfold Registry.createQueue at returned ⊢
    have placed : (before.place (QueueLine.new threads key)).map (fun place =>
        (place.1.map (Option.map QueueLine.name), place.2)) =
        (after.place (QueueLine.new threads key)).map (fun place =>
        (place.1.map (Option.map QueueLine.name), place.2)) := by
      have names := same.names
      unfold Registry.names at names
      unfold Registry.place
      rw [same.freeSlot_eq]
      cases before.freeSlot with
      | none =>
          simp only [lengths]
          split
          · rfl
          · simp only [Option.map_some, List.map_append, names]
      | some i =>
          simp only [List.length_set, lengths]
          split
          · simp only [Option.map_some, List.map_append, List.map_set, names]
          · simp only [Option.map_some, List.map_set, names]
    cases afterPlace : after.place (QueueLine.new threads key) with
    | none =>
        rw [afterPlace] at returned
        cases returned
    | some place =>
        rw [afterPlace] at returned placed
        obtain ⟨other, otherEq, names⟩ := Option.map_eq_some_iff.mp placed
        obtain ⟨slots, position, n⟩ := place
        obtain ⟨others, otherPosition, m⟩ := other
        simp only [Prod.mk.injEq] at names
        obtain ⟨sameSlots, rfl, rfl⟩ := names
        rw [otherEq]
        simp only [same.mapper] at returned ⊢
        cases added : before.mapper.add key m with
        | returned mapper value =>
            rw [added] at returned
            simp only [Outcome.returned.injEq] at returned
            rw [← returned.1, ← returned.2]
            exact ⟨_, rfl, rfl, sameSlots.symm⟩
        | thrown mapper error =>
            rw [added] at returned
            cases returned
        | fault =>
            rw [added] at returned
            cases returned
  unfold Registry.getQueue at returned ⊢
  rw [same.mapper] at returned
  cases sought : before.mapper.find key with
  | none =>
      rw [sought] at returned
      cases returned
  | some n =>
      rw [sought] at returned
      simp only at returned ⊢
      split
      · rename_i nonzero
        rw [if_pos nonzero, same.slot_eq] at returned
        cases slotEq : before.slot n with
        | none =>
            rw [slotEq] at returned
            cases returned
        | some place =>
            rw [slotEq] at returned
            simp only [Outcome.returned.injEq] at returned
            rw [← returned.1, ← returned.2]
            exact ⟨before, rfl, same⟩
      · rename_i zero
        rw [if_neg zero] at returned
        split
        · rename_i looks
          rw [if_pos looks] at returned
          simp only [Outcome.returned.injEq] at returned
          rw [← returned.1, ← returned.2]
          exact ⟨before, rfl, same⟩
        · rename_i creates
          rw [if_neg creates, if_neg zero] at returned
          exact created returned

end Registry.SameNames

/-- All other actions keep the routing and the names. -/
theorem writes_sameNames {action : Action} {s : Server} {registry : Registry}
    (plain : action.renames = false) (writes : registry ∈ action.writes s) :
    Registry.SameNames s.registry registry := by
  have lines : ∀ {i : Nat} (change : QueueLine → QueueLine),
      (∀ line, (change line).name = line.name) →
      (∃ line, s.line i = some line ∧ registry = (s.setLine i (change line)).registry) →
      Registry.SameNames s.registry registry := by
    rintro i change same ⟨line, live, rfl⟩
    exact Registry.SameNames.setLine live (same line)
  have queues : ∀ {i j : Nat} (change : Queue → Queue),
      (∃ queue, s.queue i j = some queue ∧ registry = (s.setQueue i j (change queue)).registry) →
      Registry.SameNames s.registry registry := by
    rintro i j change ⟨queue, live, rfl⟩
    exact Registry.SameNames.setQueue s i j _
  have messages : ∀ {i j p : Nat}, registry ∈ [(s.eraseMessage i j p).registry] →
      Registry.SameNames s.registry registry := by
    intro i j p member
    rw [List.mem_singleton.mp member]
    exact Registry.SameNames.eraseMessage s i j p
  have workers : ∀ {i j p : Nat}, registry ∈ [(s.eraseWorker i j p).registry] →
      Registry.SameNames s.registry registry := by
    intro i j p member
    rw [List.mem_singleton.mp member]
    exact Registry.SameNames.eraseWorker s i j p
  have undone : ∀ {i j p : Nat}, (registry = (s.eraseWorker i j p).registry ∨ ∃ w queue,
      s.workerAt i j p = some w ∧ (s.eraseWorker i j p).queue i (s.conns w).nloop = some queue ∧
      registry = ((s.eraseWorker i j p).setQueue i (s.conns w).nloop
        { queue with workers := w :: queue.workers }).registry) →
      Registry.SameNames s.registry registry := by
    rintro i j p (same | ⟨w, queue, found, live, same⟩)
    · rw [same]
      exact Registry.SameNames.eraseWorker s i j p
    · rw [same]
      exact (Registry.SameNames.eraseWorker s i j p).trans (Registry.SameNames.setQueue _ i _ _)
  cases action with
  | resolve | create | unhook => cases plain
  | describe i info =>
      exact lines (fun line => { line with
        info := if (Json.unescape info).2.isNone then (Json.unescape info).1 else [] }) (fun _ => rfl)
        (mem_changedLine writes)
  | visit i now => exact lines (fun line => { line with lastWorker := now }) (fun _ => rfl) (mem_changedLine writes)
  | lock i on => exact lines (fun line => { line with locked := on }) (fun _ => rfl) (mem_changedLine writes)
  | leaveList c =>
      simp only [Action.writes] at writes
      cases item : (s.conns c).workerItem with
      | none =>
          rw [item] at writes
          cases writes
      | some i =>
          rw [item] at writes
          exact lines (fun line => { line with workers := line.workers.erase c }) (fun _ => rfl)
            (mem_changedLine writes)
  | subscribe c i name =>
      exact lines (fun line => { line with workers := c :: line.workers }) (fun _ => rfl) (mem_changedLine writes)
  | dropMessage | refuseNoId | refuseCollision | giveAsync | giveNoid | giveId | discard =>
      exact messages writes
  | register c i =>
      exact queues (fun queue => { queue with workers := queue.workers ++ [c] }) (mem_changedQueue writes)
  | dropEntry | handAsync | handNoid | handId => exact workers writes
  | undoNoId | undoCollision => exact undone (mem_rolledBack writes)
  | enqueueSync c i name =>
      exact queues (fun queue =>
        { queue with clients := insertMessage (s.syncTask c) queue.clients }) (mem_changedQueue writes)
  | enqueueAsync c i name =>
      exact queues (fun queue =>
        { queue with clients := insertMessage (s.asyncTask c name) queue.clients }) (mem_changedQueue writes)
  | _ =>
      rw [List.mem_singleton.mp writes]
      exact Registry.SameNames.refl _

end Ijson
