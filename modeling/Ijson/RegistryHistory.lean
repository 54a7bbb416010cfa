/-
Histories of `get_queue` and `delete_queue`.

Every registry reached by such calls within 65535 nodes and slots is
consistent, and the next creation or deletion touches one queue only.
-/

import Ijson.RegistryInvariant

namespace Ijson

theorem ValidKey.childIndex {key : Bytes} (valid : ValidKey key) :
    ∀ a ∈ key, childIndex a ≠ none :=
  fun a member => childIndex_ne_none (valid a member)

namespace Registry

/-- Creating `key` needs no more than 65535 nodes and slots. -/
def Fits (registry : Registry) (key : Bytes) : Prop :=
  registry.mapper.find key = some 0 →
    registry.mapper.size + registry.mapper.missing key ≤ 65535 ∧
      (registry.freeSlot ≠ none ∨ registry.queueList.length < 65535)

inductive Reachable (threads : Nat) : Registry → Prop where
  | new : Reachable threads Registry.new
  | get {registry after : Registry} {result : Option Nat} (key : Bytes) (create : Bool)
      (reachable : Reachable threads registry) (valid : ValidKey key)
      (fits : create = true → registry.Fits key)
      (step : registry.getQueue threads key create = .returned after result) :
      Reachable threads after
  | delete {registry after : Registry} {removed : Option QueueLine} (key : Bytes)
      (reachable : Reachable threads registry) (valid : ValidKey key)
      (step : registry.removeQueue key = some (after, removed)) : Reachable threads after

open PrefixTable

variable {threads : Nat} {registry : Registry} {nodes : Finset Bytes} {table : Table UInt8 Nat}

/-- What `get_queue(key, true)` does to the live queues. -/
structure Creates (threads : Nat) (registry after : Registry) (key : Bytes) (position : Nat) :
    Prop where
  kept : ∀ i line, registry.LiveAt i line → after.LiveAt i line
  result : ∃ line, after.LiveAt position line
  added : ∀ i line, after.LiveAt i line → registry.LiveAt i line ∨
    (registry.mapper.find key = some 0 ∧ i = position ∧ line = QueueLine.new threads key)

theorem getQueue_true_spec (threads : Nat) (holds : registry.Holds nodes table) {key : Bytes}
    (valid : ValidKey key) (fits : registry.Fits key) :
    ∃ after position afterNodes afterTable,
      registry.getQueue threads key true = .returned after (some position) ∧
      after.Holds afterNodes afterTable ∧ Creates threads registry after key position := by
  cases found : lookup table key with
  | some value =>
      obtain ⟨owner, ownerEq⟩ := lookup_mem found
      obtain ⟨line, _, live⟩ := holds.value_live ownerEq
      exact ⟨registry, value - 1, nodes, table, getQueue_found threads holds found true, holds,
        { kept := fun _ _ live => live
          result := ⟨line, live⟩
          added := fun _ _ live => Or.inl live }⟩
  | none =>
      have missing := (holds.find_zero_iff key).mpr found
      obtain ⟨fewNodes, room⟩ := fits missing
      rw [← holds.mapper.card_with_stems key valid.childIndex] at fewNodes
      obtain ⟨created, position, createdEq, createdHolds, newLive, others, wasFree⟩ :=
        createQueue_spec threads holds valid.childIndex found room fewNodes
      refine ⟨created, position, _, _, ?_, createdHolds, ?_⟩
      · rw [getQueue_create threads holds found, createdEq]
      · refine { kept := ?_, result := ⟨_, newLive⟩, added := ?_ }
        · intro i line live
          have different : i ≠ position := fun same => wasFree line (same ▸ live)
          exact (others i different line).mpr live
        · intro i line live
          by_cases same : i = position
          · subst same
            have lineEq : some (some line) = some (some (QueueLine.new threads key)) :=
              live.symm.trans newLive
            simp only [Option.some.injEq] at lineEq
            exact Or.inr ⟨missing, rfl, lineEq⟩
          · exact Or.inl ((others i same line).mp live)

theorem getQueue_false_spec (threads : Nat) (holds : registry.Holds nodes table) (key : Bytes) :
    ∃ result, registry.getQueue threads key false = .returned registry result := by
  cases found : lookup table key with
  | some value => exact ⟨_, getQueue_found threads holds found false⟩
  | none => exact ⟨_, getQueue_missing threads holds found⟩

theorem Reachable.holds (reachable : Reachable threads registry) :
    ∃ nodes table, registry.Holds nodes table := by
  induction reachable with
  | new => exact ⟨_, _, new_holds⟩
  | get key create _ valid fits step ih =>
      obtain ⟨nodes, table, holds⟩ := ih
      cases create with
      | true =>
          obtain ⟨after, position, afterNodes, afterTable, afterEq, afterHolds, _⟩ :=
            getQueue_true_spec threads holds valid (fits rfl)
          rw [afterEq, Outcome.returned.injEq] at step
          exact ⟨afterNodes, afterTable, step.1 ▸ afterHolds⟩
      | false =>
          obtain ⟨result, resultEq⟩ := getQueue_false_spec threads holds key
          rw [resultEq, Outcome.returned.injEq] at step
          exact ⟨nodes, table, step.1 ▸ holds⟩
  | delete key _ _ step ih =>
      obtain ⟨nodes, table, holds⟩ := ih
      obtain ⟨removed, result, removedEq, removedHolds, _⟩ := removeQueue_spec holds key
      rw [removedEq, Option.some.injEq, Prod.mk.injEq] at step
      exact ⟨_, _, step.1 ▸ removedHolds⟩

/-- What `delete_queue(key)` does to the live queues. -/
structure Deletes (registry after : Registry) (key : Bytes) (removed : Option QueueLine) :
    Prop where
  live : ∀ i line, after.LiveAt i line ↔
    registry.LiveAt i line ∧ routingKey line.name ≠ routingKey key
  freed : ∀ i line, registry.LiveAt i line → routingKey line.name = routingKey key →
    removed = some line ∧ after.queueList[i]? = some none ∧ after.freeSlot ≠ none
  absent : (∀ i line, registry.LiveAt i line → routingKey line.name ≠ routingKey key) →
    removed = none

theorem removeQueue_deletes (holds : registry.Holds nodes table) (key : Bytes) :
    ∃ after removed, registry.removeQueue key = some (after, removed) ∧
      Deletes registry after key removed := by
  obtain ⟨after, removed, removedEq, afterHolds, _, live, freed, absent⟩ :=
    removeQueue_spec holds key
  refine ⟨after, removed, removedEq, ?_⟩
  refine { live := live, freed := ?_, absent := ?_ }
  · intro i line lineLive keyEq
    obtain ⟨resultEq, isNull⟩ := freed i line lineLive keyEq
    refine ⟨resultEq, isNull, fun notFound => ?_⟩
    exact freeSlot_none (le_trans afterHolds.numbered (by decide)) notFound i isNull
  · intro noOwner
    apply absent
    by_contra present
    obtain ⟨value, valueEq⟩ := Option.ne_none_iff_exists'.mp present
    obtain ⟨i, line, _, lineLive, keyEq⟩ := (holds.entries _ value).mp valueEq
    exact noOwner i line lineLive keyEq

/-- The trie and the slots are inverse to each other after every history of
calls, and the next call replaces, loses or frees no other queue. -/
theorem reachable_consistent (reachable : Reachable threads registry) :
    (∀ key, ∃ n, registry.mapper.find key = some n ∧
      (n ≠ 0 → ∃ line, registry.LiveAt (n - 1) line)) ∧
    (∀ i line, registry.LiveAt i line → registry.mapper.find line.name = some (i + 1)) ∧
    (∀ i j left right, registry.LiveAt i left → registry.LiveAt j right →
      routingKey left.name = routingKey right.name → i = j) ∧
    (∀ key, ∃ result, registry.getQueue threads key false = .returned registry result) ∧
    (∀ key, ValidKey key → registry.Fits key → ∃ after position,
      registry.getQueue threads key true = .returned after (some position) ∧
      Creates threads registry after key position) ∧
    (∀ key, ValidKey key → ∃ after removed, registry.removeQueue key = some (after, removed) ∧
      Deletes registry after key removed) := by
  obtain ⟨nodes, table, holds⟩ := reachable.holds
  refine ⟨?_, fun i line live => holds.find_name live,
    fun i j left right leftLive rightLive same => holds.keys_distinct leftLive rightLive same,
    getQueue_false_spec threads holds, ?_, fun key _ => removeQueue_deletes holds key⟩
  · intro key
    have found := Mapper.find_spec holds.mapper key
    exact ⟨_, found, fun nonzero => holds.find_live found nonzero⟩
  · intro key valid fits
    obtain ⟨after, position, _, _, afterEq, _, creates⟩ :=
      getQueue_true_spec threads holds valid fits
    exact ⟨after, position, afterEq, creates⟩

/-- `a` has been created and deleted again, and `b/*` still is there. -/
theorem reachable_consistent_sample :
    ∃ registry : Registry, (∃ line, registry.LiveAt 1 line ∧ line.name = ascii "b/*") ∧
      (∀ key, ∃ n, registry.mapper.find key = some n ∧
        (n ≠ 0 → ∃ line, registry.LiveAt (n - 1) line)) ∧
      (∀ i line, registry.LiveAt i line → registry.mapper.find line.name = some (i + 1)) ∧
      (∀ i j left right, registry.LiveAt i left → registry.LiveAt j right →
        routingKey left.name = routingKey right.name → i = j) ∧
      (∀ key, ∃ result, registry.getQueue 1 key false = .returned registry result) ∧
      (∀ key, ValidKey key → registry.Fits key → ∃ after position,
        registry.getQueue 1 key true = .returned after (some position) ∧
        Creates 1 registry after key position) ∧
      (∀ key, ValidKey key → ∃ after removed, registry.removeQueue key = some (after, removed) ∧
        Deletes registry after key removed) := by
  refine ⟨_, ?_, reachable_consistent (.delete (ascii "a")
    (.get (ascii "b/*") true
      (.get (ascii "a") true .new (by decide) (fun _ _ => by decide) rfl)
      (by decide) (fun _ _ => by decide) rfl)
    (by decide) rfl)⟩
  exact ⟨_, rfl, rfl⟩

end Registry

end Ijson
