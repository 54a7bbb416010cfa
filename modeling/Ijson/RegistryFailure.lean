/-
A creation that fails.

`Mapper::add` throws on a byte outside 32..127 after it has taken its mutex by
hand, and `get_queue` has put the queue into its slot by then.
-/

import Ijson.RegistryHistory

namespace Ijson

namespace Registry

/-- A later call: `get_queue(key, create)` or `delete_queue(key)`. -/
inductive Call where
  | get (key : Bytes) (create : Bool)
  | delete (key : Bytes)

/-- The queue a call returns or removes; `none` when it does not return. -/
def call (threads : Nat) (registry : Registry) :
    Call → Option (Except Exc (Option Nat) × Option QueueLine × Registry)
  | .get key create =>
      match registry.getQueue threads key create with
      | .returned after found => some (.ok found, none, after)
      | .thrown after error => some (.error error, none, after)
      | .fault => none
  | .delete key =>
      match registry.removeQueue key with
      | some (after, removed) => some (.ok none, removed, after)
      | none => none

/-- The answers of calls one after another, up to one that does not return. -/
def answers (threads : Nat) : Registry → List Call →
    List (Option (Except Exc (Option Nat) × Option QueueLine))
  | _, [] => []
  | registry, first :: rest =>
      match registry.call threads first with
      | some (found, removed, after) => some (found, removed) :: answers threads after rest
      | none => [none]

/-- A registry that a call has left as it was. -/
structure Untouched (threads : Nat) (before after : Registry) : Prop where
  queueList : after.queueList = before.queueList
  find : ∀ name, after.mapper.find name = before.mapper.find name
  published : after.mapper.abuf = before.mapper.abuf
  free : after.mapper.locked = false
  later : ∀ calls, after.answers threads calls = before.answers threads calls

end Registry

namespace Mapper

theorem addLoop_locked {value : Nat} {rest : Bytes} {nstep : Nat} {mapper after : Mapper}
    {error : Exc} (thrown : addLoop value rest nstep mapper = .thrown after error) :
    after.locked = mapper.locked := by
  have writes : ∀ {m written : Mapper} {n : Nat} {change : Step → Step},
      m.writeStep n change = some written → written.locked = m.locked := by
    intro m written n change writtenEq
    unfold writeStep at writtenEq
    split at writtenEq
    · cases writtenEq
    · simp only at writtenEq
      split at writtenEq <;> (cases writtenEq; rfl)
  have grows : ∀ m : Mapper, m.next.1.locked = m.locked := by
    intro m
    unfold next
    simp only
    split <;> rfl
  induction rest generalizing nstep mapper with
  | nil =>
      rw [addLoop] at thrown
      split at thrown <;> cases thrown
  | cons a rest ih =>
      rw [addLoop] at thrown
      split at thrown
      · split at thrown <;> cases thrown
      · split at thrown
        · cases thrown
          rfl
        · split at thrown
          · cases thrown
          · split at thrown
            · simp only at thrown
              split at thrown
              · cases thrown
              · rename_i writtenEq
                rw [ih thrown, writes writtenEq, grows]
            · exact ih thrown

theorem add_locked {mapper after : Mapper} {name : Bytes} {value : Nat} {error : Exc}
    (thrown : mapper.add name value = .thrown after error) : after.locked = true := by
  rw [add] at thrown
  split at thrown
  · cases thrown
  · split at thrown
    · cases thrown
    · rename_i looped
      cases thrown
      exact addLoop_locked looped
    · cases thrown

/-- The next `add` waits for the mutex for ever. -/
theorem add_of_locked {mapper : Mapper} (locked : mapper.locked = true) (name : Bytes)
    (value : Nat) : mapper.add name value = .fault := by
  rw [add, if_pos locked]

end Mapper

namespace Registry

variable {threads : Nat} {before after : Registry} {key : Bytes} {error : Exc}

theorem createQueue_locked
    (thrown : before.createQueue threads key = .thrown after error) :
    after.mapper.locked = true := by
  rw [createQueue] at thrown
  split at thrown
  · cases thrown
  · split at thrown
    · cases thrown
    · rename_i added
      cases thrown
      exact Mapper.add_locked added
    · cases thrown

theorem getQueue_locked {create : Bool}
    (thrown : before.getQueue threads key create = .thrown after error) :
    after.mapper.locked = true := by
  rw [getQueue] at thrown
  split at thrown
  · cases thrown
  · split at thrown
    · split at thrown <;> cases thrown
    · split at thrown
      · cases thrown
      · split at thrown
        · cases thrown
        · split at thrown
          · split at thrown <;> cases thrown
          · exact createQueue_locked thrown

theorem getQueue_of_locked (locked : before.mapper.locked = true)
    (absent : before.mapper.find key = some 0) : before.getQueue threads key true = .fault := by
  rw [getQueue, absent]
  simp only [ne_eq, not_true_eq_false, if_false, Bool.not_true, Bool.false_eq_true, createQueue]
  split
  · rfl
  · rw [Mapper.add_of_locked locked]

/-- A creation that throws never leaves the registry as it was, reachable or not:
the mutex stays held, and every later creation of a name without a queue blocks
for ever. -/
theorem failed_creation (thrown : before.getQueue threads key true = .thrown after error) :
    ¬ Untouched threads before after ∧
      ∀ name, after.mapper.find name = some 0 → after.getQueue threads name true = .fault := by
  have locked := getQueue_locked thrown
  refine ⟨fun untouched => ?_, fun name absent => getQueue_of_locked locked absent⟩
  have free := untouched.free
  rw [locked] at free
  cases free

/-- A name with the byte 200 in a new registry. -/
theorem failed_creation_new : ∃ after,
    Registry.new.getQueue 1 [200] true = .thrown after (.exception "Wrong char") ∧
      ¬ Untouched 1 Registry.new after ∧
      ∀ name, after.mapper.find name = some 0 → after.getQueue 1 name true = .fault :=
  ⟨_, rfl, @failed_creation 1 Registry.new _ [200] (.exception "Wrong char") rfl⟩

/-- Afterwards the name `a` cannot be created. -/
theorem failed_creation_blocks :
    ¬ ∀ (threads : Nat) (before after : Registry) (key : Bytes) (error : Exc),
      Reachable threads before → before.getQueue threads key true = .thrown after error →
      Untouched threads before after := by
  intro always
  have untouched := always 1 Registry.new _ [200] _ Reachable.new rfl
  have later := untouched.later [.get [97] true]
  revert later
  decide +kernel

end Registry

end Ijson
