/-
The numbers of nodes and slots.

`Mapper::_next` numbers the nodes of the trie and `get_queue` the slots of the
queues, both as a `u16`.  `delete_queue` gives a slot back, but never a node, so
a history of creations uses the numbers of the nodes up.
-/

import Ijson.RegistryFailure

namespace Ijson

open Program

namespace Mapper

/-! ### The calls of `_next` -/

/-- The mappers on which the loop of `add` calls `_next`. -/
def nextCalls : Bytes → Nat → Mapper → List Mapper
  | [], _, _ => []
  | a :: rest, nstep, mapper =>
      if a = star then []
      else
        match childIndex a with
        | none => []
        | some index =>
            match getStep mapper.stepBuf nstep with
            | none => []
            | some step =>
                if step.k index = 0 then
                  mapper ::
                    match mapper.next.1.writeStep nstep
                        (fun step => step.link index mapper.next.2) with
                    | none => []
                    | some written => nextCalls rest mapper.next.2 written
                else nextCalls rest (step.k index) mapper

/-- The calls of `_next` in one `add`; there are none while it waits for the mutex. -/
def grows (mapper : Mapper) (name : Bytes) : List Mapper :=
  if mapper.locked then [] else nextCalls name 1 { mapper with locked := true }

/-- The part of a name in front of a wrong character. -/
def rightChars (name : Bytes) : Bytes := name.takeWhile fun a => (childIndex a).isSome

/-- The array is as long as `_cap` says and holds all nodes. -/
structure Allocated (mapper : Mapper) : Prop where
  capacity : mapper.cap = mapper.stepBuf.length
  room : mapper.size ≤ mapper.cap
  nonempty : 1 ≤ mapper.size

theorem new_allocated : Allocated new := ⟨rfl, by decide, by decide⟩

variable {mapper : Mapper}

theorem Allocated.locking (allocated : Allocated mapper) :
    Allocated { mapper with locked := true } :=
  ⟨allocated.capacity, allocated.room, allocated.nonempty⟩

theorem next_size (mapper : Mapper) : mapper.next.1.size = mapper.size + 1 := by
  unfold next
  simp only
  split <;> rfl

theorem next_number (mapper : Mapper) : mapper.next.2 = u16 (mapper.size + 1) := by
  unfold next
  simp only
  split <;> rfl

theorem next_locked (mapper : Mapper) : mapper.next.1.locked = mapper.locked := by
  unfold next
  simp only
  split <;> rfl

theorem next_extends (mapper : Mapper) :
    ∃ extra, mapper.next.1.stepBuf = mapper.stepBuf ++ List.replicate extra Step.zero := by
  unfold next
  simp only
  split
  · exact ⟨0, (List.append_nil _).symm⟩
  · exact ⟨_, rfl⟩

theorem Allocated.next (allocated : Allocated mapper) : Allocated mapper.next.1 := by
  have capacity := allocated.capacity
  have room := allocated.room
  have nonempty := allocated.nonempty
  refine ⟨?_, ?_, by rw [next_size]; omega⟩
  · unfold Mapper.next
    simp only
    split
    · exact capacity
    · simp only [stepBuf, Option.getD_some, List.length_append, List.length_replicate]
      rw [stepBuf] at capacity
      split <;> omega
  · rw [next_size]
    unfold Mapper.next
    simp only
    split
    · assumption
    · simp only
      split <;> omega

/-- An assignment to a node changes neither the length nor the counters. -/
theorem writeStep_keeps {written : Mapper} {n : Nat} {change : Step → Step}
    (writtenEq : mapper.writeStep n change = some written) :
    written.stepBuf.length = mapper.stepBuf.length ∧ written.size = mapper.size ∧
      written.cap = mapper.cap ∧ written.locked = mapper.locked := by
  unfold writeStep at writtenEq
  split at writtenEq
  · cases writtenEq
  · simp only at writtenEq
    split at writtenEq
    · rename_i single
      cases writtenEq
      simp [stepBuf, single]
    · rename_i copied
      cases writtenEq
      simp [stepBuf, copied]

theorem Allocated.write (allocated : Allocated mapper) {written : Mapper} {n : Nat}
    {change : Step → Step} (writtenEq : mapper.writeStep n change = some written) :
    Allocated written := by
  obtain ⟨sameLength, sameSize, sameCap, _⟩ := writeStep_keeps writtenEq
  exact ⟨by rw [sameCap, sameLength, allocated.capacity],
    by rw [sameSize, sameCap]; exact allocated.room, by rw [sameSize]; exact allocated.nonempty⟩

/-- The calls of `_next` meet sizes that follow one another. -/
theorem nextCalls_sizes (rest : Bytes) (nstep : Nat) (mapper : Mapper) :
    (nextCalls rest nstep mapper).map Mapper.size =
      List.range' mapper.size (nextCalls rest nstep mapper).length := by
  induction rest generalizing nstep mapper with
  | nil => rfl
  | cons a rest ih =>
      unfold nextCalls
      split
      · rfl
      · split
        · rfl
        · split
          · rfl
          · split
            · rw [List.map_cons, List.length_cons, List.range'_succ]
              split
              · rfl
              · rename_i writtenEq
                rw [ih, (writeStep_keeps writtenEq).2.1, next_size]
            · exact ih _ _

theorem nextCalls_allocated (allocated : Allocated mapper) {rest : Bytes} {nstep : Nat} :
    ∀ at_call ∈ nextCalls rest nstep mapper, Allocated at_call := by
  induction rest generalizing nstep mapper with
  | nil => simp [nextCalls]
  | cons a rest ih =>
      unfold nextCalls
      split
      · simp
      · split
        · simp
        · split
          · simp
          · split
            · rw [List.forall_mem_cons]
              refine ⟨allocated, ?_⟩
              split
              · simp
              · rename_i writtenEq
                exact ih (allocated.next.write writtenEq)
            · exact ih allocated

/-- Past the nodes of the trie every character costs at most one call. -/
theorem nextCalls_beyond (rest : Bytes) (nstep : Nat) (mapper : Mapper) :
    (nextCalls rest nstep mapper).length ≤ ((rightChars rest).takeWhile (· ≠ star)).length := by
  induction rest generalizing nstep mapper with
  | nil => exact Nat.le_refl _
  | cons a rest ih =>
      by_cases isStar : a = star
      · simp [nextCalls, isStar]
      · cases found : childIndex a with
        | none => simp [nextCalls, isStar, found]
        | some index =>
            have walked : ((rightChars (a :: rest)).takeWhile (· ≠ star)).length =
                ((rightChars rest).takeWhile (· ≠ star)).length + 1 := by
              simp [rightChars, found, isStar]
            rw [walked, nextCalls, if_neg isStar, found]
            simp only
            split
            · exact Nat.zero_le _
            · split
              · rw [List.length_cons]
                apply Nat.succ_le_succ
                split
                · exact Nat.zero_le _
                · exact ih _ _
              · exact Nat.le_succ_of_le (ih _ _)

theorem nextCalls_missing (rest : Bytes) (nstep : Nat) (mapper : Mapper) :
    (nextCalls rest nstep mapper).length ≤ missingLoop mapper.stepBuf (rightChars rest) nstep := by
  induction rest generalizing nstep with
  | nil => exact Nat.le_refl _
  | cons a rest ih =>
      by_cases isStar : a = star
      · simp [nextCalls, isStar]
      · cases found : childIndex a with
        | none => simp [nextCalls, isStar, found]
        | some index =>
            cases read : getStep mapper.stepBuf nstep with
            | none => simp [nextCalls, isStar, found, read]
            | some step =>
                have walked : rightChars (a :: rest) = a :: rightChars rest := by
                  simp [rightChars, found]
                rw [walked, missingLoop, if_neg isStar, found, read]
                by_cases unlinked : step.k index = 0
                · simp only [if_pos unlinked]
                  rw [← walked]
                  exact nextCalls_beyond _ _ _
                · rw [nextCalls, if_neg isStar, found, read]
                  simp only [if_neg unlinked]
                  exact ih _

/-! ### The size after `add` -/

/-- What the loop of `add` leaves after that many calls of `_next`. -/
structure Walked (mapper : Mapper) (calls : Nat) (after : Mapper) : Prop where
  allocated : Allocated after
  size : after.size = mapper.size + calls
  locked : after.locked = mapper.locked

theorem Walked.written (allocated : Allocated mapper) {written : Mapper} {n : Nat}
    {change : Step → Step} (writtenEq : mapper.writeStep n change = some written) :
    Walked mapper 0 written := by
  obtain ⟨_, sameSize, _, sameLock⟩ := writeStep_keeps writtenEq
  exact ⟨allocated.write writtenEq, sameSize, sameLock⟩

/-- The loop of `add` adds as many nodes as it calls `_next`. -/
theorem addLoop_ends (value : Nat) (rest : Bytes) (nstep : Nat) (allocated : Allocated mapper) :
    (addLoop value rest nstep mapper).Ends
      (fun _ after => Walked mapper (nextCalls rest nstep mapper).length after)
      fun _ after => Walked mapper (nextCalls rest nstep mapper).length after := by
  induction rest generalizing nstep mapper with
  | nil =>
      unfold addLoop
      split
      · trivial
      · rename_i writtenEq
        exact Walked.written allocated writtenEq
  | cons a rest ih =>
      by_cases isStar : a = star
      · rw [addLoop, nextCalls, if_pos isStar, if_pos isStar]
        split
        · trivial
        · rename_i writtenEq
          exact Walked.written allocated writtenEq
      · rw [addLoop, nextCalls, if_neg isStar, if_neg isStar]
        cases childIndex a with
        | none => exact ⟨allocated, rfl, rfl⟩
        | some index =>
            cases getStep mapper.stepBuf nstep with
            | none => trivial
            | some step =>
                by_cases unlinked : step.k index = 0
                · simp only [if_pos unlinked]
                  cases writtenEq : mapper.next.1.writeStep nstep
                      (fun step => step.link index mapper.next.2) with
                  | none => trivial
                  | some written =>
                      obtain ⟨_, sameSize, _, sameLock⟩ := writeStep_keeps writtenEq
                      have rest_walked : ∀ after,
                          Walked written (nextCalls rest mapper.next.2 written).length after →
                          Walked mapper ((nextCalls rest mapper.next.2 written).length + 1) after := by
                        intro after walked
                        refine ⟨walked.allocated, ?_, ?_⟩
                        · rw [walked.size, sameSize, next_size]
                          omega
                        · rw [walked.locked, sameLock, next_locked]
                      exact Ends.mono (ih mapper.next.2 (allocated.next.write writtenEq))
                        (fun _ after => rest_walked after) fun _ after => rest_walked after
                · simp only [if_neg unlinked]
                  exact ih _ allocated

/-- What `add` leaves, whether it returns or throws. -/
structure Grown (name : Bytes) (mapper after : Mapper) : Prop where
  allocated : Allocated after
  size : after.size = mapper.size + (mapper.grows name).length
  settled : after.locked = false → after.bufT = none

theorem add_ends (value : Nat) (name : Bytes) (allocated : Allocated mapper) :
    (mapper.add name value).Ends (fun _ after => Grown name mapper after)
      fun _ after => Grown name mapper after := by
  have walked := addLoop_ends value name 1 allocated.locking
  unfold add
  split
  · trivial
  · rename_i free
    cases looped : addLoop value name 1 { mapper with locked := true } with
    | returned last found =>
        rw [looped] at walked
        obtain ⟨lastAllocated, lastSize, _⟩ : Walked _ _ last := walked
        obtain ⟨noCopy, sameSize, sameCap⟩ := publish_fields last
        refine ⟨⟨?_, ?_, ?_⟩, ?_, fun _ => noCopy⟩
        · exact (sameCap.trans lastAllocated.capacity).trans
            (congrArg List.length (publish_stepBuf last)).symm
        · exact (sameSize.le.trans lastAllocated.room).trans sameCap.ge
        · exact lastAllocated.nonempty.trans sameSize.ge
        · rw [grows, if_neg free]
          exact sameSize.trans lastSize
    | thrown last error =>
        rw [looped] at walked
        obtain ⟨lastAllocated, lastSize, lastLock⟩ : Walked _ _ last := walked
        refine ⟨lastAllocated, ?_, fun unlocked => ?_⟩
        · rw [grows, if_neg free]
          exact lastSize
        · rw [lastLock] at unlocked
          cases unlocked
    | fault => trivial

theorem delLoop_length {buf after : List Step} {name : Bytes} {n result : Nat}
    (deleted : delLoop buf name n = some (after, result)) : after.length = buf.length := by
  induction name generalizing n with
  | nil =>
      unfold delLoop at deleted
      split at deleted
      · cases deleted
      · cases deleted
        exact List.length_set
  | cons a rest ih =>
      unfold delLoop at deleted
      split at deleted
      · cases deleted
      · split at deleted
        · cases deleted
          exact List.length_set
        · split at deleted
          · cases deleted
            rfl
          · split at deleted
            · cases deleted
              rfl
            · exact ih deleted

theorem del_grown {after : Mapper} {name : Bytes} {result : Nat} (allocated : Allocated mapper)
    (settled : mapper.locked = false → mapper.bufT = none)
    (deleted : mapper.del name = some (after, result)) :
    Allocated after ∧ after.size = mapper.size ∧ (after.locked = false → after.bufT = none) := by
  unfold del at deleted
  split at deleted
  · cases deleted
  · rename_i buf result looped
    cases deleted
    refine ⟨⟨?_, allocated.room, allocated.nonempty⟩, rfl, settled⟩
    have capacity := allocated.capacity
    unfold stepBuf at capacity ⊢
    cases copy : mapper.bufT with
    | none =>
        rw [copy] at capacity
        exact capacity.trans (delLoop_length looped).symm
    | some copied =>
        rw [copy] at capacity
        exact capacity

end Mapper

namespace Registry

/-! ### Histories -/

/-- The name that a call creates a queue for. -/
def creates (registry : Registry) : Call → Option Bytes
  | .get key true => if registry.mapper.find key = some 0 then some key else none
  | _ => none

/-- The mappers on which a call calls `_next`. -/
def nodeCalls (threads : Nat) (registry : Registry) (call : Call) : List Mapper :=
  match registry.creates call with
  | none => []
  | some key =>
      match registry.place (QueueLine.new threads key) with
      | none => []
      | some _ => registry.mapper.grows key

/-- The numbers that `_next` returns to a call. -/
def numbers (threads : Nat) (registry : Registry) (call : Call) : List Nat :=
  (registry.nodeCalls threads call).map fun mapper => mapper.next.2

/-- Registries reached by calls that all meet `allowed`, with the numbers of
all nodes so far, the root's first. -/
inductive History (allowed : Registry → Call → Prop) (threads : Nat) :
    Registry → List Nat → Prop where
  | new : History allowed threads Registry.new [1]
  | step {registry after : Registry} {used : List Nat} {found : Except Exc (Option Nat)}
      {removed : Option QueueLine} (call : Call)
      (history : History allowed threads registry used) (meets : allowed registry call)
      (returns : registry.call threads call = some (found, removed, after)) :
      History allowed threads after (used ++ registry.numbers threads call)

/-- No number of a call wraps: those of `_next` are new and denote nodes of the
array, the one passed to `add` denotes the slot of the new queue, and the search
for the slot ends. -/
structure Counts (threads : Nat) (registry : Registry) (used : List Nat) (call : Call) : Prop where
  fresh : (used ++ registry.numbers threads call).Nodup
  nodes : ∀ mapper ∈ registry.nodeCalls threads call,
    mapper.next.2 ≠ 0 ∧ mapper.next.2 ≤ mapper.next.1.stepBuf.length
  slot : ∀ key, registry.creates call = some key → ∃ slots position n,
    registry.place (QueueLine.new threads key) = some (slots, position, n) ∧ n ≠ 0 ∧
      position = n - 1 ∧ slots[n - 1]? = some (some (QueueLine.new threads key))

/-- The nodes that a creation lacks and its slot stay within 65535.  No node is added
while the mutex of the trie is held for good. -/
def HasRoom (registry : Registry) (call : Call) : Prop :=
  ∀ key, registry.creates call = some key →
    (registry.mapper.locked = false →
      registry.mapper.size + registry.mapper.missing (Mapper.rightChars key) ≤ 65535) ∧
    (registry.freeSlot ≠ none ∨ registry.queueList.length < 65535)

/-- The numbers in use are the first ones. -/
structure Tallied (registry : Registry) (used : List Nat) : Prop where
  allocated : registry.mapper.Allocated
  settled : registry.mapper.locked = false → registry.mapper.bufT = none
  used : used = List.range' 1 registry.mapper.size
  nodes : registry.mapper.size ≤ 65535
  slots : registry.queueList.length ≤ 65535

variable {threads : Nat} {registry after : Registry} {used : List Nat} {call : Call}

theorem new_tallied : Tallied Registry.new [1] :=
  ⟨Mapper.new_allocated, fun _ => rfl, rfl, by decide, by decide⟩

namespace Tallied

theorem few_calls (tallied : Tallied registry used) (threads : Nat) (room : registry.HasRoom call) :
    registry.mapper.size + (registry.nodeCalls threads call).length ≤ 65535 := by
  unfold nodeCalls
  cases created : registry.creates call with
  | none => exact tallied.nodes
  | some key =>
      simp only
      split
      · exact tallied.nodes
      · unfold Mapper.grows
        split
        · exact tallied.nodes
        · rename_i free
          have unlocked : registry.mapper.locked = false := by simpa using free
          have few := (room key created).1 unlocked
          have calls := Mapper.nextCalls_missing key 1 { registry.mapper with locked := true }
          have array : registry.mapper.abuf = registry.mapper.stepBuf := by
            simp [Mapper.stepBuf, tallied.settled unlocked]
          rw [Mapper.missing, array] at few
          exact (Nat.add_le_add_left calls _).trans few

theorem calls_sizes (threads : Nat) (registry : Registry) (call : Call) :
    (registry.nodeCalls threads call).map Mapper.size =
      List.range' registry.mapper.size (registry.nodeCalls threads call).length := by
  unfold nodeCalls
  split
  · rfl
  · split
    · rfl
    · unfold Mapper.grows
      split
      · rfl
      · exact Mapper.nextCalls_sizes _ _ _

theorem calls_allocated (tallied : Tallied registry used) :
    ∀ mapper ∈ registry.nodeCalls threads call, mapper.Allocated := by
  unfold nodeCalls
  split
  · simp
  · split
    · simp
    · unfold Mapper.grows
      split
      · simp
      · exact Mapper.nextCalls_allocated tallied.allocated.locking

/-- A call of `_next` meets a size that a `u16` can count on from. -/
theorem call_number (tallied : Tallied registry used) (room : registry.HasRoom call)
    {mapper : Mapper} (member : mapper ∈ registry.nodeCalls threads call) :
    mapper.next.2 = 1 + mapper.size := by
  have sized : mapper.size ∈ (registry.nodeCalls threads call).map Mapper.size :=
    List.mem_map_of_mem member
  rw [calls_sizes, List.mem_range'_1] at sized
  have few := tallied.few_calls threads room
  rw [Mapper.next_number, u16]
  omega

theorem numbers_eq (tallied : Tallied registry used) (room : registry.HasRoom call) :
    registry.numbers threads call =
      List.range' (1 + registry.mapper.size) (registry.nodeCalls threads call).length := by
  calc registry.numbers threads call
      = (registry.nodeCalls threads call).map fun mapper => 1 + mapper.size :=
        List.map_congr_left fun _ member => tallied.call_number room member
    _ = ((registry.nodeCalls threads call).map Mapper.size).map (1 + ·) := by
        rw [List.map_map]
        rfl
    _ = List.range' (1 + registry.mapper.size) (registry.nodeCalls threads call).length := by
        rw [calls_sizes, List.map_add_range']

theorem used_append (tallied : Tallied registry used) (room : registry.HasRoom call) :
    used ++ registry.numbers threads call =
      List.range' 1 (registry.mapper.size + (registry.nodeCalls threads call).length) := by
  rw [tallied.numbers_eq room, tallied.used, List.range'_append_1]

end Tallied

/-- A look-up that creates nothing leaves the registry as it is. -/
theorem getQueue_kept {key : Bytes} {create : Bool}
    (nothing : registry.creates (.get key create) = none) :
    (registry.getQueue threads key create).Ends (fun _ after => after = registry)
      fun _ after => after = registry := by
  unfold getQueue
  cases found : registry.mapper.find key with
  | none => trivial
  | some n =>
      simp only
      split
      · cases registry.slot n with
        | none => trivial
        | some result => rfl
      · rename_i zero
        cases create with
        | false => rfl
        | true =>
            have missing : registry.mapper.find key = some 0 := by
              rw [found]
              simpa using zero
            rw [creates, if_pos missing] at nothing
            cases nothing

theorem getQueue_created (threads : Nat) {key name : Bytes} {create : Bool}
    (created : registry.creates (.get key create) = some name) :
    name = key ∧ registry.getQueue threads key create = registry.createQueue threads key := by
  cases create with
  | false => cases created
  | true =>
      by_cases missing : registry.mapper.find key = some 0
      · rw [creates, if_pos missing, Option.some.injEq] at created
        refine ⟨created.symm, ?_⟩
        rw [getQueue, missing]
        rfl
      · rw [creates, if_neg missing] at created
        cases created

theorem call_get (kept : Registry → Prop) {key : Bytes} {create : Bool}
    {found : Except Exc (Option Nat)} {removed : Option QueueLine}
    (ends : (registry.getQueue threads key create).Ends (fun _ after => kept after)
      fun _ after => kept after)
    (returns : registry.call threads (.get key create) = some (found, removed, after)) :
    kept after := by
  unfold call at returns
  simp only at returns
  cases outcome : registry.getQueue threads key create with
  | returned state value =>
      rw [outcome] at returns ends
      cases returns
      exact ends
  | thrown state error =>
      rw [outcome] at returns ends
      cases returns
      exact ends
  | fault =>
      rw [outcome] at returns
      cases returns

theorem removeQueue_tallied (tallied : Tallied registry used) {key : Bytes}
    {removed : Option QueueLine} (step : registry.removeQueue key = some (after, removed)) :
    Tallied after used := by
  unfold removeQueue at step
  split at step
  · cases step
  · rename_i mapper n deleted
    obtain ⟨allocated, sameSize, settled⟩ :=
      Mapper.del_grown tallied.allocated tallied.settled deleted
    have numbered : used = List.range' 1 mapper.size := by rw [sameSize, tallied.used]
    have few : mapper.size ≤ 65535 := by rw [sameSize]; exact tallied.nodes
    split at step
    · cases step
      exact ⟨allocated, settled, numbered, few, tallied.slots⟩
    · split at step
      · cases step
        exact ⟨allocated, settled, numbered, few, by rw [List.length_set]; exact tallied.slots⟩
      · cases step

namespace Tallied

theorem createQueue (tallied : Tallied registry used) (threads : Nat) {key : Bytes} {create : Bool}
    (room : registry.HasRoom (.get key create))
    (created : registry.creates (.get key create) = some key) :
    (registry.createQueue threads key).Ends
      (fun _ after => Tallied after (used ++ registry.numbers threads (.get key create)))
      fun _ after => Tallied after (used ++ registry.numbers threads (.get key create)) := by
  have few := tallied.few_calls threads room
  rw [tallied.used_append room]
  obtain ⟨slots, position, placed, fewSlots, _⟩ :=
    place_spec (QueueLine.new threads key) tallied.slots (room key created).2
  have calls : registry.nodeCalls threads (.get key create) = registry.mapper.grows key := by
    rw [nodeCalls, created]
    simp only [placed]
  have grown := Mapper.add_ends (position + 1) key tallied.allocated
  rw [calls] at few ⊢
  have left : ∀ mapper, Mapper.Grown key registry.mapper mapper →
      Tallied ⟨mapper, slots⟩
        (List.range' 1 (registry.mapper.size + (registry.mapper.grows key).length)) :=
    fun mapper grown => ⟨grown.allocated, grown.settled, by rw [grown.size],
      by rw [grown.size]; exact few, fewSlots⟩
  unfold Registry.createQueue
  rw [placed]
  simp only
  cases added : registry.mapper.add key (position + 1) with
  | returned mapper value =>
      rw [added] at grown
      exact left mapper grown
  | thrown mapper error =>
      rw [added] at grown
      exact left mapper grown
  | fault => trivial

theorem called (tallied : Tallied registry used) (room : registry.HasRoom call)
    {found : Except Exc (Option Nat)} {removed : Option QueueLine}
    (returns : registry.call threads call = some (found, removed, after)) :
    Tallied after (used ++ registry.numbers threads call) := by
  cases call with
  | get key create =>
      cases created : registry.creates (.get key create) with
      | none =>
          have same := call_get (· = registry) (getQueue_kept created) returns
          rw [same, numbers, nodeCalls, created]
          simpa using tallied
      | some name =>
          obtain ⟨rfl, creation⟩ := getQueue_created threads created
          have ends := tallied.createQueue threads room created
          rw [← creation] at ends
          exact call_get _ ends returns
  | delete key =>
      have unnumbered : registry.numbers threads (.delete key) = [] := rfl
      rw [unnumbered, List.append_nil]
      unfold Registry.call at returns
      simp only at returns
      cases step : registry.removeQueue key with
      | none =>
          rw [step] at returns
          cases returns
      | some result =>
          rw [step] at returns
          cases returns
          exact removeQueue_tallied tallied step

/-- The next call within the bounds numbers as it should. -/
theorem counts (tallied : Tallied registry used) (room : registry.HasRoom call) :
    Counts threads registry used call := by
  refine ⟨?_, ?_, ?_⟩
  · rw [tallied.used_append room]
    exact List.nodup_range'
  · intro mapper member
    have number := tallied.call_number room member
    have allocated := (tallied.calls_allocated mapper member).next
    refine ⟨by omega, ?_⟩
    rw [← allocated.capacity, number]
    have inside := allocated.room
    rw [Mapper.next_size] at inside
    omega
  · intro key created
    obtain ⟨slots, position, placed, _, filled, _⟩ :=
      place_spec (QueueLine.new threads key) tallied.slots (room key created).2
    exact ⟨slots, position, position + 1, placed, Nat.succ_ne_zero _, rfl, filled⟩

end Tallied

theorem History.tallied (history : History HasRoom threads registry used) :
    Tallied registry used := by
  induction history with
  | new => exact new_tallied
  | step call _ meets returns ih => exact ih.called meets returns

/-- In every history of creations and deletions within 65535 nodes and slots no
number wraps. -/
theorem numbers_sound (history : History HasRoom threads registry used)
    (room : registry.HasRoom call) : Counts threads registry used call :=
  history.tallied.counts room

instance (registry : Registry) (call : Call) : Decidable (registry.HasRoom call) := by
  unfold HasRoom
  cases registry.creates call with
  | none => exact .isTrue fun _ same => nomatch same
  | some key =>
      exact decidable_of_iff
        ((registry.mapper.locked = false →
          registry.mapper.size + registry.mapper.missing (Mapper.rightChars key) ≤ 65535) ∧
        (registry.freeSlot ≠ none ∨ registry.queueList.length < 65535))
        ⟨fun few name same => Option.some.inj same ▸ few, fun few => few key rfl⟩

/-- `a` has been created and deleted, `b` is created next. -/
theorem numbers_sound_reused : ∃ registry used,
    registry.HasRoom (.get (ascii "b") true) ∧
      Counts 1 registry used (.get (ascii "b") true) :=
  ⟨_, _, by decide, numbers_sound
    (.step (.delete (ascii "a"))
      (.step (.get (ascii "a") true) .new (by decide) rfl) (by decide) rfl) (by decide)⟩

end Registry

namespace Mapper

/-! ### A name of 65535 letters -/

/-- The walk of `add` along nodes that it has just made comes to the call that
returns zero. -/
theorem nextCalls_wrap (n : Nat) {mapper : Mapper} (allocated : Allocated mapper)
    (unused : ∀ m, mapper.size - 1 < m → m ≤ mapper.stepBuf.length →
      getStep mapper.stepBuf m = some Step.zero)
    (total : mapper.size + n = 65535) :
    ∃ last ∈ nextCalls (List.replicate (n + 1) 97) mapper.size mapper, last.next.2 = 0 := by
  have nonempty := allocated.nonempty
  have room := allocated.room
  rw [allocated.capacity] at room
  have read : getStep mapper.stepBuf mapper.size = some Step.zero := unused _ (by omega) room
  have letter : childIndex 97 = some 65 := rfl
  have first : nextCalls (List.replicate (n + 1) 97) mapper.size mapper =
      mapper :: match mapper.next.1.writeStep mapper.size
          (fun step => step.link 65 mapper.next.2) with
        | none => []
        | some written => nextCalls (List.replicate n 97) mapper.next.2 written := by
    rw [List.replicate_succ, nextCalls, if_neg (by decide), letter, read]
    rfl
  rw [first]
  cases n with
  | zero =>
      refine ⟨mapper, List.mem_cons_self, ?_⟩
      rw [next_number, u16]
      omega
  | succ n =>
      obtain ⟨extra, extended⟩ := next_extends mapper
      have grown := allocated.next
      have longer := grown.room
      rw [grown.capacity, next_size] at longer
      have fresh : ∀ m, mapper.size - 1 < m → m ≤ mapper.next.1.stepBuf.length →
          getStep mapper.next.1.stepBuf m = some Step.zero := by
        intro m outside bound
        rw [extended] at bound ⊢
        exact getStep_replicate_zero unused extra m outside bound
      obtain ⟨written, writtenEq, sameBuf, sameSize, _⟩ :=
        writeStep_spec (fun step => step.link 65 mapper.next.2) (fresh mapper.size (by omega) (by omega))
      have number : mapper.next.2 = written.size := by
        rw [sameSize, next_number, next_size, u16]
        omega
      have still : ∀ m, written.size - 1 < m → m ≤ written.stepBuf.length →
          getStep written.stepBuf m = some Step.zero := by
        intro m outside bound
        rw [sameSize, next_size] at outside
        rw [sameBuf, List.length_set] at bound
        rw [sameBuf, getStep_set_ne nonempty (by omega)]
        exact fresh m (by omega) bound
      have size : written.size + n = 65535 := by
        rw [sameSize, next_size]
        omega
      obtain ⟨last, member, zero⟩ := nextCalls_wrap n (grown.write writtenEq) still size
      rw [writtenEq, number]
      exact ⟨last, List.mem_cons_of_mem mapper member, zero⟩

end Mapper

namespace Registry

/-- Creating a queue whose name is 65535 times the letter `a`, as the first one. -/
theorem numbers_wrap :
    ¬ ∀ (threads : Nat) (registry : Registry) (used : List Nat) (call : Call),
      History (fun _ _ => True) threads registry used → Counts threads registry used call := by
  intro always
  have counts := always 1 Registry.new [1] (.get (List.replicate 65535 97) true) .new
  have unused : ∀ m, Mapper.new.size - 1 < m → m ≤ Mapper.new.stepBuf.length →
      getStep Mapper.new.stepBuf m = some Step.zero := by
    intro m outside bound
    have nothing : ∀ n, 0 < n → n ≤ ([] : List Step).length → getStep [] n = some Step.zero := by
      intro n above below
      exact absurd above (Nat.not_lt.mpr below)
    exact getStep_replicate_zero nothing 4 m outside bound
  obtain ⟨last, member, zero⟩ :=
    Mapper.nextCalls_wrap 65534 Mapper.new_allocated.locking unused rfl
  have missing : ∀ n, Registry.new.mapper.find (List.replicate (n + 1) 97) = some 0 := fun _ => rfl
  have calls : Registry.new.nodeCalls 1 (.get (List.replicate (65534 + 1) 97) true) =
      Mapper.nextCalls (List.replicate (65534 + 1) 97) 1 { Mapper.new with locked := true } := by
    rw [nodeCalls, creates, if_pos (missing 65534)]
    rfl
  refine (counts.nodes last ?_).1 zero
  rw [calls]
  exact member

end Registry

end Ijson
