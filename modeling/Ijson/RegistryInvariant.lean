/-
The trie and the slot vector of the registry stay inverse to each other.

The table behind the trie is defined exactly at the routing keys of the live
queues, with the number of their slot plus one.  From this follow the safety
of every lookup and the effect of creations and deletions.
-/

import Mathlib.Data.List.TakeWhile
import Ijson.Registry
import Ijson.Program

namespace Ijson

open PrefixTable

/-! ### Looking up a name by itself -/

theorem stem_initial (name : Bytes) : name.takeWhile (· ≠ star) <+: name :=
  List.takeWhile_prefix _

theorem star_notMem_takeWhile (name : Bytes) : star ∉ name.takeWhile (· ≠ star) := by
  intro member
  simpa using List.mem_takeWhile_imp member

/-- A prefix without `*` ends before the first `*` of the name. -/
theorem length_le_takeWhile {stem name : Bytes} (isPrefix : stem <+: name)
    (noStar : star ∉ stem) : stem.length ≤ (name.takeWhile (· ≠ star)).length := by
  induction stem generalizing name with
  | nil => exact Nat.zero_le _
  | cons a stem ih =>
      cases name with
      | nil => simp at isPrefix
      | cons b name =>
          obtain ⟨same, tailPrefix⟩ := List.cons_prefix_cons.mp isPrefix
          subst same
          have notStar : a ≠ star := fun isStar => noStar (isStar ▸ List.mem_cons_self)
          rw [List.takeWhile_cons_of_pos (by simpa using notStar)]
          exact Nat.succ_le_succ (ih tailPrefix
            fun member => noStar (List.mem_cons_of_mem a member))

theorem routingKey_of_star {name : Bytes} (isPattern : star ∈ name) :
    routingKey name = .pattern (name.takeWhile (· ≠ star)) := if_pos isPattern

theorem routingKey_of_exact {name : Bytes} (isExact : star ∉ name) :
    routingKey name = .exact name := if_neg isExact

theorem routingKey_eq_exact {name word : Bytes} (keyEq : routingKey name = .exact word) :
    name = word ∧ star ∉ word := by
  by_cases isPattern : star ∈ name
  · rw [routingKey_of_star isPattern] at keyEq
    contradiction
  · rw [routingKey_of_exact isPattern, Key.exact.injEq] at keyEq
    exact ⟨keyEq, keyEq ▸ isPattern⟩

theorem routingKey_eq_pattern {name stem : Bytes} (keyEq : routingKey name = .pattern stem) :
    star ∈ name ∧ name.takeWhile (· ≠ star) = stem ∧ star ∉ stem := by
  by_cases isPattern : star ∈ name
  · rw [routingKey_of_star isPattern, Key.pattern.injEq] at keyEq
    exact ⟨isPattern, keyEq, keyEq ▸ star_notMem_takeWhile name⟩
  · rw [routingKey_of_exact isPattern] at keyEq
    contradiction

/-- The keys of a table are routing keys. -/
def Named (table : Table UInt8 Nat) : Prop :=
  ∀ key, table key ≠ none → ∃ name, routingKey name = key

theorem lookup_own_name {table : Table UInt8 Nat} (named : Named table) (name : Bytes)
    {value : Nat} (defined : table (routingKey name) = some value) :
    lookup table name = some value := by
  by_cases isPattern : star ∈ name
  · have noExact : table (.exact name) = none := by
      by_contra present
      obtain ⟨owner, ownerKey⟩ := named _ present
      exact (routingKey_eq_exact ownerKey).2 isPattern
    rw [routingKey_of_star isPattern] at defined
    refine lookup_pattern table name _ value noExact (stem_initial name) defined ?_
    intro other otherPrefix present
    obtain ⟨owner, ownerKey⟩ := named _ present
    exact length_le_takeWhile otherPrefix (routingKey_eq_pattern ownerKey).2.2
  · rw [routingKey_of_exact isPattern] at defined
    exact lookup_exact table name value defined

theorem routingKey_absent {table : Table UInt8 Nat} {name : Bytes}
    (absent : lookup table name = none) : table (routingKey name) = none := by
  obtain ⟨noExact, noPattern⟩ := (lookup_eq_none_iff table name).mp absent
  by_cases isPattern : star ∈ name
  · rw [routingKey_of_star isPattern]
    exact noPattern _ (stem_initial name)
  · rw [routingKey_of_exact isPattern]
    exact noExact

/-- A value found by a lookup is stored at one of the keys. -/
theorem lookup_mem {table : Table UInt8 Nat} {name : Bytes} {value : Nat}
    (found : lookup table name = some value) : ∃ key, table key = some value := by
  unfold lookup at found
  rcases Option.or_eq_some_iff.mp found with atExact | ⟨_, atPattern⟩
  · exact ⟨_, atExact⟩
  · by_contra missing
    push Not at missing
    obtain ⟨stem, stemEq⟩ : ∃ stem, table (.pattern stem) = some value := by
      clear missing found
      generalize patternsEq : (fun stem => table (.pattern stem)) = patterns at atPattern
      have spread : ∀ (patterns : List UInt8 → Option Nat) (word : Bytes),
          longest patterns word = some value → ∃ stem, patterns stem = some value := by
        intro patterns word
        induction word generalizing patterns with
        | nil => exact fun atRoot => ⟨[], atRoot⟩
        | cons letter rest ih =>
            intro below
            rcases Option.or_eq_some_iff.mp below with inner | ⟨_, outer⟩
            · obtain ⟨stem, stemEq⟩ := ih _ inner
              exact ⟨letter :: stem, stemEq⟩
            · exact ⟨[], outer⟩
      obtain ⟨stem, stemEq⟩ := spread patterns name atPattern
      exact ⟨stem, by rw [← patternsEq] at stemEq; exact stemEq⟩
    exact missing _ stemEq

namespace Registry

variable {registry : Registry} {nodes : Finset Bytes} {table : Table UInt8 Nat}

/-- Slot `i` holds the queue `line`. -/
def LiveAt (registry : Registry) (i : Nat) (line : QueueLine) : Prop :=
  registry.queueList[i]? = some (some line)

structure Holds (registry : Registry) (nodes : Finset Bytes) (table : Table UInt8 Nat) :
    Prop where
  mapper : registry.mapper.Holds nodes table
  entries : ∀ key value, table key = some value ↔
    ∃ i line, value = i + 1 ∧ registry.LiveAt i line ∧ routingKey line.name = key
  numbered : registry.queueList.length ≤ 65535

theorem new_holds : Holds new {[]} PrefixTable.empty := by
  refine ⟨Mapper.new_holds, ?_, by decide⟩
  intro key value
  constructor
  · intro impossible
    cases impossible
  · rintro ⟨i, line, _, live, _⟩
    simp [LiveAt, new] at live

theorem Holds.named (holds : registry.Holds nodes table) : Named table := by
  intro key present
  obtain ⟨value, valueEq⟩ := Option.ne_none_iff_exists'.mp present
  obtain ⟨_, line, _, _, keyEq⟩ := (holds.entries key value).mp valueEq
  exact ⟨line.name, keyEq⟩

theorem Holds.live_key (holds : registry.Holds nodes table) {i : Nat} {line : QueueLine}
    (live : registry.LiveAt i line) : table (routingKey line.name) = some (i + 1) :=
  (holds.entries _ _).mpr ⟨i, line, rfl, live, rfl⟩

theorem Holds.value_live (holds : registry.Holds nodes table) {key : Key UInt8} {value : Nat}
    (defined : table key = some value) :
    ∃ line, 1 ≤ value ∧ registry.LiveAt (value - 1) line := by
  obtain ⟨i, line, valueEq, live, _⟩ := (holds.entries key value).mp defined
  subst valueEq
  exact ⟨line, by omega, by simpa using live⟩

theorem Holds.find_zero_iff (holds : registry.Holds nodes table) (key : Bytes) :
    registry.mapper.find key = some 0 ↔ lookup table key = none := by
  rw [Mapper.find_spec holds.mapper, Option.some.injEq]
  cases found : lookup table key with
  | none => simp
  | some value =>
      obtain ⟨owner, ownerEq⟩ := lookup_mem found
      obtain ⟨_, positive, _⟩ := holds.value_live ownerEq
      simp only [Option.getD_some, reduceCtorEq, iff_false]
      omega

/-- (i): a number in the trie is that of a live slot. -/
theorem Holds.find_live (holds : registry.Holds nodes table) {key : Bytes} {n : Nat}
    (found : registry.mapper.find key = some n) (nonzero : n ≠ 0) :
    ∃ line, registry.LiveAt (n - 1) line := by
  rw [Mapper.find_spec holds.mapper, Option.some.injEq] at found
  cases valueEq : lookup table key with
  | none =>
      rw [valueEq] at found
      exact absurd found.symm nonzero
  | some value =>
      rw [valueEq, Option.getD_some] at found
      obtain ⟨owner, ownerEq⟩ := lookup_mem valueEq
      obtain ⟨line, _, live⟩ := holds.value_live ownerEq
      exact ⟨line, found ▸ live⟩

/-- (ii): the name of a live queue leads to its slot. -/
theorem Holds.find_name (holds : registry.Holds nodes table) {i : Nat} {line : QueueLine}
    (live : registry.LiveAt i line) : registry.mapper.find line.name = some (i + 1) := by
  rw [Mapper.find_spec holds.mapper, lookup_own_name holds.named _ (holds.live_key live)]
  rfl

/-- (iii): routing keys of live queues are distinct. -/
theorem Holds.keys_distinct (holds : registry.Holds nodes table) {i j : Nat}
    {left right : QueueLine} (leftLive : registry.LiveAt i left)
    (rightLive : registry.LiveAt j right)
    (same : routingKey left.name = routingKey right.name) : i = j := by
  have leftKey := holds.live_key leftLive
  rw [same, holds.live_key rightLive, Option.some.injEq] at leftKey
  omega

/-! ### Slots -/

theorem slot_of_live {n : Nat} {line : QueueLine} (live : registry.LiveAt (n - 1) line) :
    registry.slot n = some (some (n - 1)) := by
  unfold slot
  rw [live]

theorem freeSlot_some {i : Nat} (found : registry.freeSlot = some i) :
    i < 65536 ∧ registry.queueList[i]? = some none := by
  unfold freeSlot at found
  obtain ⟨inside, isNull, _⟩ := List.findIdx?_eq_some_iff_getElem.mp found
  rw [List.length_take] at inside
  rw [List.getElem_take, Option.isNone_iff_eq_none] at isNull
  exact ⟨by omega, by rw [List.getElem?_eq_getElem (by omega), isNull]⟩

/-- A new queue stands where none was; nothing else moves. -/
abbrev Placed (line : QueueLine) (slots after : List (Option QueueLine)) : Prop :=
  ∀ j : Nat, after[j]?.join = slots[j]?.join ∨ slots[j]?.join = none ∧ after[j]?.join = some line

theorem placed_append {line : QueueLine} {slots after : List (Option QueueLine)}
    (placed : Placed line slots after) : Placed line slots (after ++ [some line]) := by
  intro j
  by_cases inside : j < after.length
  · rw [List.getElem?_append_left inside]
    exact placed j
  · have old := placed j
    rw [List.getElem?_eq_none (l := after) (by omega)] at old
    have free : slots[j]?.join = none := by
      rcases old with same | ⟨free, _⟩
      · exact same.symm
      · exact free
    rw [List.getElem?_append_right (by omega), free]
    cases j - after.length with
    | zero => exact .inr ⟨rfl, rfl⟩
    | succ more => exact .inl rfl

theorem placed_set {line : QueueLine} {slots : List (Option QueueLine)} {i : Nat}
    (free : slots[i]? = some none) : Placed line slots (slots.set i (some line)) := by
  intro j
  by_cases same : i = j
  · subst same
    rw [List.getElem?_set_self (List.getElem?_eq_some_iff.mp free).1, free]
    exact .inr ⟨rfl, rfl⟩
  · rw [List.getElem?_set_ne same]
    exact .inl rfl

theorem place_placed {line : QueueLine} {slots : List (Option QueueLine)} {position n : Nat}
    (placed : registry.place line = some (slots, position, n)) :
    Placed line registry.queueList slots := by
  unfold place at placed
  cases freeEq : registry.freeSlot with
  | none =>
      rw [freeEq] at placed
      simp only at placed
      split at placed
      · cases placed
      · cases placed
        exact placed_append fun _ => .inl rfl
  | some i =>
      rw [freeEq] at placed
      have free : Placed line registry.queueList (registry.queueList.set i (some line)) :=
        placed_set (freeSlot_some freeEq).2
      simp only at placed
      split at placed
      · cases placed
        exact placed_append free
      · cases placed
        exact free

/-- Looking up a queue, or creating it, leaves the other queues as they are. -/
theorem getQueue_placed (threads : Nat) (key : Bytes) (create : Bool) :
    (registry.getQueue threads key create).Ends
      (fun _ after => Placed (QueueLine.new threads key) registry.queueList after.queueList)
      fun _ after => Placed (QueueLine.new threads key) registry.queueList after.queueList := by
  have kept : Placed (QueueLine.new threads key) registry.queueList registry.queueList :=
    fun _ => .inl rfl
  have created : (registry.createQueue threads key).Ends
      (fun _ after => Placed (QueueLine.new threads key) registry.queueList after.queueList)
      fun _ after => Placed (QueueLine.new threads key) registry.queueList after.queueList := by
    unfold createQueue
    cases placeEq : registry.place (QueueLine.new threads key) with
    | none => trivial
    | some placed =>
        obtain ⟨slots, position, n⟩ := placed
        have same := place_placed placeEq
        simp only
        cases registry.mapper.add key n with
        | returned mapper value => exact same
        | thrown mapper error => exact same
        | fault => trivial
  unfold getQueue
  cases registry.mapper.find key with
  | none => trivial
  | some n =>
      simp only
      split
      · cases registry.slot n with
        | none => trivial
        | some found => exact kept
      · split
        · exact kept
        · exact created

theorem freeSlot_none (small : registry.queueList.length ≤ 65536)
    (notFound : registry.freeSlot = none) (i : Nat) : registry.queueList[i]? ≠ some none := by
  intro isNull
  unfold freeSlot at notFound
  rw [List.take_of_length_le small, List.findIdx?_eq_none_iff] at notFound
  have impossible := notFound none (List.mem_of_getElem? isNull)
  simp at impossible

/-- What `place` does while the slot numbers fit. -/
theorem place_spec (line : QueueLine) (numbered : registry.queueList.length ≤ 65535)
    (room : registry.freeSlot ≠ none ∨ registry.queueList.length < 65535) :
    ∃ slots position, registry.place line = some (slots, position, position + 1) ∧
      slots.length ≤ 65535 ∧ slots[position]? = some (some line) ∧
      (∀ i, i ≠ position → ∀ other : QueueLine,
        slots[i]? = some (some other) ↔ registry.queueList[i]? = some (some other)) ∧
      (∀ other : QueueLine, registry.queueList[position]? ≠ some (some other)) := by
  unfold place
  cases found : registry.freeSlot with
  | some i =>
      obtain ⟨_, isNull⟩ := freeSlot_some found
      have inside : i < registry.queueList.length := (List.getElem?_eq_some_iff.mp isNull).1
      have number : u16 (i + 1) = i + 1 := by
        rw [u16]
        omega
      refine ⟨registry.queueList.set i (some line), i, ?_, by rw [List.length_set]; exact numbered,
        List.getElem?_set_self inside, ?_, ?_⟩
      · simp [number]
      · intro j different other
        rw [List.getElem?_set_ne (Ne.symm different)]
      · intro other present
        rw [isNull] at present
        simp at present
  | none =>
      have below : registry.queueList.length < 65535 := room.resolve_left fun present =>
        present found
      have number : u16 (registry.queueList.length + 1) = registry.queueList.length + 1 := by
        rw [u16]
        omega
      refine ⟨registry.queueList ++ [some line], registry.queueList.length, ?_, ?_, ?_, ?_, ?_⟩
      · have notFull : ¬ registry.queueList.length ≥ 65536 := by omega
        simp only [if_neg notFull, number]
      · rw [List.length_append, List.length_singleton]
        omega
      · exact List.getElem?_concat_length
      · intro i different other
        rcases Nat.lt_or_ge i registry.queueList.length with inside | outside
        · rw [List.getElem?_append_left inside]
        · rw [List.getElem?_eq_none (by rw [List.length_append, List.length_singleton]; omega),
            List.getElem?_eq_none outside]
      · intro other present
        rw [List.getElem?_eq_none (le_refl _)] at present
        contradiction

/-! ### The two operations -/

theorem getQueue_found (threads : Nat) (holds : registry.Holds nodes table) {key : Bytes}
    {value : Nat} (found : lookup table key = some value) (create : Bool) :
    registry.getQueue threads key create = .returned registry (some (value - 1)) := by
  obtain ⟨owner, ownerEq⟩ := lookup_mem found
  obtain ⟨line, positive, live⟩ := holds.value_live ownerEq
  have nonzero : value ≠ 0 := by omega
  simp only [getQueue, Mapper.find_spec holds.mapper, found, Option.getD_some, if_pos nonzero,
    slot_of_live live]

theorem getQueue_missing (threads : Nat) (holds : registry.Holds nodes table) {key : Bytes}
    (absent : lookup table key = none) :
    registry.getQueue threads key false = .returned registry none := by
  simp [getQueue, Mapper.find_spec holds.mapper, absent]

theorem getQueue_create (threads : Nat) (holds : registry.Holds nodes table) {key : Bytes}
    (absent : lookup table key = none) :
    registry.getQueue threads key true = registry.createQueue threads key := by
  simp [getQueue, Mapper.find_spec holds.mapper, absent]

/-- A creation for which the trie has taken the name adds one queue and changes no other. -/
theorem createQueue_adds (threads : Nat) (holds : registry.Holds nodes table) {key : Bytes}
    {newNodes : Finset Bytes} (absent : lookup table key = none)
    (room : registry.freeSlot ≠ none ∨ registry.queueList.length < 65535)
    (adds : ∀ n mapper, n ≠ 0 → registry.mapper.add key n = .returned mapper () →
      mapper.Holds newNodes (Function.update table (routingKey key) (some n)))
    (returns : ∃ position slots n mapper,
      registry.place (QueueLine.new threads key) = some (slots, position, n) ∧
        registry.mapper.add key n = .returned mapper ()) :
    ∃ created position,
      registry.createQueue threads key = .returned created (some position) ∧
      created.Holds newNodes (Function.update table (routingKey key) (some (position + 1))) ∧
      created.LiveAt position (QueueLine.new threads key) ∧
      (∀ i, i ≠ position → ∀ line, created.LiveAt i line ↔ registry.LiveAt i line) ∧
      (∀ line, ¬ registry.LiveAt position line) := by
  obtain ⟨slots, position, placed, slotsNumbered, newSlot, otherSlots, wasFree⟩ :=
    place_spec (QueueLine.new threads key) holds.numbered room
  obtain ⟨_, _, n, mapper, placedEq, mapperEq⟩ := returns
  rw [placed, Option.some.injEq, Prod.mk.injEq, Prod.mk.injEq] at placedEq
  rw [← placedEq.2.2] at mapperEq
  have mapperHolds := adds _ mapper (Nat.succ_ne_zero position) mapperEq
  have noKey := routingKey_absent absent
  refine ⟨{ mapper := mapper, queueList := slots }, position, ?_, ⟨mapperHolds, ?_, slotsNumbered⟩,
    newSlot, fun i different line => otherSlots i different line, wasFree⟩
  · rw [createQueue, placed]
    simp only [mapperEq]
  · intro other value
    by_cases same : other = routingKey key
    · subst same
      rw [Function.update_self, Option.some.injEq]
      constructor
      · intro valueEq
        exact ⟨position, _, valueEq.symm, newSlot, rfl⟩
      · rintro ⟨i, line, valueEq, live, keyEq⟩
        by_cases atPosition : i = position
        · rw [valueEq, atPosition]
        · have oldLive := (otherSlots i atPosition line).mp live
          have oldKey := holds.live_key oldLive
          rw [keyEq, noKey] at oldKey
          contradiction
    · rw [Function.update_of_ne same, holds.entries]
      constructor
      · rintro ⟨i, line, valueEq, live, keyEq⟩
        have different : i ≠ position := fun isPosition => wasFree line (isPosition ▸ live)
        exact ⟨i, line, valueEq, (otherSlots i different line).mpr live, keyEq⟩
      · rintro ⟨i, line, valueEq, live, keyEq⟩
        by_cases atPosition : i = position
        · subst atPosition
          have lineEq : some (some line) = some (some (QueueLine.new threads key)) :=
            live.symm.trans newSlot
          simp only [Option.some.injEq] at lineEq
          rw [lineEq] at keyEq
          exact absurd keyEq.symm same
        · exact ⟨i, line, valueEq, (otherSlots i atPosition line).mp live, keyEq⟩

/-- A creation that fits adds one queue and changes no other. -/
theorem createQueue_spec (threads : Nat) (holds : registry.Holds nodes table) {key : Bytes}
    (valid : ∀ a ∈ key, childIndex a ≠ none) (absent : lookup table key = none)
    (room : registry.freeSlot ≠ none ∨ registry.queueList.length < 65535)
    (fits : (nodes ∪ stems [] key).card ≤ 65535) :
    ∃ created position,
      registry.createQueue threads key = .returned created (some position) ∧
      created.Holds (nodes ∪ stems [] key)
        (Function.update table (routingKey key) (some (position + 1))) ∧
      created.LiveAt position (QueueLine.new threads key) ∧
      (∀ i, i ≠ position → ∀ line, created.LiveAt i line ↔ registry.LiveAt i line) ∧
      (∀ line, ¬ registry.LiveAt position line) := by
  have adds : ∀ n mapper, n ≠ 0 → registry.mapper.add key n = .returned mapper () →
      mapper.Holds (nodes ∪ stems [] key) (Function.update table (routingKey key) (some n)) := by
    intro n mapper nonzero returned
    obtain ⟨added, addedEq, addedHolds⟩ := (registry.mapper.add_spec holds.mapper key n valid).1 fits
    rw [stored_of_ne_zero nonzero] at addedHolds
    rw [addedEq] at returned
    cases returned
    exact addedHolds
  obtain ⟨slots, position, placed, -, -, -, -⟩ :=
    place_spec (QueueLine.new threads key) holds.numbered room
  obtain ⟨mapper, mapperEq, -⟩ :=
    (registry.mapper.add_spec holds.mapper key (position + 1) valid).1 fits
  exact createQueue_adds threads holds absent room adds ⟨_, _, _, mapper, placed, mapperEq⟩

/-- A deletion frees exactly the slot of the queue with this routing key. -/
theorem removeQueue_spec (holds : registry.Holds nodes table) (key : Bytes) :
    ∃ removed result, registry.removeQueue key = some (removed, result) ∧
      removed.Holds nodes (Function.update table (routingKey key) none) ∧
      removed.queueList.length = registry.queueList.length ∧
      (∀ i line, removed.LiveAt i line ↔
        registry.LiveAt i line ∧ routingKey line.name ≠ routingKey key) ∧
      (∀ i line, registry.LiveAt i line → routingKey line.name = routingKey key →
        result = some line ∧ removed.queueList[i]? = some none) ∧
      (table (routingKey key) = none → result = none) := by
  obtain ⟨mapper, mapperEq, mapperHolds⟩ := registry.mapper.del_spec holds.mapper key
  cases found : table (routingKey key) with
  | none =>
      have noOwner : ∀ i line, registry.LiveAt i line → routingKey line.name ≠ routingKey key := by
        intro i line live keyEq
        have lineKey := holds.live_key live
        rw [keyEq, found] at lineKey
        contradiction
      refine ⟨{ registry with mapper := mapper }, none, ?_, ⟨mapperHolds, ?_, holds.numbered⟩, rfl,
        fun i line => ⟨fun live => ⟨live, noOwner i line live⟩, And.left⟩,
        fun i line live keyEq => absurd keyEq (noOwner i line live), fun _ => rfl⟩
      · rw [removeQueue, mapperEq, found]
        rfl
      · rw [← found, Function.update_eq_self]
        exact holds.entries
  | some value =>
      obtain ⟨i, line, valueEq, live, keyEq⟩ := (holds.entries _ value).mp found
      have inside : i < registry.queueList.length := (List.getElem?_eq_some_iff.mp live).1
      have freed : ∀ j other, (registry.queueList.set i none)[j]? = some (some other) ↔
          registry.LiveAt j other ∧ routingKey other.name ≠ routingKey key := by
        intro j other
        by_cases same : j = i
        · subst same
          rw [List.getElem?_set_self inside]
          constructor
          · intro impossible
            simp at impossible
          · rintro ⟨otherLive, different⟩
            have otherEq : some (some other) = some (some line) := otherLive.symm.trans live
            simp only [Option.some.injEq] at otherEq
            exact absurd (otherEq ▸ keyEq) different
        · rw [List.getElem?_set_ne (Ne.symm same)]
          constructor
          · intro otherLive
            exact ⟨otherLive, fun otherKey =>
              same (holds.keys_distinct otherLive live (otherKey.trans keyEq.symm))⟩
          · exact And.left
      refine ⟨{ mapper := mapper, queueList := registry.queueList.set i none }, some line, ?_,
        ⟨mapperHolds, ?_, ?_⟩, List.length_set, freed, ?_, fun impossible => by contradiction⟩
      · rw [removeQueue, mapperEq, found]
        simp only [Option.getD_some, valueEq, Nat.succ_ne_zero, if_false, Nat.add_sub_cancel]
        rw [show registry.queueList[i]? = some (some line) from live]
      · intro other otherValue
        by_cases same : other = routingKey key
        · subst same
          rw [Function.update_self]
          constructor
          · intro impossible
            cases impossible
          · rintro ⟨j, otherLine, _, otherLive, otherKey⟩
            exact absurd otherKey ((freed j otherLine).mp otherLive).2
        · rw [Function.update_of_ne same, holds.entries]
          constructor
          · rintro ⟨j, otherLine, otherEq, otherLive, otherKey⟩
            exact ⟨j, otherLine, otherEq,
              (freed j otherLine).mpr ⟨otherLive, otherKey ▸ same⟩, otherKey⟩
          · rintro ⟨j, otherLine, otherEq, otherLive, otherKey⟩
            exact ⟨j, otherLine, otherEq, ((freed j otherLine).mp otherLive).1, otherKey⟩
      · change (registry.queueList.set i none).length ≤ 65535
        rw [List.length_set]
        exact holds.numbered
      · intro j other otherLive otherKey
        have same : j = i := holds.keys_distinct otherLive live (otherKey.trans keyEq.symm)
        subst same
        have otherEq : some (some other) = some (some line) := otherLive.symm.trans live
        simp only [Option.some.injEq] at otherEq
        exact ⟨by rw [otherEq], List.getElem?_set_self inside⟩

end Registry

end Ijson
