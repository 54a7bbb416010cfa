/-
The order in which queues are created.

`get_queue` looks a name up with pattern matching before it creates, so a name
that an existing pattern covers gets no queue of its own.  Two orders of
creation lead to the same routing exactly when neither creates a name after a
pattern that covers it.
-/

import Ijson.RegistryHistory

namespace Ijson

open PrefixTable

/-- The pattern `earlier` matches every name that starts with its stem. -/
def Covers (earlier later : Bytes) : Prop :=
  star ∈ earlier ∧ earlier.takeWhile (· ≠ star) <+: later

/-- No name comes after a pattern that covers it. -/
def PatternsLast (names : List Bytes) : Prop :=
  names.Pairwise fun earlier later => ¬ Covers earlier later

/-- The trie nodes of a list of names. -/
def nameNodes : List Bytes → Finset Bytes
  | [] => {[]}
  | name :: rest => stems [] name ∪ nameNodes rest

namespace Registry

/-- `get_queue(name, true)` for one name after the other. -/
def createAll (threads : Nat) : List Bytes → Registry → Option Registry
  | [], registry => some registry
  | name :: rest, registry =>
      match registry.getQueue threads name true with
      | .returned registry _ => createAll threads rest registry
      | _ => none

def nameAt (registry : Registry) (i : Nat) : Option Bytes :=
  registry.queueList[i]?.join.map QueueLine.name

/-- The name of the queue that serves requests for `q`. -/
def resolve (threads : Nat) (registry : Registry) (q : Bytes) : Option Bytes :=
  match registry.getQueue threads q false with
  | .returned registry (some i) => registry.nameAt i
  | _ => none

/-- The routing that a set of queue names asks for: the exact name, else the
longest matching pattern, else nothing. -/
structure RoutesTo (names : List Bytes) (q : Bytes) (result : Option Bytes) : Prop where
  exact : q ∈ names → star ∉ q → result = some q
  pattern : ¬ (q ∈ names ∧ star ∉ q) → ∀ name ∈ names, Covers name q →
    (∀ other ∈ names, Covers other q →
      (other.takeWhile (· ≠ star)).length ≤ (name.takeWhile (· ≠ star)).length) →
    result = some name
  missing : ¬ (q ∈ names ∧ star ∉ q) → (∀ name ∈ names, ¬ Covers name q) → result = none

/-- Both orders of creation give each name its own queue and route alike. -/
def SameRouting (threads : Nat) (left right : List Bytes) : Prop :=
  ∃ leftEnd rightEnd, createAll threads left Registry.new = some leftEnd ∧
    createAll threads right Registry.new = some rightEnd ∧
    (∀ name ∈ left, leftEnd.resolve threads name = some name ∧
      rightEnd.resolve threads name = some name) ∧
    ∀ q, leftEnd.resolve threads q = rightEnd.resolve threads q ∧
      RoutesTo left q (leftEnd.resolve threads q)

variable {threads : Nat} {registry : Registry} {nodes : Finset Bytes} {table : Table UInt8 Nat}

/-! ### Routing of a consistent registry -/

/-- The names of the queues by routing key. -/
def nameTable (registry : Registry) (table : Table UInt8 Nat) : Table UInt8 Bytes :=
  fun key => (table key).map fun value => (registry.nameAt (value - 1)).getD []

theorem nameAt_of_live {i : Nat} {line : QueueLine} (live : registry.LiveAt i line) :
    registry.nameAt i = some line.name := by
  rw [nameAt, live]
  rfl

theorem nameTable_eq_some_iff (holds : registry.Holds nodes table) (key : Key UInt8)
    (name : Bytes) :
    nameTable registry table key = some name ↔
      ∃ i line, registry.LiveAt i line ∧ line.name = name ∧ routingKey name = key := by
  unfold nameTable
  constructor
  · intro found
    obtain ⟨value, valueEq, nameEq⟩ := Option.map_eq_some_iff.mp found
    obtain ⟨i, line, valueIs, live, keyEq⟩ := (holds.entries key value).mp valueEq
    rw [valueIs, Nat.add_sub_cancel, nameAt_of_live live, Option.getD_some] at nameEq
    exact ⟨i, line, live, nameEq, nameEq ▸ keyEq⟩
  · rintro ⟨i, line, live, nameEq, keyEq⟩
    rw [← nameEq] at keyEq
    rw [← keyEq, holds.live_key live, Option.map_some, Nat.add_sub_cancel, nameAt_of_live live,
      Option.getD_some, nameEq]

theorem resolve_eq (holds : registry.Holds nodes table) (q : Bytes) :
    registry.resolve threads q = lookup (nameTable registry table) q := by
  unfold nameTable
  rw [lookup_map]
  unfold resolve
  cases found : lookup table q with
  | none => rw [getQueue_missing threads holds found, Option.map_none]
  | some value =>
      obtain ⟨owner, ownerEq⟩ := lookup_mem found
      obtain ⟨line, _, live⟩ := holds.value_live ownerEq
      simp only [getQueue_found threads holds found, Option.map_some, nameAt_of_live live,
        Option.getD_some]

/-! ### A history of creations only -/

/-- Exactly the queues of `done` have been created, in this order. -/
structure Grown (threads : Nat) (registry : Registry) (done : List Bytes)
    (table : Table UInt8 Nat) : Prop where
  holds : registry.Holds (nameNodes done) table
  slots : registry.queueList = done.map fun name => some (QueueLine.new threads name)

theorem Grown.live_iff {done : List Bytes} (grown : Grown threads registry done table) (i : Nat)
    (line : QueueLine) :
    registry.LiveAt i line ↔ ∃ name, done[i]? = some name ∧ line = QueueLine.new threads name := by
  rw [LiveAt, grown.slots, List.getElem?_map, Option.map_eq_some_iff]
  simp only [Option.some.injEq]
  exact exists_congr fun name => and_congr_right fun _ => eq_comm

theorem Grown.names (grown : Grown threads registry done table) (key : Key UInt8) (name : Bytes) :
    nameTable registry table key = some name ↔ name ∈ done ∧ routingKey name = key := by
  rw [nameTable_eq_some_iff grown.holds]
  constructor
  · rintro ⟨i, line, live, nameEq, keyEq⟩
    obtain ⟨owner, ownerEq, lineEq⟩ := (grown.live_iff i line).mp live
    rw [lineEq] at nameEq
    change owner = name at nameEq
    exact ⟨nameEq ▸ List.mem_of_getElem? ownerEq, keyEq⟩
  · rintro ⟨member, keyEq⟩
    obtain ⟨i, _, ownerEq⟩ := List.getElem_of_mem member
    exact ⟨i, QueueLine.new threads name, (grown.live_iff i _).mpr
      ⟨name, by rw [← ownerEq]; exact List.getElem?_eq_getElem _, rfl⟩, rfl, keyEq⟩

theorem Grown.full {done : List Bytes} (grown : Grown threads registry done table) :
    registry.freeSlot = none := by
  cases found : registry.freeSlot with
  | none => rfl
  | some i =>
      have isNull := (freeSlot_some found).2
      rw [grown.slots, List.getElem?_map, Option.map_eq_some_iff] at isNull
      obtain ⟨_, _, impossible⟩ := isNull
      contradiction

theorem Grown.length {done : List Bytes} (grown : Grown threads registry done table) :
    registry.queueList.length = done.length := by
  rw [grown.slots, List.length_map]

theorem new_grown : Grown threads new [] PrefixTable.empty :=
  { holds := new_holds
    slots := rfl }

/-- A name is looked up in vain exactly when it is new and not covered. -/
theorem Grown.absent_iff {done : List Bytes} (grown : Grown threads registry done table)
    (name : Bytes) (new : name ∉ done) :
    lookup table name = none ↔ ∀ earlier ∈ done, ¬ Covers earlier name := by
  have mapped : lookup table name = none ↔ lookup (nameTable registry table) name = none := by
    unfold nameTable
    rw [lookup_map, Option.map_eq_none_iff]
  rw [mapped, lookup_eq_none_iff]
  constructor
  · rintro ⟨_, noPattern⟩ earlier member ⟨isPattern, isPrefix⟩
    have present := (grown.names _ earlier).mpr ⟨member, routingKey_of_star isPattern⟩
    rw [noPattern _ isPrefix] at present
    contradiction
  · intro uncovered
    constructor
    · rw [Option.eq_none_iff_forall_ne_some]
      intro owner present
      obtain ⟨member, keyEq⟩ := (grown.names _ owner).mp present
      exact new ((routingKey_eq_exact keyEq).1 ▸ member)
    · intro stem isPrefix
      rw [Option.eq_none_iff_forall_ne_some]
      intro owner present
      obtain ⟨member, keyEq⟩ := (grown.names _ owner).mp present
      obtain ⟨isPattern, stemEq, _⟩ := routingKey_eq_pattern keyEq
      exact uncovered owner member ⟨isPattern, stemEq ▸ isPrefix⟩

theorem mem_nameNodes (names : List Bytes) (stem : Bytes) :
    stem ∈ nameNodes names ↔ stem = [] ∨ ∃ name ∈ names, stem ∈ stems [] name := by
  induction names with
  | nil => simp [nameNodes]
  | cons name rest ih =>
      rw [nameNodes, Finset.mem_union, ih]
      simp only [List.mem_cons, exists_eq_or_imp]
      exact or_left_comm

theorem nameNodes_append (done : List Bytes) (name : Bytes) :
    nameNodes (done ++ [name]) = nameNodes done ∪ stems [] name := by
  induction done with
  | nil =>
      simp only [nameNodes, List.nil_append]
      exact Finset.union_comm _ _
  | cons first done ih =>
      rw [List.cons_append, nameNodes, nameNodes, ih, Finset.union_assoc]

theorem Grown.create {done : List Bytes} (grown : Grown threads registry done table)
    {name : Bytes} (valid : ValidKey name) (absent : lookup table name = none)
    (below : done.length < 65535)
    (fits : (nameNodes (done ++ [name])).card ≤ 65535) :
    ∃ after afterTable position,
      registry.getQueue threads name true = .returned after (some position) ∧
      Grown threads after (done ++ [name]) afterTable := by
  rw [nameNodes_append] at fits
  have room : registry.freeSlot ≠ none ∨ registry.queueList.length < 65535 :=
    Or.inr (by rw [grown.length]; exact below)
  obtain ⟨after, position, afterEq, afterHolds, _⟩ :=
    createQueue_spec threads grown.holds valid.childIndex absent room fits
  refine ⟨after, _, position, by rw [getQueue_create threads grown.holds absent, afterEq],
    ⟨by rw [nameNodes_append]; exact afterHolds, ?_⟩⟩
  -- the new queue goes to the end of the vector
  have notFull : ¬ registry.queueList.length ≥ 65536 := by
    rw [grown.length]
    omega
  simp only [createQueue, place, grown.full, if_neg notFull] at afterEq
  split at afterEq
  · rw [Outcome.returned.injEq] at afterEq
    rw [← afterEq.1, List.map_append, grown.slots]
    rfl
  · contradiction
  · contradiction

/-! ### Creating a list of names -/

/-- Names that fit and come before the patterns covering them are all created. -/
theorem createAll_grown (rest : List Bytes) {done : List Bytes}
    (grown : Grown threads registry done table) (distinct : (done ++ rest).Nodup)
    (valid : ∀ name ∈ rest, ValidKey name) (ordered : PatternsLast (done ++ rest))
    (small : (done ++ rest).length ≤ 65535) (fits : (nameNodes (done ++ rest)).card ≤ 65535) :
    ∃ after afterTable, createAll threads rest registry = some after ∧
      Grown threads after (done ++ rest) afterTable := by
  induction rest generalizing registry done table with
  | nil => exact ⟨registry, table, rfl, by rwa [List.append_nil]⟩
  | cons name rest ih =>
      have fresh : name ∉ done := fun member =>
        (List.nodup_append.mp distinct).2.2 name member name List.mem_cons_self rfl
      have uncovered : ∀ earlier ∈ done, ¬ Covers earlier name := fun earlier member =>
        (List.pairwise_append.mp ordered).2.2 earlier member name List.mem_cons_self
      rw [List.length_append, List.length_cons] at small
      have headFits : (nameNodes (done ++ [name])).card ≤ 65535 := by
        refine le_trans (Finset.card_le_card fun stem member => ?_) fits
        rw [mem_nameNodes] at member ⊢
        refine member.imp_right fun ⟨owner, ownerMember, stemMember⟩ =>
          ⟨owner, ?_, stemMember⟩
        simp only [List.mem_append, List.mem_cons, List.not_mem_nil, or_false] at ownerMember ⊢
        tauto
      obtain ⟨middle, middleTable, position, middleEq, middleGrown⟩ :=
        grown.create (valid name List.mem_cons_self) ((grown.absent_iff name fresh).mpr uncovered)
          (by omega) headFits
      have assoc : done ++ name :: rest = done ++ [name] ++ rest := by simp
      rw [assoc] at distinct ordered fits
      obtain ⟨after, afterTable, afterEq, afterGrown⟩ := ih middleGrown distinct
        (fun other member => valid other (List.mem_cons_of_mem name member)) ordered
        (by simp only [List.length_append, List.length_singleton]; omega) fits
      exact ⟨after, afterTable, by rw [createAll, middleEq]; exact afterEq,
        by rw [assoc]; exact afterGrown⟩

/-- A `get_queue` changes nothing unless it creates. -/
theorem getQueue_cases {key : Bytes} {create : Bool} {after : Registry} {result : Option Nat}
    (step : registry.getQueue threads key create = .returned after result) :
    after = registry ∨
      (create = true ∧ registry.createQueue threads key = .returned after result) := by
  unfold getQueue at step
  split at step
  · contradiction
  · split at step
    · split at step
      · contradiction
      · rw [Outcome.returned.injEq] at step
        exact Or.inl step.1.symm
    · split at step
      · rw [Outcome.returned.injEq] at step
        exact Or.inl step.1.symm
      · rename_i creating
        split at step
        · contradiction
        · split at step
          · split at step
            · contradiction
            · rw [Outcome.returned.injEq] at step
              exact Or.inl step.1.symm
          · exact Or.inr ⟨by simpa using creating, step⟩

theorem place_members {line : QueueLine} {slots : List (Option QueueLine)} {position n : Nat}
    (placed : registry.place line = some (slots, position, n)) (other : QueueLine)
    (member : some other ∈ slots) : other = line ∨ some other ∈ registry.queueList := by
  have fromSet : ∀ i, some other ∈ registry.queueList.set i (some line) →
      other = line ∨ some other ∈ registry.queueList := by
    intro i setMember
    rcases List.mem_or_eq_of_mem_set setMember with older | newer
    · exact Or.inr older
    · exact Or.inl (Option.some.inj newer)
  have fromEnd : ∀ slots : List (Option QueueLine), some other ∈ slots ++ [some line] →
      some other ∈ slots ∨ other = line := by
    intro slots endMember
    rw [List.mem_append, List.mem_singleton, Option.some.injEq] at endMember
    exact endMember
  unfold place at placed
  split at placed
  · split at placed
    · simp only [Option.some.injEq, Prod.mk.injEq] at placed
      rw [← placed.1] at member
      rcases fromEnd _ member with inSet | new
      · exact fromSet _ inSet
      · exact Or.inl new
    · simp only [Option.some.injEq, Prod.mk.injEq] at placed
      rw [← placed.1] at member
      exact fromSet _ member
  · split at placed
    · contradiction
    · simp only [Option.some.injEq, Prod.mk.injEq] at placed
      rw [← placed.1] at member
      exact (fromEnd _ member).symm

/-- The queues after a `get_queue` are old ones, or have the name asked for. -/
theorem getQueue_names {key : Bytes} {create : Bool} {after : Registry} {result : Option Nat}
    (step : registry.getQueue threads key create = .returned after result) (i : Nat)
    (line : QueueLine) (live : after.LiveAt i line) :
    line.name = key ∨ ∃ j, registry.LiveAt j line := by
  rcases getQueue_cases step with same | ⟨_, created⟩
  · exact Or.inr ⟨i, same ▸ live⟩
  · unfold createQueue at created
    split at created
    · contradiction
    · rename_i slots position n placed
      split at created
      · rw [Outcome.returned.injEq] at created
        rw [← created.1] at live
        rcases place_members placed line (List.mem_of_getElem? live) with new | old
        · exact Or.inl (by rw [new]; rfl)
        · exact Or.inr (List.mem_iff_getElem?.mp old)
      · contradiction
      · contradiction

theorem createAll_names (rest : List Bytes) {after : Registry}
    (run : createAll threads rest registry = some after) (i : Nat) (line : QueueLine)
    (live : after.LiveAt i line) : line.name ∈ rest ∨ ∃ j, registry.LiveAt j line := by
  induction rest generalizing registry with
  | nil =>
      rw [createAll, Option.some.injEq] at run
      exact Or.inr ⟨i, run ▸ live⟩
  | cons name rest ih =>
      rw [createAll] at run
      split at run
      · rename_i middle result step
        rcases ih run with later | ⟨j, middleLive⟩
        · exact Or.inl (List.mem_cons_of_mem name later)
        · rcases getQueue_names step j line middleLive with same | old
          · exact Or.inl (by rw [same]; exact List.mem_cons_self)
          · exact Or.inr old
      · contradiction

/-- A name that resolves to itself has a queue of that name. -/
theorem resolve_self {name : Bytes} (resolved : registry.resolve threads name = some name) :
    ∃ i line, registry.LiveAt i line ∧ line.name = name := by
  have nameAtLive : ∀ registry : Registry, ∀ i, registry.nameAt i = some name →
      ∃ line, registry.LiveAt i line ∧ line.name = name := by
    intro registry i found
    obtain ⟨line, lineEq, nameEq⟩ := Option.map_eq_some_iff.mp found
    exact ⟨line, Option.join_eq_some_iff.mp lineEq, nameEq⟩
  unfold resolve at resolved
  split at resolved
  · rename_i after i step
    obtain ⟨line, live, nameEq⟩ := nameAtLive after i resolved
    rcases getQueue_cases step with same | ⟨impossible, _⟩
    · exact ⟨i, line, same ▸ live, nameEq⟩
    · contradiction
  · contradiction

/-- The creation after which 65536 slots are in use stores the number zero:
its name cannot be found. -/
theorem Grown.overflow {done : List Bytes} (grown : Grown threads registry done table)
    {name : Bytes} (valid : ValidKey name) (absent : lookup table name = none)
    (full : done.length = 65535) {after : Registry} {result : Option Nat}
    (step : registry.getQueue threads name true = .returned after result) :
    after.mapper.find name = some 0 ∧ after.queueList.length = 65536 ∧
      after.freeSlot = none := by
  have lengthEq := grown.length
  rw [getQueue_create threads grown.holds absent] at step
  have notFull : ¬ registry.queueList.length ≥ 65536 := by omega
  have number : u16 (registry.queueList.length + 1) = 0 := by
    rw [lengthEq, full]
    rfl
  simp only [createQueue, place, grown.full, if_neg notFull, number] at step
  have added := registry.mapper.add_spec grown.holds.mapper name 0 valid.childIndex
  rcases Nat.lt_or_ge 65535 (nameNodes done ∪ stems [] name).card with above | below
  · rw [added.2 above] at step
    contradiction
  · obtain ⟨mapper, mapperEq, mapperHolds⟩ := added.1 below
    simp only [mapperEq, Outcome.returned.injEq] at step
    rw [stored_zero, ← routingKey_absent absent, Function.update_eq_self] at mapperHolds
    rw [← step.1]
    refine ⟨?_, ?_, ?_⟩
    · rw [Mapper.find_spec mapperHolds, absent]
      rfl
    · rw [List.length_append, List.length_singleton]
      omega
    · unfold freeSlot
      rw [List.take_of_length_le (by rw [List.length_append, List.length_singleton]; omega),
        List.findIdx?_eq_none_iff]
      intro slot member
      rw [List.mem_append, List.mem_singleton, grown.slots] at member
      rcases member with old | new
      · obtain ⟨_, _, slotEq⟩ := List.mem_map.mp old
        rw [← slotEq]
        rfl
      · rw [new]
        rfl

/-- If every name ends up with its own queue, then each was new, uncovered and
within the limits when it was created. -/
theorem createAll_necessary (rest : List Bytes) {done : List Bytes}
    (grown : Grown threads registry done table) (small : done.length ≤ 65535)
    (distinct : (done ++ rest).Nodup) (valid : ∀ name ∈ rest, ValidKey name) {after : Registry}
    (run : createAll threads rest registry = some after)
    (own : ∀ name ∈ rest, after.resolve threads name = some name) :
    (∀ name ∈ rest, ∀ earlier ∈ done, ¬ Covers earlier name) ∧ PatternsLast rest ∧
      (nameNodes (done ++ rest)).card ≤ 65535 ∧ (done ++ rest).length ≤ 65535 := by
  induction rest generalizing registry done table with
  | nil =>
      refine ⟨by simp, List.Pairwise.nil, ?_, by simpa using small⟩
      rw [List.append_nil, grown.holds.mapper.card_eq]
      exact grown.holds.mapper.numbered
  | cons name rest ih =>
      have nameValid := valid name List.mem_cons_self
      have fresh : name ∉ done := fun member =>
        (List.nodup_append.mp distinct).2.2 name member name List.mem_cons_self rfl
      have notLater : name ∉ rest :=
        (List.nodup_cons.mp (List.nodup_append.mp distinct).2.1).1
      rw [createAll] at run
      split at run
      · rename_i middle result step
        have absent : lookup table name = none := by
          cases found : lookup table name with
          | none => rfl
          | some value =>
              -- found under a pattern, the name never gets a queue
              rw [getQueue_found threads grown.holds found, Outcome.returned.injEq] at step
              obtain ⟨i, line, live, nameEq⟩ := resolve_self (own name List.mem_cons_self)
              rcases createAll_names rest run i line live with later | ⟨j, middleLive⟩
              · exact absurd (nameEq ▸ later) notLater
              · rw [← step.1] at middleLive
                obtain ⟨owner, ownerEq, lineEq⟩ := (grown.live_iff j line).mp middleLive
                rw [lineEq] at nameEq
                change owner = name at nameEq
                exact absurd (nameEq ▸ List.mem_of_getElem? ownerEq) fresh
        have uncovered := (grown.absent_iff name fresh).mp absent
        have below : done.length < 65535 := by
          rcases Nat.lt_or_ge done.length 65535 with below | above
          · exact below
          · obtain ⟨lost, longer, noSlot⟩ :=
              grown.overflow nameValid absent (by omega) step
            cases rest with
            | nil =>
                rw [createAll, Option.some.injEq] at run
                have selfResolved := own name List.mem_cons_self
                rw [← run] at selfResolved
                simp [resolve, getQueue, lost] at selfResolved
            | cons next rest =>
                have nextNotEarlier : ∀ i line, middle.LiveAt i line → line.name ≠ next := by
                  intro i line live nameEq
                  rcases getQueue_names step i line live with same | ⟨j, oldLive⟩
                  · rw [nameEq] at same
                    exact notLater (same ▸ List.mem_cons_self)
                  · obtain ⟨owner, ownerEq, lineEq⟩ := (grown.live_iff j line).mp oldLive
                    rw [lineEq] at nameEq
                    change owner = next at nameEq
                    exact (List.nodup_append.mp distinct).2.2 next
                      (nameEq ▸ List.mem_of_getElem? ownerEq) next (by simp) rfl
                have nextNotLater : next ∉ rest :=
                  (List.nodup_cons.mp (List.nodup_cons.mp
                    (List.nodup_append.mp distinct).2.1).2).1
                obtain ⟨i, line, live, nameEq⟩ := resolve_self (own next (by simp))
                rw [createAll] at run
                split at run
                · rename_i beyond beyondResult nextStep
                  have stuck : middle.createQueue threads next = .fault := by
                    simp [createQueue, place, noSlot, longer]
                  have unchanged : beyond = middle := by
                    rcases getQueue_cases nextStep with same | ⟨_, created⟩
                    · exact same
                    · rw [stuck] at created
                      contradiction
                  rcases createAll_names rest run i line live with later | ⟨j, beyondLive⟩
                  · exact absurd (nameEq ▸ later) nextNotLater
                  · rw [unchanged] at beyondLive
                    exact absurd nameEq (nextNotEarlier j line beyondLive)
                · contradiction
        have fits : (nameNodes (done ++ [name])).card ≤ 65535 := by
          rw [nameNodes_append]
          rcases Nat.lt_or_ge 65535 (nameNodes done ∪ stems [] name).card with above | below'
          · rw [getQueue_create threads grown.holds absent] at step
            unfold createQueue at step
            split at step
            · contradiction
            · rename_i slots position n placed
              have faulted := (registry.mapper.add_spec grown.holds.mapper name n
                nameValid.childIndex).2 above
              rw [faulted] at step
              contradiction
          · exact below'
        obtain ⟨created, createdTable, position, createdEq, createdGrown⟩ :=
          grown.create nameValid absent below fits
        rw [createdEq, Outcome.returned.injEq] at step
        have assoc : done ++ name :: rest = done ++ [name] ++ rest := by simp
        rw [assoc] at distinct ⊢
        obtain ⟨restUncovered, restOrdered, restFits, restSmall⟩ := ih
          (step.1 ▸ createdGrown)
          (by rw [List.length_append, List.length_singleton]; omega) distinct
          (fun other member => valid other (List.mem_cons_of_mem name member)) run
          (fun other member => own other (List.mem_cons_of_mem name member))
        refine ⟨?_, List.Pairwise.cons ?_ restOrdered, restFits, restSmall⟩
        · intro other member
          rcases List.mem_cons.mp member with same | later
          · rw [same]
            exact uncovered
          · exact fun earlier earlierMember => restUncovered other later earlier
              (List.mem_append_left _ earlierMember)
        · intro other member
          exact restUncovered other member name (by simp)
      · contradiction

/-- Routing in a registry with exactly the queues of `names`. -/
theorem Grown.routesTo {names : List Bytes} (grown : Grown threads registry names table)
    (q : Bytes) : RoutesTo names q (registry.resolve threads q) := by
  rw [resolve_eq grown.holds]
  have exactIff : ¬ (q ∈ names ∧ star ∉ q) → nameTable registry table (.exact q) = none := by
    intro noExact
    rw [Option.eq_none_iff_forall_ne_some]
    intro owner present
    obtain ⟨member, keyEq⟩ := (grown.names _ owner).mp present
    obtain ⟨same, noStar⟩ := routingKey_eq_exact keyEq
    exact noExact ⟨same ▸ member, noStar⟩
  refine { exact := ?_, pattern := ?_, missing := ?_ }
  · intro member noStar
    exact lookup_exact _ q q ((grown.names _ q).mpr ⟨member, routingKey_of_exact noStar⟩)
  · intro noExact name member covers maximal
    refine lookup_pattern _ q _ name (exactIff noExact) covers.2
      ((grown.names _ name).mpr ⟨member, routingKey_of_star covers.1⟩) ?_
    intro other otherPrefix present
    obtain ⟨owner, ownerEq⟩ := Option.ne_none_iff_exists'.mp present
    obtain ⟨ownerMember, ownerKey⟩ := (grown.names _ owner).mp ownerEq
    obtain ⟨isPattern, stemEq, _⟩ := routingKey_eq_pattern ownerKey
    have bound := maximal owner ownerMember ⟨isPattern, stemEq ▸ otherPrefix⟩
    rwa [stemEq] at bound
  · intro noExact noPattern
    rw [lookup_eq_none_iff]
    refine ⟨exactIff noExact, fun stem isPrefix => ?_⟩
    rw [Option.eq_none_iff_forall_ne_some]
    intro owner present
    obtain ⟨member, keyEq⟩ := (grown.names _ owner).mp present
    obtain ⟨isPattern, stemEq, _⟩ := routingKey_eq_pattern keyEq
    exact noPattern owner member ⟨isPattern, stemEq ▸ isPrefix⟩

theorem Grown.resolve_own {names : List Bytes} (grown : Grown threads registry names table)
    {name : Bytes} (member : name ∈ names) : registry.resolve threads name = some name := by
  obtain ⟨i, line, live, nameEq, _⟩ := (nameTable_eq_some_iff grown.holds _ name).mp
    ((grown.names _ name).mpr ⟨member, rfl⟩)
  have found := lookup_own_name grown.holds.named _ (grown.holds.live_key live)
  rw [nameEq] at found
  unfold resolve
  rw [getQueue_found threads grown.holds found]
  change registry.nameAt (i + 1 - 1) = some name
  rw [Nat.add_sub_cancel, nameAt_of_live live, nameEq]

theorem nameNodes_perm {left right : List Bytes} (same : left.Perm right) :
    nameNodes left = nameNodes right := by
  induction same with
  | nil => rfl
  | cons name _ ih => rw [nameNodes, nameNodes, ih]
  | swap first second rest =>
      rw [nameNodes, nameNodes, nameNodes, nameNodes, Finset.union_left_comm]
  | trans _ _ ihLeft ihRight => rw [ihLeft, ihRight]

/-- Two orders of the same valid names route alike, with a queue for each name,
exactly when in both orders no name comes after a pattern that covers it, and
the names need no more than 65535 nodes and slots. -/
theorem sameRouting_iff (threads : Nat) (left right : List Bytes) (same : left.Perm right)
    (distinct : left.Nodup) (valid : ∀ name ∈ left, ValidKey name) :
    SameRouting threads left right ↔
      PatternsLast left ∧ PatternsLast right ∧ left.length ≤ 65535 ∧
        (nameNodes left).card ≤ 65535 := by
  have rightDistinct : right.Nodup := same.nodup_iff.mp distinct
  have rightValid : ∀ name ∈ right, ValidKey name :=
    fun name member => valid name (same.mem_iff.mpr member)
  constructor
  · rintro ⟨leftEnd, rightEnd, leftRun, rightRun, own, _⟩
    obtain ⟨_, leftOrdered, leftFits, leftSmall⟩ := createAll_necessary left new_grown
      (by decide) (by simpa using distinct) valid leftRun (fun name member => (own name member).1)
    obtain ⟨_, rightOrdered, _, _⟩ := createAll_necessary right new_grown
      (by decide) (by simpa using rightDistinct) rightValid rightRun
      (fun name member => (own name (same.mem_iff.mpr member)).2)
    exact ⟨leftOrdered, rightOrdered, by simpa using leftSmall, by simpa using leftFits⟩
  · rintro ⟨leftOrdered, rightOrdered, small, fits⟩
    obtain ⟨leftEnd, leftTable, leftRun, leftGrown⟩ := createAll_grown left new_grown
      (by simpa using distinct) valid (by simpa using leftOrdered) (by simpa using small)
      (by simpa using fits)
    obtain ⟨rightEnd, rightTable, rightRun, rightGrown⟩ := createAll_grown right new_grown
      (by simpa using rightDistinct) rightValid (by simpa using rightOrdered)
      (by simpa using same.length_eq ▸ small) (by simpa using nameNodes_perm same ▸ fits)
    rw [List.nil_append] at leftGrown rightGrown
    refine ⟨leftEnd, rightEnd, leftRun, rightRun, ?_, ?_⟩
    · exact fun name member => ⟨leftGrown.resolve_own member,
        rightGrown.resolve_own (same.mem_iff.mp member)⟩
    · intro q
      refine ⟨?_, leftGrown.routesTo q⟩
      rw [resolve_eq leftGrown.holds, resolve_eq rightGrown.holds]
      have tablesEq : nameTable leftEnd leftTable = nameTable rightEnd rightTable := by
        funext key
        refine Option.ext fun name => ?_
        rw [leftGrown.names, rightGrown.names, same.mem_iff]
      rw [tablesEq]

/-- Exact name first, then the pattern: both orders below are fine. -/
theorem sameRouting_iff_sample :
    SameRouting 1 [ascii "a/b", ascii "c/*"] [ascii "c/*", ascii "a/b"] ↔
      PatternsLast [ascii "a/b", ascii "c/*"] ∧ PatternsLast [ascii "c/*", ascii "a/b"] ∧
        [ascii "a/b", ascii "c/*"].length ≤ 65535 ∧
        (nameNodes [ascii "a/b", ascii "c/*"]).card ≤ 65535 :=
  sameRouting_iff 1 _ _ (by decide) (by decide) (by decide)

/-- With `a/*` created first, the creation of `a/b` is lost. -/
theorem pattern_before_name_differs :
    [ascii "a/*", ascii "a/b"].Perm [ascii "a/b", ascii "a/*"] ∧
      [ascii "a/*", ascii "a/b"].Nodup ∧
      (∀ name ∈ [ascii "a/*", ascii "a/b"], ValidKey name) ∧
      ¬ SameRouting 1 [ascii "a/*", ascii "a/b"] [ascii "a/b", ascii "a/*"] := by
  refine ⟨by decide, by decide, by decide, ?_⟩
  rintro ⟨leftEnd, rightEnd, leftRun, _, own, _⟩
  obtain ⟨_, ordered, _⟩ := createAll_necessary [ascii "a/*", ascii "a/b"] new_grown
    (by decide) (by decide) (by decide) leftRun (fun name member => (own name member).1)
  have uncovered := (List.pairwise_cons.mp ordered).1 (ascii "a/b") List.mem_cons_self
  exact uncovered ⟨by decide, by decide⟩

end Registry

end Ijson
