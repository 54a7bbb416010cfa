/-
Readers of the trie during an `add`.

`find` takes no lock.  The individual writes of `add` are listed here one by
one; the array that is published after any of them is the trie before the call
or the trie after it, possibly with nodes that hold no value yet.
-/

import Ijson.MapperHistory
import Ijson.RegistryFailure

namespace Ijson

open PrefixTable

namespace Mapper

/-! ### The writes of `add` -/

/-- The states after each write of `_next`.  `fresh` is what the memory holds
that the allocator returns. -/
def nextMoments (fresh : Nat → Nat → Step) (mapper : Mapper) : List Mapper :=
  let counted := { mapper with size := mapper.size + 1 }
  if mapper.size + 1 ≤ mapper.cap then [counted]
  else
    let cap := if mapper.cap ≥ 512 then mapper.cap + 256 else mapper.cap * 2
    let enlarged := { counted with cap := cap }
    let extra := (List.range (cap - mapper.cap)).map (fresh cap)
    [counted, enlarged, { enlarged with bufT := some (mapper.stepBuf ++ extra) }, mapper.next.1]

/-- The states after each write of the loop of `add`. -/
def walkMoments (fresh : Nat → Nat → Step) (value : Nat) : Bytes → Nat → Mapper → List Mapper
  | [], nstep, mapper =>
      (mapper.writeStep nstep (fun step => { step with endValue := value })).toList
  | a :: rest, nstep, mapper =>
      if a = star then (mapper.writeStep nstep (fun step => { step with std := value })).toList
      else
        match childIndex a with
        | none => []
        | some index =>
            match getStep mapper.stepBuf nstep with
            | none => []
            | some step =>
                if step.k index = 0 then
                  mapper.nextMoments fresh ++
                    match mapper.next.1.writeStep nstep
                        (fun step => step.link index mapper.next.2) with
                    | none => []
                    | some written =>
                        written :: walkMoments fresh value rest mapper.next.2 written
                else walkMoments fresh value rest (step.k index) mapper

/-- The exchange of the array, the reset of `buf_t` and the unlock. -/
def publishMoments (mapper : Mapper) : List Mapper :=
  match mapper.bufT with
  | none => [{ mapper with locked := false }]
  | some buf => [{ mapper with abuf := buf }, mapper.publish, { mapper.publish with locked := false }]

/-- The states of one run of `add` after each of its writes, the mutex
included; none when it waits for the mutex. -/
def moments (fresh : Nat → Nat → Step) (mapper : Mapper) (name : Bytes) (value : Nat) :
    List Mapper :=
  if mapper.locked then []
  else
    let held := { mapper with locked := true }
    held :: walkMoments fresh value name 1 held ++
      match addLoop value name 1 held with
      | .returned walked _ => walked.publishMoments
      | _ => []

/-! ### Published arrays -/

/-- An array from which `find` reads a table. -/
def Answers (buf : List Step) (table : Table UInt8 Nat) : Prop :=
  ∃ size path, Trie buf size path ∧ Stores buf size path table

/-- Every child of every node of the array lies inside the array. -/
def Inside (buf : List Step) : Prop :=
  ∀ n step index, getStep buf n = some step → step.k index ≤ buf.length

variable {buf : List Step} {mapper : Mapper} {path : Nat → Bytes} {table : Table UInt8 Nat}

theorem Answers.inside (answers : Answers buf table) : Inside buf := by
  obtain ⟨size, path, trie, _⟩ := answers
  intro n step index read
  by_cases linked : step.k index = 0
  · omega
  · have fits := trie.fits
    rcases Nat.lt_or_ge size n with outside | inside
    · rw [trie.unused n outside (getStep_range read).2, Option.some.injEq] at read
      rw [← read] at linked
      exact absurd rfl linked
    · have child := trie.child n step index inside read linked
      omega

theorem Answers.find (answers : Answers buf table) (q : Bytes) :
    findLoop buf q 1 0 = some ((lookup table q).getD 0) := by
  obtain ⟨size, path, trie, stores⟩ := answers
  obtain ⟨result, resultEq, resultSpec⟩ :=
    findLoop_spec trie stores q (n := 1) (le_refl 1) trie.nonempty 0
  rw [trie.root, stored_zero, Option.or_none] at resultSpec
  simp only [List.nil_append] at resultSpec
  rw [resultEq, lookup, ← resultSpec, stored_getD]

theorem Ready.answers (ready : Ready mapper path table) : Answers mapper.stepBuf table :=
  ⟨mapper.size, path, ready.trie, ready.stores⟩

theorem Holds.answers {nodes : Finset Bytes} (holds : Holds mapper nodes table) :
    Answers mapper.abuf table := by
  obtain ⟨path, ready, _⟩ := holds.represented
  rw [← holds.abuf_eq]
  exact ready.answers

theorem nextMoments_abuf {fresh : Nat → Nat → Step} {moment : Mapper}
    (member : moment ∈ mapper.nextMoments fresh) : moment.abuf = mapper.abuf := by
  unfold nextMoments at member
  simp only at member
  split at member
  · rw [List.mem_singleton] at member
    rw [member]
  · rename_i full
    simp only [List.mem_cons, List.not_mem_nil, or_false] at member
    rcases member with first | second | third | last
    · rw [first]
    · rw [second]
    · rw [third]
    · rw [last, next]
      simp only [if_neg full]

theorem next_abuf (mapper : Mapper) : mapper.next.1.abuf = mapper.abuf := by
  unfold next
  simp only
  split <;> rfl

/-- A write goes to the private copy when there is one. -/
theorem writeStep_abuf {written : Mapper} {n : Nat} {change : Step → Step}
    (writtenEq : mapper.writeStep n change = some written) :
    written.abuf = mapper.abuf ∨ written.abuf = written.stepBuf := by
  unfold writeStep at writtenEq
  split at writtenEq
  · cases writtenEq
  · cases copy : mapper.bufT with
    | none =>
        simp only [copy, Option.some.injEq] at writtenEq
        subst writtenEq
        right
        simp [stepBuf, copy]
    | some buf =>
        simp only [copy, Option.some.injEq] at writtenEq
        subst writtenEq
        left
        rfl

/-! ### Every moment of the walk -/

/-- The published array after a write that leaves the array under construction
with the table `next`. -/
theorem written_answers {written : Mapper} {n : Nat} {change : Step → Step}
    {writtenPath : Nat → Bytes} {nextTable : Table UInt8 Nat}
    (published : Answers mapper.abuf table)
    (writtenEq : mapper.writeStep n change = some written)
    (ready : Ready written writtenPath nextTable) :
    Answers written.abuf table ∨ Answers written.abuf nextTable := by
  rcases writeStep_abuf writtenEq with same | current
  · left
    rw [same]
    exact published
  · right
    rw [current]
    exact ready.answers

theorem walkMoments_answer (fresh : Nat → Nat → Step) (value : Nat) (rest : Bytes)
    (valid : ∀ a ∈ rest, childIndex a ≠ none) (ready : Ready mapper path table) {n : Nat}
    (positive : 1 ≤ n) (inside : n ≤ mapper.size) (published : Answers mapper.abuf table)
    (fits : (words mapper.size path ∪ stems (path n) rest).card ≤ 65535) :
    ∀ moment ∈ walkMoments fresh value rest n mapper, Answers moment.abuf table ∨
      Answers moment.abuf (Function.update table (keyAfter (path n) rest) (stored value)) := by
  induction rest generalizing mapper path n with
  | nil =>
      obtain ⟨step, read⟩ := exists_getStep positive (le_trans inside ready.trie.fits)
      obtain ⟨written, writtenEq, _, writtenReady⟩ := ready.finish_exact inside read value
      intro moment member
      rw [walkMoments, writtenEq, Option.toList_some, List.mem_singleton] at member
      rw [member]
      exact written_answers published writtenEq writtenReady
  | cons a rest ih =>
      have nWord : path n ∈ words mapper.size path := mem_words.mpr ⟨n, positive, inside, rfl⟩
      obtain ⟨step, read⟩ := exists_getStep positive (le_trans inside ready.trie.fits)
      intro moment member
      by_cases isStar : a = star
      · obtain ⟨written, writtenEq, _, writtenReady⟩ := ready.finish_pattern inside read value
        rw [walkMoments, if_pos isStar, writtenEq, Option.toList_some, List.mem_singleton]
          at member
        rw [keyAfter, if_pos isStar, member]
        exact written_answers published writtenEq writtenReady
      · have restValid : ∀ b ∈ rest, childIndex b ≠ none :=
          fun b restMember => valid b (List.mem_cons_of_mem a restMember)
        obtain ⟨index, found⟩ := Option.ne_none_iff_exists'.mp (valid a List.mem_cons_self)
        have byteEq : indexByte index = a := indexByte_of_childIndex found
        rw [stems, if_neg isStar, Finset.union_insert,
          Finset.insert_eq_of_mem (Finset.mem_union_left _ nWord)] at fits
        rw [keyAfter, if_neg isStar]
        rw [walkMoments, if_neg isStar, found] at member
        simp only [read] at member
        by_cases unlinked : step.k index = 0
        · rw [if_pos unlinked] at member
          have stemsMember : path n ++ [a] ∈ stems (path n ++ [a]) rest := walked_mem_stems _ _
          have newSubset : insert (path n ++ [a]) (words mapper.size path) ⊆
              words mapper.size path ∪ stems (path n ++ [a]) rest :=
            Finset.insert_subset (Finset.mem_union_right _ stemsMember) Finset.subset_union_left
          have unknown : path n ++ [a] ∉ words mapper.size path := by
            rw [← byteEq]
            exact ready.trie.absent_beyond inside read unlinked []
          have below := le_trans (Finset.card_le_card newSubset) fits
          rw [Finset.card_insert_of_notMem unknown, ready.trie.card_words] at below
          obtain ⟨position, written, writtenEq, sizeEq, writtenReady⟩ :=
            ready.create inside read unlinked (by omega)
          simp only [writtenEq] at member
          -- the new node holds no value, so the table is the old one
          have writtenPublished : Answers written.abuf table := by
            rcases written_answers (by rw [next_abuf]; exact published) writtenEq writtenReady with
              old | new
            · exact old
            · exact new
          rcases List.mem_append.mp member with counting | later
          · left
            rw [nextMoments_abuf counting]
            exact published
          · rcases List.mem_cons.mp later with linking | walking
            · left
              rw [linking]
              exact writtenPublished
            · have newPath : linkPath path mapper.size n index (mapper.size + 1) =
                  path n ++ [a] := by
                rw [linkPath_new, byteEq]
              have newUnion : words written.size (linkPath path mapper.size n index) ∪
                  stems (path n ++ [a]) rest =
                  words mapper.size path ∪ stems (path n ++ [a]) rest := by
                rw [sizeEq, words_link, byteEq, Finset.insert_union,
                  Finset.insert_eq_of_mem (Finset.mem_union_right _ stemsMember)]
              have result := ih restValid writtenReady (n := mapper.size + 1) (by omega)
                (by omega) writtenPublished
              rw [newPath, newUnion] at result
              rw [position] at walking
              exact result fits moment walking
        · rw [if_neg unlinked] at member
          obtain ⟨above, below, childPath⟩ := ready.trie.child n step index inside read unlinked
          have result := ih restValid ready (n := step.k index) (by omega) below published
          rw [childPath, byteEq] at result
          exact result fits moment member

theorem publishMoments_answer {walked : Mapper} (finished : Answers walked.stepBuf table) :
    ∀ moment ∈ walked.publishMoments, Answers moment.abuf table := by
  intro moment member
  unfold publishMoments at member
  cases copy : walked.bufT with
  | none =>
      rw [stepBuf, copy] at finished
      simp only [copy, List.mem_singleton] at member
      rw [member]
      exact finished
  | some buf =>
      rw [stepBuf, copy] at finished
      simp only [copy, publish, List.mem_cons, List.not_mem_nil, or_false] at member
      rcases member with exchanged | reset | unlocked
      · rw [exchanged]
        exact finished
      · rw [reset]
        exact finished
      · rw [unlocked]
        exact finished

/-- The published array at every moment of an `add` that fits. -/
theorem moments_answer {nodes : Finset Bytes} (holds : Holds mapper nodes table)
    (fresh : Nat → Nat → Step) (name : Bytes) (value : Nat)
    (valid : ∀ a ∈ name, childIndex a ≠ none) (fits : (nodes ∪ stems [] name).card ≤ 65535) :
    ∀ moment ∈ mapper.moments fresh name value, Answers moment.abuf table ∨
      Answers moment.abuf (Function.update table (routingKey name) (stored value)) := by
  obtain ⟨path, ready, wordsEq⟩ := holds.represented
  have published : Answers mapper.abuf table := holds.answers
  have heldReady : Ready { mapper with locked := true } path table :=
    ⟨ready.trie, ready.stores, ready.capacity, ready.enough⟩
  have looped := (addLoop_spec value name valid heldReady (n := 1) (le_refl 1)
    ready.trie.nonempty holds.numbered).1
  have walking := walkMoments_answer fresh value name valid heldReady (n := 1) (le_refl 1)
    ready.trie.nonempty published
  rw [ready.trie.root, wordsEq, ← routingKey_eq_keyAfter] at looped walking
  obtain ⟨walked, walkedPath, walkedEq, walkedReady, _⟩ := looped fits
  intro moment member
  rw [moments, if_neg (by rw [holds.unlocked]; decide)] at member
  simp only [walkedEq] at member
  rcases List.mem_append.mp member with early | publishing
  · rcases List.mem_cons.mp early with locking | inLoop
    · left
      rw [locking]
      exact published
    · exact walking fits moment inLoop
  · right
    have finished : Answers walked.stepBuf
        (Function.update table (routingKey name) (stored value)) := walkedReady.answers
    exact publishMoments_answer finished moment publishing

/-! ### Every reachable trie -/

/-- The mappers that calls of `add` and `del` lead to, failed ones included. -/
inductive Reachable : Mapper → Prop where
  | new : Reachable Mapper.new
  | added {mapper after : Mapper} {name : Bytes} {value : Nat} (earlier : Reachable mapper)
      (call : mapper.add name value = .returned after ()) : Reachable after
  | failed {mapper after : Mapper} {name : Bytes} {value : Nat} {error : Exc}
      (earlier : Reachable mapper) (call : mapper.add name value = .thrown after error) :
      Reachable after
  | removed {mapper after : Mapper} {name : Bytes} {value : Nat} (earlier : Reachable mapper)
      (call : mapper.del name = some (after, value)) : Reachable after

/-- The part of a name that `add` reads. -/
def readPart : Bytes → Bytes
  | [] => []
  | a :: rest => if a = star then [a] else a :: readPart rest

theorem addLoop_readPart (value : Nat) (rest : Bytes) (n : Nat) (mapper : Mapper) :
    addLoop value (readPart rest) n mapper = addLoop value rest n mapper := by
  induction rest generalizing n mapper with
  | nil => rfl
  | cons a rest ih =>
      by_cases isStar : a = star
      · rw [readPart, if_pos isStar, addLoop, addLoop, if_pos isStar, if_pos isStar]
      · rw [readPart, if_neg isStar, addLoop, addLoop, if_neg isStar, if_neg isStar]
        simp only [ih]

/-- A walk that returns has met no byte outside 32..127. -/
theorem addLoop_returned {value : Nat} {rest : Bytes} {n : Nat} {mapper walked : Mapper}
    (returned : addLoop value rest n mapper = .returned walked ()) :
    ∀ a ∈ readPart rest, childIndex a ≠ none := by
  induction rest generalizing n mapper with
  | nil =>
      intro a member
      cases member
  | cons a rest ih =>
      by_cases isStar : a = star
      · intro b member
        rw [readPart, if_pos isStar, List.mem_singleton] at member
        rw [member, isStar]
        decide
      · rw [addLoop, if_neg isStar] at returned
        cases found : childIndex a with
        | none =>
            rw [found] at returned
            cases returned
        | some index =>
            have later : ∀ b ∈ readPart rest, childIndex b ≠ none := by
              rw [found] at returned
              simp only at returned
              split at returned
              · cases returned
              · split at returned
                · split at returned
                  · cases returned
                  · exact ih returned
                · exact ih returned
            intro b member
            rw [readPart, if_neg isStar] at member
            rcases List.mem_cons.mp member with first | rest
            · rw [first, found]
              exact Option.some_ne_none index
            · exact later b rest

theorem add_readPart (mapper : Mapper) (name : Bytes) (value : Nat) :
    mapper.add (readPart name) value = mapper.add name value := by
  rw [add, add, addLoop_readPart]

theorem add_returned {after : Mapper} {name : Bytes} {value : Nat}
    (returned : mapper.add name value = .returned after ()) :
    ∀ a ∈ readPart name, childIndex a ≠ none := by
  rw [add] at returned
  split at returned
  · cases returned
  · split at returned
    · rename_i looped
      exact addLoop_returned looped
    · cases returned
    · cases returned

theorem routingKey_readPart (name : Bytes) : routingKey (readPart name) = routingKey name := by
  have walked : ∀ (word rest : Bytes), keyAfter word (readPart rest) = keyAfter word rest := by
    intro word rest
    induction rest generalizing word with
    | nil => rfl
    | cons a rest ih =>
        by_cases isStar : a = star
        · simp only [readPart, keyAfter, if_pos isStar]
        · simp only [readPart, keyAfter, if_neg isStar, ih]
  rw [routingKey_eq_keyAfter, routingKey_eq_keyAfter, walked]

/-- An `add` that returns enters the key of the name. -/
theorem add_holds {nodes : Finset Bytes} {table : Table UInt8 Nat} {added : Mapper} {name : Bytes} {value : Nat}
    (holds : Holds mapper nodes table) (returned : mapper.add name value = .returned added ()) :
    Holds added (nodes ∪ stems [] (readPart name))
      (Function.update table (routingKey name) (stored value)) := by
  have spec := mapper.add_spec holds (readPart name) value (add_returned returned)
  rw [add_readPart, returned] at spec
  rcases Nat.lt_or_ge 65535 (nodes ∪ stems [] (readPart name)).card with above | below
  · cases spec.2 above
  · obtain ⟨after, afterEq, afterHolds⟩ := spec.1 below
    rw [routingKey_readPart] at afterHolds
    cases afterEq
    exact afterHolds

/-- A reachable mapper holds a table, unless an `add` has failed. -/
theorem Reachable.holds (reachable : Reachable mapper) :
    mapper.locked = true ∨ ∃ nodes table, Holds mapper nodes table := by
  induction reachable with
  | new => exact Or.inr ⟨_, _, new_holds⟩
  | @added mapper after name value _ call ih =>
      rcases ih with locked | ⟨nodes, table, holds⟩
      · rw [add_of_locked locked] at call
        cases call
      · exact Or.inr ⟨_, _, add_holds holds call⟩
  | failed _ call _ => exact Or.inl (add_locked call)
  | @removed mapper after name value _ call ih =>
      rcases ih with locked | ⟨nodes, table, holds⟩
      · left
        rw [del] at call
        split at call
        · cases call
        · cases call
          exact locked
      · obtain ⟨deleted, deletedEq, deletedHolds⟩ := mapper.del_spec holds name
        rw [deletedEq] at call
        cases call
        exact Or.inr ⟨_, _, deletedHolds⟩

/-- Whatever the moment between two writes of an `add`, the published array is
well formed and every name is looked up in it as before the call or as after it. -/
theorem readers_never_see_half (reachable : Reachable mapper) (fresh : Nat → Nat → Step)
    (name : Bytes) (value : Nat) (valid : ValidKey name)
    (fits : mapper.size + mapper.missing name ≤ 65535) :
    ∀ moment ∈ mapper.moments fresh name value, Inside moment.abuf ∧
      ∀ q, ∃ answer, moment.find q = some answer ∧
        (mapper.find q = some answer ∨
          ∃ after, mapper.add name value = .returned after () ∧ after.find q = some answer) := by
  rcases reachable.holds with locked | ⟨nodes, table, holds⟩
  · intro moment member
    rw [moments, if_pos locked] at member
    cases member
  · have nameValid : ∀ a ∈ name, childIndex a ≠ none :=
      fun a member => childIndex_ne_none (valid a member)
    rw [← holds.card_with_stems name nameValid] at fits
    obtain ⟨after, afterEq, afterHolds⟩ := (mapper.add_spec holds name value nameValid).1 fits
    intro moment member
    rcases moments_answer holds fresh name value nameValid fits moment member with old | new
    · refine ⟨old.inside, fun q => ⟨_, old.find q, Or.inl ?_⟩⟩
      exact mapper.find_spec holds q
    · refine ⟨new.inside, fun q => ⟨_, new.find q, Or.inr ⟨after, afterEq, ?_⟩⟩⟩
      exact after.find_spec afterHolds q

/-- A first name for which the array grows twice. -/
theorem readers_never_see_half_sample :
    ∃ moment ∈ Mapper.new.moments (fun _ _ => Step.zero) (ascii "abcdefgh") 1,
      Inside moment.abuf ∧ ∃ answer, moment.find (ascii "abcdefgh") = some answer ∧
        (Mapper.new.find (ascii "abcdefgh") = some answer ∨
          ∃ after, Mapper.new.add (ascii "abcdefgh") 1 = .returned after () ∧
            after.find (ascii "abcdefgh") = some answer) := by
  have present : 0 < (Mapper.new.moments (fun _ _ => Step.zero) (ascii "abcdefgh") 1).length := by
    decide +kernel
  obtain ⟨moment, member⟩ := List.exists_mem_of_length_pos present
  have seen := readers_never_see_half Reachable.new (fun _ _ => Step.zero) (ascii "abcdefgh") 1
    (by decide) (by decide) moment member
  exact ⟨moment, member, seen.1, seen.2 (ascii "abcdefgh")⟩

end Mapper

end Ijson
