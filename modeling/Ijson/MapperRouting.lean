/-
`Mapper` routes like a prefix table.

One run of `add` extends the trie by the stems of the name and changes the
table at one key, whether or not the array is reallocated on the way; `find`
is the lookup of the table and `del` removes one key.  The node count is the
number of distinct stems, so the bound of the `u16` positions is a bound on
the names ever added.
-/

import Ijson.MapperTrie

namespace Ijson

open PrefixTable

/-! ### Names as keys -/

/-- A name is a pattern when it contains a `*`; the text after the first one
is ignored. -/
def routingKey (name : Bytes) : Key UInt8 :=
  if star ∈ name then .pattern (name.takeWhile (· ≠ star)) else .exact name

/-- The key of a name whose first bytes have been walked already. -/
def keyAfter (walked : Bytes) : Bytes → Key UInt8
  | [] => .exact walked
  | a :: rest => if a = star then .pattern walked else keyAfter (walked ++ [a]) rest

/-- The words at which the walk along a name stands. -/
def stems (walked : Bytes) : Bytes → Finset Bytes
  | [] => {walked}
  | a :: rest => if a = star then {walked} else insert walked (stems (walked ++ [a]) rest)

theorem keyAfter_eq (walked rest : Bytes) :
    keyAfter walked rest =
      if star ∈ rest then .pattern (walked ++ rest.takeWhile (· ≠ star))
      else .exact (walked ++ rest) := by
  induction rest generalizing walked with
  | nil => simp [keyAfter]
  | cons a rest ih =>
      by_cases isStar : a = star
      · simp [keyAfter, isStar]
      · have different : ¬ star = a := fun same => isStar same.symm
        simp [keyAfter, isStar, different, ih]

theorem routingKey_eq_keyAfter (name : Bytes) : routingKey name = keyAfter [] name := by
  rw [keyAfter_eq, routingKey]
  simp only [List.nil_append]

theorem walked_mem_stems (walked rest : Bytes) : walked ∈ stems walked rest := by
  cases rest with
  | nil => simp [stems]
  | cons a rest =>
      rw [stems]
      split <;> simp

namespace Mapper

variable {mapper : Mapper} {path : Nat → Bytes} {table : Table UInt8 Nat}

/-- What holds of the array under construction at every step of `add`. -/
structure Ready (mapper : Mapper) (path : Nat → Bytes) (table : Table UInt8 Nat) : Prop where
  trie : Trie mapper.stepBuf mapper.size path
  stores : Stores mapper.stepBuf mapper.size path table
  capacity : mapper.cap = mapper.stepBuf.length
  enough : 4 ≤ mapper.cap

/-- A mapper between two calls: its published array is the trie of `stems`
with the values of `table`, and no add is under way. -/
structure Holds (mapper : Mapper) (stems : Finset Bytes) (table : Table UInt8 Nat) : Prop where
  represented : ∃ path, Ready mapper path table ∧ words mapper.size path = stems
  published : mapper.bufT = none
  unlocked : mapper.locked = false
  numbered : mapper.size ≤ 65535

/-! ### Primitive operations -/

theorem writeStep_spec (change : Step → Step) {n : Nat} {step : Step}
    (read : getStep mapper.stepBuf n = some step) :
    ∃ written, mapper.writeStep n change = some written ∧
      written.stepBuf = mapper.stepBuf.set (n - 1) (change step) ∧
      written.size = mapper.size ∧ written.cap = mapper.cap := by
  unfold writeStep
  rw [read]
  cases copy : mapper.bufT with
  | none =>
      refine ⟨_, rfl, ?_, ?_, ?_⟩ <;> simp [stepBuf, copy]
  | some buf =>
      refine ⟨_, rfl, ?_, ?_, ?_⟩ <;> simp [stepBuf]

/-- `_next` makes room for one more node and keeps the tree. -/
theorem Ready.next (ready : Ready mapper path table) :
    Trie mapper.next.1.stepBuf mapper.size path ∧
      Stores mapper.next.1.stepBuf mapper.size path table ∧
      mapper.next.1.cap = mapper.next.1.stepBuf.length ∧ 4 ≤ mapper.next.1.cap ∧
      mapper.size + 1 ≤ mapper.next.1.stepBuf.length ∧
      mapper.next.1.size = mapper.size + 1 ∧ mapper.next.2 = u16 (mapper.size + 1) ∧
      ∀ n, n ≤ mapper.size → getStep mapper.next.1.stepBuf n = getStep mapper.stepBuf n := by
  have fits := ready.trie.fits
  have capacity := ready.capacity
  have enough := ready.enough
  unfold Mapper.next
  by_cases room : mapper.size + 1 ≤ mapper.cap
  · simp only [if_pos room]
    exact ⟨ready.trie, ready.stores, capacity, enough, by simpa [stepBuf, capacity] using room,
      trivial, trivial, fun n _ => rfl⟩
  · simp only [if_neg room]
    generalize grownCap : (if mapper.cap ≥ 512 then mapper.cap + 256 else mapper.cap * 2) = cap
    have larger : mapper.cap + 1 ≤ cap := by
      rw [← grownCap]
      split <;> omega
    refine ⟨ready.trie.grow _, Stores.grow ready.trie ready.stores _, ?_, by omega, ?_, trivial, trivial, ?_⟩
    · simp only [stepBuf, Option.getD_some, List.length_append, List.length_replicate]
      simp only [stepBuf] at capacity
      omega
    · simp only [stepBuf, Option.getD_some, List.length_append, List.length_replicate]
      simp only [stepBuf] at capacity fits
      omega
    · intro n inside
      exact getStep_append _ (by omega)

/-! ### Adding a name -/

/-- With no node left the position wraps to zero, and the walk leaves the
array at its next access. -/
theorem addLoop_zero (value : Nat) (rest : Bytes) (valid : ∀ a ∈ rest, childIndex a ≠ none) :
    addLoop value rest 0 mapper = .fault := by
  cases rest with
  | nil => rfl
  | cons a rest =>
      rw [addLoop]
      by_cases isStar : a = star
      · rw [if_pos isStar]
        rfl
      · rw [if_neg isStar]
        cases found : childIndex a with
        | none => exact absurd found (valid a List.mem_cons_self)
        | some index => rfl

theorem addLoop_follow (value : Nat) (rest : Bytes) {a : UInt8} {index : Fin 96} {n : Nat}
    {step : Step} (notStar : a ≠ star) (found : childIndex a = some index)
    (read : getStep mapper.stepBuf n = some step) (linked : step.k index ≠ 0) :
    addLoop value (a :: rest) n mapper = addLoop value rest (step.k index) mapper := by
  rw [addLoop, if_neg notStar, found]
  simp only [read, if_neg linked]

theorem addLoop_create (value : Nat) (rest : Bytes) {a : UInt8} {index : Fin 96} {n : Nat}
    {step : Step} {written : Mapper} (notStar : a ≠ star) (found : childIndex a = some index)
    (read : getStep mapper.stepBuf n = some step) (unlinked : step.k index = 0)
    (writtenEq : mapper.next.1.writeStep n (fun step => step.link index mapper.next.2) =
      some written) :
    addLoop value (a :: rest) n mapper = addLoop value rest mapper.next.2 written := by
  rw [addLoop, if_neg notStar, found]
  simp only [read, if_pos unlinked, writtenEq]

/-- A node created by `add`, as long as its position is not truncated. -/
theorem Ready.create (ready : Ready mapper path table) {n : Nat} {step : Step} {index : Fin 96}
    (inside : n ≤ mapper.size) (read : getStep mapper.stepBuf n = some step)
    (unlinked : step.k index = 0) (below : mapper.size < 65535) :
    mapper.next.2 = mapper.size + 1 ∧
      ∃ written, mapper.next.1.writeStep n (fun step => step.link index mapper.next.2) =
          some written ∧
        written.size = mapper.size + 1 ∧
        Ready written (linkPath path mapper.size n index) table := by
  obtain ⟨nextTrie, nextStores, nextCapacity, nextEnough, room, nextSize, position, sameSteps⟩ :=
    ready.next
  have nextPosition : mapper.next.2 = mapper.size + 1 := by
    rw [position, u16]
    omega
  rw [← sameSteps n inside] at read
  obtain ⟨written, writtenEq, bufEq, sizeEq, capEq⟩ :=
    writeStep_spec (fun step => step.link index mapper.next.2) read
  rw [nextPosition] at bufEq
  refine ⟨nextPosition, written, writtenEq, by rw [sizeEq, nextSize], ?_⟩
  exact
    { trie := by
        rw [bufEq, sizeEq, nextSize]
        exact nextTrie.link inside read unlinked room
      stores := by
        rw [bufEq, sizeEq, nextSize]
        exact nextStores.link nextTrie inside read unlinked room
      capacity := by rw [capEq, bufEq, List.length_set, nextCapacity]
      enough := by rw [capEq]; exact nextEnough }

/-- The node created when all 65535 positions are taken gets position zero. -/
theorem Ready.create_overflow (ready : Ready mapper path table) {n : Nat} {step : Step}
    (index : Fin 96) (inside : n ≤ mapper.size) (read : getStep mapper.stepBuf n = some step)
    (full : mapper.size = 65535) :
    mapper.next.2 = 0 ∧
      ∃ written, mapper.next.1.writeStep n (fun step => step.link index mapper.next.2) =
        some written := by
  obtain ⟨_, _, _, _, _, _, position, sameSteps⟩ := ready.next
  rw [← sameSteps n inside] at read
  obtain ⟨written, writtenEq, _⟩ :=
    writeStep_spec (fun step => step.link index mapper.next.2) read
  exact ⟨by rw [position, full]; rfl, written, writtenEq⟩

/-- The last access of `add` writes the value and keeps the tree. -/
theorem Ready.finish_exact (ready : Ready mapper path table) {n : Nat} {step : Step}
    (inside : n ≤ mapper.size) (read : getStep mapper.stepBuf n = some step) (value : Nat) :
    ∃ written, mapper.writeStep n (fun step => { step with endValue := value }) = some written ∧
      written.size = mapper.size ∧
      Ready written path (Function.update table (.exact (path n)) (stored value)) := by
  obtain ⟨written, writtenEq, bufEq, sizeEq, capEq⟩ :=
    writeStep_spec (fun step => { step with endValue := value }) read
  refine ⟨written, writtenEq, sizeEq, ?_⟩
  exact
    { trie := by
        rw [bufEq, sizeEq]
        exact ready.trie.assign read (by rfl) inside
      stores := by
        rw [bufEq, sizeEq]
        exact ready.stores.assign_exact ready.trie read inside value
      capacity := by rw [capEq, bufEq, List.length_set, ready.capacity]
      enough := by rw [capEq]; exact ready.enough }

theorem Ready.finish_pattern (ready : Ready mapper path table) {n : Nat} {step : Step}
    (inside : n ≤ mapper.size) (read : getStep mapper.stepBuf n = some step) (value : Nat) :
    ∃ written, mapper.writeStep n (fun step => { step with std := value }) = some written ∧
      written.size = mapper.size ∧
      Ready written path (Function.update table (.pattern (path n)) (stored value)) := by
  obtain ⟨written, writtenEq, bufEq, sizeEq, capEq⟩ :=
    writeStep_spec (fun step => { step with std := value }) read
  refine ⟨written, writtenEq, sizeEq, ?_⟩
  exact
    { trie := by
        rw [bufEq, sizeEq]
        exact ready.trie.assign read (by rfl) inside
      stores := by
        rw [bufEq, sizeEq]
        exact ready.stores.assign_pattern ready.trie read inside value
      capacity := by rw [capEq, bufEq, List.length_set, ready.capacity]
      enough := by rw [capEq]; exact ready.enough }

/-- The loop of `add` from node `n` on: it stores the value at the key and adds
the missing stems, unless these are more than a `u16` can number. -/
theorem addLoop_spec (value : Nat) (rest : Bytes) (valid : ∀ a ∈ rest, childIndex a ≠ none)
    (ready : Ready mapper path table) {n : Nat} (positive : 1 ≤ n) (inside : n ≤ mapper.size)
    (numbered : mapper.size ≤ 65535) :
    ((words mapper.size path ∪ stems (path n) rest).card ≤ 65535 →
      ∃ added addedPath, addLoop value rest n mapper = .returned added () ∧
        Ready added addedPath (Function.update table (keyAfter (path n) rest) (stored value)) ∧
        words added.size addedPath = words mapper.size path ∪ stems (path n) rest) ∧
    (65535 < (words mapper.size path ∪ stems (path n) rest).card →
      addLoop value rest n mapper = .fault) := by
  induction rest generalizing mapper path n with
  | nil =>
      have nWord : path n ∈ words mapper.size path := mem_words.mpr ⟨n, positive, inside, rfl⟩
      obtain ⟨step, read⟩ := exists_getStep positive (le_trans inside ready.trie.fits)
      obtain ⟨written, writtenEq, sizeEq, writtenReady⟩ := ready.finish_exact inside read value
      rw [stems, Finset.union_eq_left.mpr (Finset.singleton_subset_iff.mpr nWord),
        ready.trie.card_words]
      exact ⟨fun _ => ⟨written, path, by rw [addLoop, writtenEq], writtenReady, by rw [sizeEq]⟩,
        fun above => by omega⟩
  | cons a rest ih =>
      have nWord : path n ∈ words mapper.size path := mem_words.mpr ⟨n, positive, inside, rfl⟩
      obtain ⟨step, read⟩ := exists_getStep positive (le_trans inside ready.trie.fits)
      by_cases isStar : a = star
      · obtain ⟨written, writtenEq, sizeEq, writtenReady⟩ :=
          ready.finish_pattern inside read value
        rw [stems, if_pos isStar, keyAfter, if_pos isStar,
          Finset.union_eq_left.mpr (Finset.singleton_subset_iff.mpr nWord), ready.trie.card_words]
        exact ⟨fun _ => ⟨written, path, by rw [addLoop, if_pos isStar, writtenEq], writtenReady,
          by rw [sizeEq]⟩, fun above => by omega⟩
      · have restValid : ∀ b ∈ rest, childIndex b ≠ none :=
          fun b member => valid b (List.mem_cons_of_mem a member)
        obtain ⟨index, found⟩ := Option.ne_none_iff_exists'.mp (valid a List.mem_cons_self)
        have byteEq : indexByte index = a := indexByte_of_childIndex found
        rw [stems, if_neg isStar, keyAfter, if_neg isStar, Finset.union_insert,
          Finset.insert_eq_of_mem (Finset.mem_union_left _ nWord)]
        by_cases unlinked : step.k index = 0
        · have fresh : path n ++ [a] ∉ words mapper.size path := by
            rw [← byteEq]
            exact ready.trie.absent_beyond inside read unlinked []
          have stemsMember : path n ++ [a] ∈ stems (path n ++ [a]) rest := walked_mem_stems _ _
          have newSubset : insert (path n ++ [a]) (words mapper.size path) ⊆
              words mapper.size path ∪ stems (path n ++ [a]) rest :=
            Finset.insert_subset (Finset.mem_union_right _ stemsMember) Finset.subset_union_left
          by_cases full : mapper.size = 65535
          · obtain ⟨wrapped, written, writtenEq⟩ := ready.create_overflow index inside read full
            rw [addLoop_create value rest isStar found read unlinked writtenEq, wrapped,
              addLoop_zero value rest restValid]
            refine ⟨fun below => ?_, fun _ => rfl⟩
            have grows := Finset.card_le_card newSubset
            rw [Finset.card_insert_of_notMem fresh, ready.trie.card_words] at grows
            omega
          · obtain ⟨position, written, writtenEq, sizeEq, writtenReady⟩ :=
              ready.create inside read unlinked (by omega)
            rw [addLoop_create value rest isStar found read unlinked writtenEq, position]
            have newPath : linkPath path mapper.size n index (mapper.size + 1) = path n ++ [a] := by
              rw [linkPath_new, byteEq]
            have newUnion : words written.size (linkPath path mapper.size n index) ∪
                stems (path n ++ [a]) rest =
                words mapper.size path ∪ stems (path n ++ [a]) rest := by
              rw [sizeEq, words_link, byteEq, Finset.insert_union,
                Finset.insert_eq_of_mem (Finset.mem_union_right _ stemsMember)]
            have result := ih restValid writtenReady (n := mapper.size + 1) (by omega)
              (by omega) (by omega)
            rw [newPath, newUnion] at result
            exact result
        · obtain ⟨above, below, childPath⟩ := ready.trie.child n step index inside read unlinked
          rw [addLoop_follow value rest isStar found read unlinked]
          have result := ih restValid ready (n := step.k index) (by omega) below numbered
          rw [childPath, byteEq] at result
          exact result

theorem lockedWith (mapper : Mapper) (value : Bool) :
    { mapper with locked := value }.stepBuf = mapper.stepBuf := rfl

theorem publish_stepBuf (mapper : Mapper) : mapper.publish.stepBuf = mapper.stepBuf := by
  unfold publish stepBuf
  cases copy : mapper.bufT with
  | none => simp [copy]
  | some buf => rfl

theorem publish_fields (mapper : Mapper) :
    mapper.publish.bufT = none ∧ mapper.publish.size = mapper.size ∧
      mapper.publish.cap = mapper.cap := by
  unfold publish
  cases copy : mapper.bufT with
  | none => exact ⟨copy, rfl, rfl⟩
  | some buf => exact ⟨rfl, rfl, rfl⟩

theorem Holds.abuf_eq {stems : Finset Bytes} (holds : Holds mapper stems table) :
    mapper.stepBuf = mapper.abuf := by
  rw [stepBuf, holds.published]
  rfl

theorem Holds.card_eq {stems : Finset Bytes} (holds : Holds mapper stems table) :
    stems.card = mapper.size := by
  obtain ⟨path, ready, wordsEq⟩ := holds.represented
  rw [← wordsEq, ready.trie.card_words]

theorem new_holds : Holds new {[]} PrefixTable.empty := by
  have zeroRead : ∀ n step, getStep new.stepBuf n = some step → step = Step.zero := by
    intro n step read
    have access := (getStep_eq_some.mp read).2
    simp only [stepBuf, new, Option.getD_none] at access
    exact List.eq_of_mem_replicate (List.mem_of_getElem? access)
  refine ⟨⟨fun _ => [], ⟨?_, ?_, rfl, le_refl 4⟩, ?_⟩, rfl, rfl, by decide⟩
  · refine
      { nonempty := le_refl 1
        fits := by decide
        root := rfl
        child := ?_
        parent := ?_
        distinct := ?_
        unused := ?_ }
    · intro n step index _ read linked
      rw [zeroRead n step read] at linked
      exact absurd rfl linked
    · intro m above below
      simp only [new] at below
      omega
    · intro n m nPositive nInside mPositive mInside _
      simp only [new] at nInside mInside
      omega
    · intro n outside fits
      obtain ⟨step, read⟩ := exists_getStep (by omega) fits
      rw [read, zeroRead n step read]
  · refine { exactAt := ?_, patternAt := ?_, inside := fun key present => absurd rfl present }
    · intro n step _ read
      rw [zeroRead n step read]
      rfl
    · intro n step _ read
      rw [zeroRead n step read]
      rfl
  · ext word
    rw [mem_words, Finset.mem_singleton]
    constructor
    · rintro ⟨_, _, _, wordEq⟩
      exact wordEq.symm
    · intro wordEq
      exact ⟨1, le_refl 1, le_refl 1, wordEq.symm⟩

theorem add_spec {nodes : Finset Bytes} (holds : Holds mapper nodes table) (name : Bytes)
    (value : Nat) (valid : ∀ a ∈ name, childIndex a ≠ none) :
    ((nodes ∪ stems [] name).card ≤ 65535 →
      ∃ added, mapper.add name value = .returned added () ∧
        Holds added (nodes ∪ stems [] name)
          (Function.update table (routingKey name) (stored value))) ∧
    (65535 < (nodes ∪ stems [] name).card → mapper.add name value = .fault) := by
  obtain ⟨path, ready, wordsEq⟩ := holds.represented
  have lockedReady : Ready { mapper with locked := true } path table :=
    ⟨ready.trie, ready.stores, ready.capacity, ready.enough⟩
  have looped := addLoop_spec value name valid lockedReady (n := 1) (le_refl 1)
    ready.trie.nonempty holds.numbered
  rw [ready.trie.root, wordsEq, ← routingKey_eq_keyAfter] at looped
  have unlocked : ¬ mapper.locked = true := by rw [holds.unlocked]; decide
  constructor
  · intro below
    obtain ⟨added, addedPath, addedEq, addedReady, addedWords⟩ := looped.1 below
    obtain ⟨noCopy, sameSize, sameCap⟩ := publish_fields added
    refine ⟨{ added.publish with locked := false }, by rw [add, if_neg unlocked, addedEq], ?_⟩
    refine ⟨⟨addedPath, ⟨?_, ?_, ?_, ?_⟩, ?_⟩, noCopy, rfl, ?_⟩
    · rw [lockedWith, publish_stepBuf]
      exact sameSize.symm ▸ addedReady.trie
    · rw [lockedWith, publish_stepBuf]
      exact sameSize.symm ▸ addedReady.stores
    · rw [lockedWith, publish_stepBuf]
      exact sameCap.trans addedReady.capacity
    · exact sameCap.symm ▸ addedReady.enough
    · exact sameSize.symm ▸ addedWords
    · change added.publish.size ≤ 65535
      rw [sameSize, ← addedReady.trie.card_words, addedWords]
      exact below
  · intro above
    rw [add, if_neg unlocked, looped.2 above]

/-! ### Lookup -/

/-- The walk of `find` from node `n` on, with the pattern value met so far. -/
theorem findLoop_spec {buf : List Step} {size : Nat} (trie : Trie buf size path)
    (stores : Stores buf size path table) (rest : Bytes) {n : Nat} (positive : 1 ≤ n)
    (inside : n ≤ size) (std : Nat) :
    ∃ result, findLoop buf rest n std = some result ∧
      stored result = ((table (.exact (path n ++ rest))).or
        (longest (fun stem => table (.pattern (path n ++ stem))) rest)).or (stored std) := by
  induction rest generalizing n std with
  | nil =>
      obtain ⟨step, read⟩ := exists_getStep positive (le_trans inside trie.fits)
      refine ⟨_, by rw [findLoop, read], ?_⟩
      simp only [longest, List.append_nil, stored_ite, stores.exactAt n step inside read,
        stores.patternAt n step inside read, Option.or_assoc]
  | cons a rest ih =>
      obtain ⟨step, read⟩ := exists_getStep positive (le_trans inside trie.fits)
      have here : table (.pattern (path n ++ [])) = stored step.std := by
        rw [List.append_nil]
        exact stores.patternAt n step inside read
      rw [findLoop, read, longest, here]
      -- every longer key leads through the child for `a`
      have stops : (∀ tail, path n ++ a :: tail ∉ words size path) →
          stored (if step.std ≠ 0 then step.std else std) =
            ((table (.exact (path n ++ a :: rest))).or
              ((longest (fun stem => table (.pattern (path n ++ a :: stem))) rest).or
                (stored step.std))).or (stored std) := by
        intro absent
        have noExact : table (.exact (path n ++ a :: rest)) = none :=
          stores.eq_none_of_not_mem (absent rest)
        have noPattern : longest (fun stem => table (.pattern (path n ++ a :: stem))) rest =
            none := by
          rw [longest_eq_none_iff]
          exact fun stem _ => stores.eq_none_of_not_mem (absent stem)
        rw [noExact, noPattern, Option.none_or, Option.none_or, stored_ite]
      cases found : childIndex a with
      | none => exact ⟨_, rfl, stops (trie.absent_of_invalid found (path n))⟩
      | some index =>
          have byteEq : indexByte index = a := indexByte_of_childIndex found
          by_cases unlinked : step.k index = 0
          · refine ⟨_, by simp only [if_pos unlinked], stops ?_⟩
            intro tail
            rw [← byteEq]
            exact trie.absent_beyond inside read unlinked tail
          · obtain ⟨above, below, childPath⟩ := trie.child n step index inside read unlinked
            obtain ⟨result, resultEq, resultSpec⟩ := ih (by omega) below
              (if step.std ≠ 0 then step.std else std)
            refine ⟨result, by simp only [if_neg unlinked, resultEq], ?_⟩
            rw [resultSpec, childPath, byteEq, stored_ite]
            simp only [List.append_assoc, List.singleton_append, Option.or_assoc]

theorem find_spec {nodes : Finset Bytes} (holds : Holds mapper nodes table) (name : Bytes) :
    mapper.find name = some ((lookup table name).getD 0) := by
  obtain ⟨path, ready, _⟩ := holds.represented
  obtain ⟨result, resultEq, resultSpec⟩ := findLoop_spec ready.trie ready.stores name
    (n := 1) (le_refl 1) ready.trie.nonempty 0
  rw [ready.trie.root, stored_zero, Option.or_none] at resultSpec
  simp only [List.nil_append] at resultSpec
  rw [find, ← holds.abuf_eq, resultEq, lookup, ← resultSpec, stored_getD]

/-! ### Deletion -/

theorem delLoop_spec {buf : List Step} {size : Nat} (trie : Trie buf size path)
    (stores : Stores buf size path table) (rest : Bytes) {n : Nat} (positive : 1 ≤ n)
    (inside : n ≤ size) :
    ∃ after, delLoop buf rest n = some (after, (table (keyAfter (path n) rest)).getD 0) ∧
      after.length = buf.length ∧ Trie after size path ∧
      Stores after size path (Function.update table (keyAfter (path n) rest) none) := by
  induction rest generalizing n with
  | nil =>
      obtain ⟨step, read⟩ := exists_getStep positive (le_trans inside trie.fits)
      refine ⟨buf.set (n - 1) { step with endValue := 0 }, ?_, List.length_set,
        trie.assign read rfl inside, stores.assign_exact trie read inside 0⟩
      simp only [delLoop, read, keyAfter, stores.exactAt n step inside read, stored_getD]
  | cons a rest ih =>
      obtain ⟨step, read⟩ := exists_getStep positive (le_trans inside trie.fits)
      rw [delLoop, read, keyAfter]
      by_cases isStar : a = star
      · simp only [if_pos isStar]
        refine ⟨buf.set (n - 1) { step with std := 0 }, ?_, List.length_set,
          trie.assign read rfl inside, stores.assign_pattern trie read inside 0⟩
        rw [stores.patternAt n step inside read, stored_getD]
      · simp only [if_neg isStar]
        -- an absent node means that the key is not in the table
        have stops : (∀ tail, path n ++ a :: tail ∉ words size path) →
            ∃ after, some (buf, 0) = some
                (after, (table (keyAfter (path n ++ [a]) rest)).getD 0) ∧
              after.length = buf.length ∧ Trie after size path ∧
              Stores after size path
                (Function.update table (keyAfter (path n ++ [a]) rest) none) := by
          intro absent
          have missing : table (keyAfter (path n ++ [a]) rest) = none := by
            apply stores.eq_none_of_not_mem
            rw [keyAfter_eq]
            split
            · simpa only [Key.letters, List.append_assoc, List.singleton_append] using absent _
            · simpa only [Key.letters, List.append_assoc, List.singleton_append] using absent _
          refine ⟨buf, by rw [missing]; rfl, rfl, trie, ?_⟩
          rw [← missing, Function.update_eq_self]
          exact stores
        cases found : childIndex a with
        | none => exact stops (trie.absent_of_invalid found (path n))
        | some index =>
            have byteEq : indexByte index = a := indexByte_of_childIndex found
            by_cases unlinked : step.k index = 0
            · simp only [if_pos unlinked]
              apply stops
              intro tail
              rw [← byteEq]
              exact trie.absent_beyond inside read unlinked tail
            · obtain ⟨above, below, childPath⟩ := trie.child n step index inside read unlinked
              simp only [if_neg unlinked]
              have result := ih (n := step.k index) (by omega) below
              rw [childPath, byteEq] at result
              exact result

theorem del_spec {nodes : Finset Bytes} (holds : Holds mapper nodes table) (name : Bytes) :
    ∃ after, mapper.del name = some (after, (table (routingKey name)).getD 0) ∧
      Holds after nodes (Function.update table (routingKey name) none) := by
  obtain ⟨path, ready, wordsEq⟩ := holds.represented
  obtain ⟨buf, bufEq, sameLength, trie, stores⟩ := delLoop_spec ready.trie ready.stores name
    (n := 1) (le_refl 1) ready.trie.nonempty
  rw [ready.trie.root, ← routingKey_eq_keyAfter] at bufEq stores
  rw [holds.abuf_eq] at bufEq sameLength
  refine ⟨{ mapper with abuf := buf }, by rw [del, bufEq], ?_⟩
  have sameBuf : { mapper with abuf := buf }.stepBuf = buf := by
    simp only [stepBuf, holds.published, Option.getD_none]
  refine ⟨⟨path, ⟨?_, ?_, ?_, ready.enough⟩, wordsEq⟩, holds.published, holds.unlocked,
    holds.numbered⟩
  · rw [sameBuf]
    exact trie
  · rw [sameBuf]
    exact stores
  · rw [sameBuf, sameLength, ← holds.abuf_eq]
    exact ready.capacity

/-! ### Nodes still missing -/

/-- The number of nodes `add` has to create from node `n` on. -/
def missingLoop (buf : List Step) : Bytes → Nat → Nat
  | [], _ => 0
  | a :: rest, n =>
      if a = star then 0
      else
        match childIndex a, getStep buf n with
        | some index, some step =>
            if step.k index = 0 then ((a :: rest).takeWhile (· ≠ star)).length
            else missingLoop buf rest (step.k index)
        | _, _ => 0

def missing (mapper : Mapper) (name : Bytes) : Nat := missingLoop mapper.abuf name 1

theorem mem_stems_extends (walked rest : Bytes) :
    ∀ stem ∈ stems walked rest, ∃ tail, stem = walked ++ tail := by
  induction rest generalizing walked with
  | nil =>
      intro stem member
      exact ⟨[], by simpa [stems] using member⟩
  | cons a rest ih =>
      intro stem member
      by_cases isStar : a = star
      · exact ⟨[], by simpa [stems, isStar] using member⟩
      · rw [stems, if_neg isStar, Finset.mem_insert] at member
        rcases member with same | later
        · exact ⟨[], by simpa using same⟩
        · obtain ⟨tail, stemEq⟩ := ih _ stem later
          exact ⟨a :: tail, by simpa using stemEq⟩

theorem card_stems (walked rest : Bytes) :
    (stems walked rest).card = (rest.takeWhile (· ≠ star)).length + 1 := by
  induction rest generalizing walked with
  | nil => simp [stems]
  | cons a rest ih =>
      by_cases isStar : a = star
      · simp [stems, isStar]
      · have fresh : walked ∉ stems (walked ++ [a]) rest := by
          intro member
          obtain ⟨tail, walkedEq⟩ := mem_stems_extends _ _ walked member
          simpa using congrArg List.length walkedEq
        rw [stems, if_neg isStar, Finset.card_insert_of_notMem fresh, ih,
          List.takeWhile_cons_of_pos (by simpa using isStar), List.length_cons]

theorem card_union_stems {buf : List Step} {size : Nat} (trie : Trie buf size path) (rest : Bytes)
    (valid : ∀ a ∈ rest, childIndex a ≠ none) {n : Nat} (positive : 1 ≤ n) (inside : n ≤ size) :
    (words size path ∪ stems (path n) rest).card = size + missingLoop buf rest n := by
  have nWord : ∀ m, 1 ≤ m → m ≤ size → words size path ∪ {path m} = words size path :=
    fun m mPositive mInside => Finset.union_eq_left.mpr
      (Finset.singleton_subset_iff.mpr (mem_words.mpr ⟨m, mPositive, mInside, rfl⟩))
  induction rest generalizing n with
  | nil => rw [stems, nWord n positive inside, trie.card_words, missingLoop, Nat.add_zero]
  | cons a rest ih =>
      by_cases isStar : a = star
      · rw [stems, if_pos isStar, nWord n positive inside, trie.card_words, missingLoop,
          if_pos isStar, Nat.add_zero]
      · have restValid : ∀ b ∈ rest, childIndex b ≠ none :=
          fun b member => valid b (List.mem_cons_of_mem a member)
        obtain ⟨index, found⟩ := Option.ne_none_iff_exists'.mp (valid a List.mem_cons_self)
        obtain ⟨step, read⟩ := exists_getStep positive (le_trans inside trie.fits)
        have byteEq : indexByte index = a := indexByte_of_childIndex found
        rw [stems, if_neg isStar, Finset.union_insert,
          Finset.insert_eq_of_mem (Finset.mem_union_left _
            (mem_words.mpr ⟨n, positive, inside, rfl⟩)),
          missingLoop, if_neg isStar, found, read]
        by_cases unlinked : step.k index = 0
        · simp only [if_pos unlinked]
          have disjoint : Disjoint (words size path) (stems (path n ++ [a]) rest) := by
            rw [Finset.disjoint_right]
            intro stem member
            obtain ⟨tail, stemEq⟩ := mem_stems_extends _ _ stem member
            rw [stemEq, List.append_assoc, List.singleton_append, ← byteEq]
            exact trie.absent_beyond inside read unlinked tail
          rw [Finset.card_union_of_disjoint disjoint, trie.card_words, card_stems,
            List.takeWhile_cons_of_pos (by simpa using isStar), List.length_cons]
        · simp only [if_neg unlinked]
          obtain ⟨above, below, childPath⟩ := trie.child n step index inside read unlinked
          have result := ih restValid (n := step.k index) (by omega) below
          rw [childPath, byteEq] at result
          exact result

theorem Holds.card_with_stems {nodes : Finset Bytes} (holds : Holds mapper nodes table)
    (name : Bytes) (valid : ∀ a ∈ name, childIndex a ≠ none) :
    (nodes ∪ stems [] name).card = mapper.size + mapper.missing name := by
  obtain ⟨path, ready, wordsEq⟩ := holds.represented
  have counted := card_union_stems ready.trie name valid (n := 1) (le_refl 1) ready.trie.nonempty
  rw [ready.trie.root, wordsEq] at counted
  rw [counted, missing, holds.abuf_eq]

end Mapper

end Ijson
