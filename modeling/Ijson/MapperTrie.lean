/-
Shape of the node array behind a `Mapper`.

Every used node is the end of one path from the root and no two nodes share a
path.  The values stored along the paths are a prefix table.  Enlarging the
array keeps both facts, and so does linking one new node.
-/

import Mathlib.Data.Finset.Card
import Mathlib.Data.Finset.Image
import Mathlib.Order.Interval.Finset.Nat
import Ijson.Mapper
import Ijson.PrefixTable

namespace Ijson

open PrefixTable

/-- Zero is the absence of a value. -/
def stored (value : Nat) : Option Nat := if value = 0 then none else some value

theorem stored_zero : stored 0 = none := rfl

theorem stored_of_ne_zero {value : Nat} (nonzero : value ≠ 0) : stored value = some value :=
  if_neg nonzero

theorem stored_getD (value : Nat) : (stored value).getD 0 = value := by
  by_cases zero : value = 0
  · rw [zero]
    rfl
  · rw [stored_of_ne_zero zero]
    rfl

theorem stored_ite (first second : Nat) :
    stored (if first ≠ 0 then first else second) = (stored first).or (stored second) := by
  by_cases zero : first = 0
  · simp [zero, stored_zero]
  · simp [zero, stored_of_ne_zero zero]

/-! ### Bytes and child positions -/

def indexByte (index : Fin 96) : UInt8 := UInt8.ofNat (index.val + 32)

theorem indexByte_toNat (index : Fin 96) : (indexByte index).toNat = index.val + 32 := by
  have bound := index.isLt
  rw [indexByte, UInt8.toNat_ofNat']
  omega

theorem indexByte_of_childIndex {a : UInt8} {index : Fin 96} (found : childIndex a = some index) :
    indexByte index = a := by
  unfold childIndex at found
  split at found
  · rename_i inRange
    rw [Option.some.injEq] at found
    subst found
    apply UInt8.toNat_inj.mp
    rw [indexByte_toNat]
    simp only
    omega
  · contradiction

theorem childIndex_indexByte (index : Fin 96) : childIndex (indexByte index) = some index := by
  have bound := index.isLt
  unfold childIndex
  rw [dif_pos (by rw [indexByte_toNat]; omega)]
  simp [indexByte_toNat]

/-! ### Reading and writing nodes -/

theorem getStep_eq_some {buf : List Step} {n : Nat} {step : Step} :
    getStep buf n = some step ↔ 1 ≤ n ∧ buf[n - 1]? = some step := by
  unfold getStep
  by_cases zero : n = 0
  · simp [zero]
  · simp only [if_neg zero]
    constructor
    · intro read
      exact ⟨by omega, read⟩
    · exact And.right

theorem getStep_range {buf : List Step} {n : Nat} {step : Step}
    (read : getStep buf n = some step) : 1 ≤ n ∧ n ≤ buf.length := by
  obtain ⟨positive, access⟩ := getStep_eq_some.mp read
  have bound := (List.getElem?_eq_some_iff.mp access).1
  omega

theorem exists_getStep {buf : List Step} {n : Nat} (positive : 1 ≤ n) (fits : n ≤ buf.length) :
    ∃ step, getStep buf n = some step :=
  ⟨buf[n - 1], getStep_eq_some.mpr ⟨positive, List.getElem?_eq_getElem (by omega)⟩⟩

theorem getStep_set_self {buf : List Step} {n : Nat} (positive : 1 ≤ n) (fits : n ≤ buf.length)
    (step : Step) : getStep (buf.set (n - 1) step) n = some step := by
  rw [getStep_eq_some]
  exact ⟨positive, List.getElem?_set_self (by omega)⟩

theorem getStep_set_ne {buf : List Step} {n m : Nat} (positive : 1 ≤ n) (different : m ≠ n)
    (step : Step) : getStep (buf.set (n - 1) step) m = getStep buf m := by
  unfold getStep
  by_cases zero : m = 0
  · simp [zero]
  · rw [if_neg zero, if_neg zero, List.getElem?_set_ne (by omega)]

theorem getStep_append {buf : List Step} {n : Nat} (tail : List Step) (fits : n ≤ buf.length) :
    getStep (buf ++ tail) n = getStep buf n := by
  unfold getStep
  by_cases zero : n = 0
  · simp [zero]
  · rw [if_neg zero, if_neg zero, List.getElem?_append_left (by omega)]

/-! ### The trie -/

/-- The nodes `1 .. size` of `buf` form a tree; `path n` is the word that leads
to node `n`.  The rest of the array is cleared memory. -/
structure Trie (buf : List Step) (size : Nat) (path : Nat → Bytes) : Prop where
  nonempty : 1 ≤ size
  fits : size ≤ buf.length
  root : path 1 = []
  child : ∀ n step index, n ≤ size → getStep buf n = some step → step.k index ≠ 0 →
    1 < step.k index ∧ step.k index ≤ size ∧ path (step.k index) = path n ++ [indexByte index]
  parent : ∀ m, 1 < m → m ≤ size →
    ∃ n step index, n ≤ size ∧ getStep buf n = some step ∧ step.k index = m
  distinct : ∀ n m, 1 ≤ n → n ≤ size → 1 ≤ m → m ≤ size → path n = path m → n = m
  unused : ∀ n, size < n → n ≤ buf.length → getStep buf n = some Step.zero

/-- The values in the nodes are those of the table, and the table is defined
only where there is a node. -/
structure Stores (buf : List Step) (size : Nat) (path : Nat → Bytes)
    (table : Table UInt8 Nat) : Prop where
  exactAt : ∀ n step, n ≤ size → getStep buf n = some step →
    table (.exact (path n)) = stored step.endValue
  patternAt : ∀ n step, n ≤ size → getStep buf n = some step →
    table (.pattern (path n)) = stored step.std
  inside : ∀ key, table key ≠ none → ∃ n, 1 ≤ n ∧ n ≤ size ∧ path n = key.letters

/-- The words that end in a node. -/
def words (size : Nat) (path : Nat → Bytes) : Finset Bytes := (Finset.Icc 1 size).image path

theorem mem_words {size : Nat} {path : Nat → Bytes} {word : Bytes} :
    word ∈ words size path ↔ ∃ n, 1 ≤ n ∧ n ≤ size ∧ path n = word := by
  simp only [words, Finset.mem_image, Finset.mem_Icc, and_assoc]

section

variable {buf : List Step} {size : Nat} {path : Nat → Bytes} {table : Table UInt8 Nat}

theorem Trie.card_words (trie : Trie buf size path) : (words size path).card = size := by
  rw [words, Finset.card_image_of_injOn, Nat.card_Icc]
  · omega
  · intro n nMember m mMember same
    rw [Finset.coe_Icc, Set.mem_Icc] at nMember mMember
    exact trie.distinct n m nMember.1 nMember.2 mMember.1 mMember.2 same

/-- A node whose word extends the word of `n` by one byte is linked from `n`. -/
theorem Trie.linked (trie : Trie buf size path) {n m : Nat} {step : Step} {index : Fin 96}
    (nInside : n ≤ size) (read : getStep buf n = some step)
    (positive : 1 ≤ m) (mInside : m ≤ size)
    (extends_ : path m = path n ++ [indexByte index]) : step.k index = m := by
  have notRoot : 1 < m := by
    rcases Nat.lt_or_ge 1 m with above | below
    · exact above
    · have mRoot : m = 1 := by omega
      rw [mRoot, trie.root] at extends_
      simp at extends_
  obtain ⟨origin, originStep, originIndex, originInside, originRead, originChild⟩ :=
    trie.parent m notRoot mInside
  have originPath := (trie.child origin originStep originIndex originInside originRead
    (by omega)).2.2
  rw [originChild, extends_] at originPath
  obtain ⟨stemEq, byteEq⟩ := List.append_inj' originPath rfl
  have originEq : n = origin :=
    trie.distinct n origin (getStep_range read).1 nInside (getStep_range originRead).1
      originInside stemEq
  subst originEq
  rw [read, Option.some.injEq] at originRead
  subst originRead
  have indexEq : index = originIndex := by
    have sameIndex := congrArg childIndex (List.cons.inj byteEq).1
    simpa only [childIndex_indexByte, Option.some.injEq] using sameIndex
  rw [indexEq]
  exact originChild

/-- The words of the nodes are closed under prefixes. -/
theorem Trie.prefix_closed (trie : Trie buf size path) (stem tail : Bytes) (m : Nat)
    (positive : 1 ≤ m) (inside : m ≤ size) (wordEq : path m = stem ++ tail) :
    ∃ n, 1 ≤ n ∧ n ≤ size ∧ path n = stem := by
  induction tail using List.reverseRecOn generalizing m with
  | nil => exact ⟨m, positive, inside, by rw [wordEq, List.append_nil]⟩
  | append_singleton front last ih =>
      have notRoot : 1 < m := by
        rcases Nat.lt_or_ge 1 m with above | below
        · exact above
        · have mRoot : m = 1 := by omega
          rw [mRoot, trie.root] at wordEq
          simp at wordEq
      obtain ⟨origin, originStep, originIndex, originInside, originRead, originChild⟩ :=
        trie.parent m notRoot inside
      have originPath := (trie.child origin originStep originIndex originInside originRead
        (by omega)).2.2
      rw [originChild, wordEq, ← List.append_assoc] at originPath
      exact ih origin (getStep_range originRead).1 originInside
        (List.append_inj' originPath rfl).1.symm

theorem Trie.absent_beyond (trie : Trie buf size path) {n : Nat} {step : Step} {index : Fin 96}
    (inside : n ≤ size) (read : getStep buf n = some step) (unlinked : step.k index = 0)
    (tail : Bytes) : path n ++ indexByte index :: tail ∉ words size path := by
  intro member
  obtain ⟨m, mPositive, mInside, mPath⟩ := mem_words.mp member
  obtain ⟨middle, middlePositive, middleInside, middlePath⟩ :=
    trie.prefix_closed (path n ++ [indexByte index]) tail m mPositive mInside
      (by rw [mPath, List.append_assoc, List.singleton_append])
  have link := trie.linked inside read middlePositive middleInside middlePath
  omega

theorem Trie.absent_of_invalid (trie : Trie buf size path) {a : UInt8} (invalid : childIndex a = none)
    (stem tail : Bytes) : stem ++ a :: tail ∉ words size path := by
  intro member
  obtain ⟨m, mPositive, mInside, mPath⟩ := mem_words.mp member
  obtain ⟨middle, middlePositive, middleInside, middlePath⟩ :=
    trie.prefix_closed (stem ++ [a]) tail m mPositive mInside
      (by rw [mPath, List.append_assoc, List.singleton_append])
  have notRoot : 1 < middle := by
    rcases Nat.lt_or_ge 1 middle with above | below
    · exact above
    · have isRoot : middle = 1 := by omega
      rw [isRoot, trie.root] at middlePath
      simp at middlePath
  obtain ⟨origin, originStep, originIndex, originInside, originRead, originChild⟩ :=
    trie.parent middle notRoot middleInside
  have originPath := (trie.child origin originStep originIndex originInside originRead
    (by omega)).2.2
  rw [originChild, middlePath] at originPath
  have byteEq := (List.cons.inj (List.append_inj' originPath rfl).2).1
  rw [byteEq, childIndex_indexByte] at invalid
  contradiction

theorem Stores.eq_none_of_not_mem (stores : Stores buf size path table) {key : Key UInt8}
    (absent : key.letters ∉ words size path) : table key = none := by
  by_contra present
  exact absent (mem_words.mpr (stores.inside key present))

/-! ### A larger array -/

theorem getStep_replicate_zero
    (unused : ∀ n, size < n → n ≤ buf.length → getStep buf n = some Step.zero) (extra n : Nat)
    (outside : size < n) (bound : n ≤ (buf ++ List.replicate extra Step.zero).length) :
    getStep (buf ++ List.replicate extra Step.zero) n = some Step.zero := by
  rcases Nat.lt_or_ge buf.length n with beyond | within
  · rw [List.length_append, List.length_replicate] at bound
    rw [getStep_eq_some]
    refine ⟨by omega, ?_⟩
    rw [List.getElem?_append_right (by omega), List.getElem?_replicate, if_pos (by omega)]
  · rw [getStep_append _ within]
    exact unused n outside within

theorem Trie.grow (trie : Trie buf size path) (extra : Nat) :
    Trie (buf ++ List.replicate extra Step.zero) size path := by
  have fits := trie.fits
  refine
    { nonempty := trie.nonempty
      fits := by rw [List.length_append]; omega
      root := trie.root
      child := ?_
      parent := ?_
      distinct := trie.distinct
      unused := getStep_replicate_zero trie.unused extra }
  · intro n step index inside read
    rw [getStep_append _ (by omega)] at read
    exact trie.child n step index inside read
  · intro m notRoot inside
    obtain ⟨n, step, index, nInside, read, link⟩ := trie.parent m notRoot inside
    exact ⟨n, step, index, nInside, by rwa [getStep_append _ (by omega)], link⟩

theorem Stores.grow (trie : Trie buf size path) (stores : Stores buf size path table)
    (extra : Nat) : Stores (buf ++ List.replicate extra Step.zero) size path table := by
  have fits := trie.fits
  refine { exactAt := ?_, patternAt := ?_, inside := stores.inside }
  · intro n step inside read
    rw [getStep_append _ (by omega)] at read
    exact stores.exactAt n step inside read
  · intro n step inside read
    rw [getStep_append _ (by omega)] at read
    exact stores.patternAt n step inside read

/-! ### One more node -/

/-- The paths after node `size + 1` has been linked below `n`. -/
def linkPath (path : Nat → Bytes) (size n : Nat) (index : Fin 96) : Nat → Bytes :=
  Function.update path (size + 1) (path n ++ [indexByte index])

theorem linkPath_new (n : Nat) (index : Fin 96) :
    linkPath path size n index (size + 1) = path n ++ [indexByte index] := by
  rw [linkPath, Function.update_self]

theorem linkPath_old (n : Nat) (index : Fin 96) {m : Nat} (inside : m ≤ size) :
    linkPath path size n index m = path m := by
  rw [linkPath, Function.update_of_ne (by omega)]

theorem words_link (n : Nat) (index : Fin 96) :
    words (size + 1) (linkPath path size n index) =
      insert (path n ++ [indexByte index]) (words size path) := by
  ext word
  rw [Finset.mem_insert, mem_words, mem_words]
  constructor
  · rintro ⟨m, positive, inside, wordEq⟩
    rcases Nat.lt_or_ge size m with new | old
    · have mEq : m = size + 1 := by omega
      rw [mEq, linkPath_new] at wordEq
      exact Or.inl wordEq.symm
    · rw [linkPath_old n index old] at wordEq
      exact Or.inr ⟨m, positive, old, wordEq⟩
  · rintro (wordEq | ⟨m, positive, inside, wordEq⟩)
    · exact ⟨size + 1, by omega, by omega, by rw [linkPath_new, wordEq]⟩
    · exact ⟨m, positive, by omega, by rw [linkPath_old n index inside, wordEq]⟩

theorem Trie.link (trie : Trie buf size path) {n : Nat} {step : Step} {index : Fin 96}
    (inside : n ≤ size) (read : getStep buf n = some step) (unlinked : step.k index = 0)
    (room : size + 1 ≤ buf.length) :
    Trie (buf.set (n - 1) (step.link index (size + 1))) (size + 1)
      (linkPath path size n index) := by
  have nRange := getStep_range read
  have newRead : getStep (buf.set (n - 1) (step.link index (size + 1))) n =
      some (step.link index (size + 1)) := getStep_set_self nRange.1 nRange.2 _
  have otherRead : ∀ m, m ≠ n →
      getStep (buf.set (n - 1) (step.link index (size + 1))) m = getStep buf m :=
    fun m different => getStep_set_ne nRange.1 different _
  have fresh := trie.absent_beyond inside read unlinked []
  refine
    { nonempty := by omega
      fits := by rw [List.length_set]; exact room
      root := by rw [linkPath_old n index trie.nonempty, trie.root]
      child := ?_
      parent := ?_
      distinct := ?_
      unused := ?_ }
  · intro m mStep mIndex mInside mRead linked
    by_cases same : m = n
    · subst same
      rw [newRead, Option.some.injEq] at mRead
      subst mRead
      by_cases newIndex : mIndex = index
      · subst newIndex
        simp only [Step.link, Function.update_self]
        exact ⟨by have := trie.nonempty; omega, le_refl _, by
          rw [linkPath_new, linkPath_old m mIndex inside]⟩
      · simp only [Step.link, Function.update_of_ne newIndex] at linked ⊢
        obtain ⟨above, below, wordEq⟩ := trie.child m step mIndex inside read linked
        exact ⟨above, by omega, by
          rw [linkPath_old m index below, linkPath_old m index inside, wordEq]⟩
    · rw [otherRead m same] at mRead
      rcases Nat.lt_or_ge size m with new | old
      · -- the new node is cleared memory and has no children
        rw [trie.unused m new (getStep_range mRead).2, Option.some.injEq] at mRead
        subst mRead
        exact absurd rfl linked
      · obtain ⟨above, below, wordEq⟩ := trie.child m mStep mIndex old mRead linked
        exact ⟨above, by omega, by
          rw [linkPath_old n index below, linkPath_old n index old, wordEq]⟩
  · intro m notRoot mInside
    rcases Nat.lt_or_ge size m with new | old
    · have mEq : m = size + 1 := by omega
      exact ⟨n, _, index, by omega, newRead, by simp only [Step.link, Function.update_self, mEq]⟩
    · obtain ⟨origin, originStep, originIndex, originInside, originRead, originChild⟩ :=
        trie.parent m notRoot old
      by_cases same : origin = n
      · subst same
        rw [read, Option.some.injEq] at originRead
        subst originRead
        have different : originIndex ≠ index := by
          intro indexEq
          rw [indexEq, unlinked] at originChild
          omega
        exact ⟨origin, _, originIndex, by omega, newRead, by
          simp only [Step.link, Function.update_of_ne different, originChild]⟩
      · exact ⟨origin, originStep, originIndex, by omega, by
          rw [otherRead origin same, originRead], originChild⟩
  · have newDistinct : ∀ m, 1 ≤ m → m ≤ size → path m ≠ path n ++ [indexByte index] :=
      fun m positive mInside same => fresh (mem_words.mpr ⟨m, positive, mInside, same⟩)
    intro left right leftPositive leftInside rightPositive rightInside same
    rcases Nat.lt_or_ge size left with leftNew | leftOld <;>
      rcases Nat.lt_or_ge size right with rightNew | rightOld
    · omega
    · have leftEq : left = size + 1 := by omega
      rw [leftEq, linkPath_new, linkPath_old n index rightOld] at same
      exact absurd same.symm (newDistinct right rightPositive rightOld)
    · have rightEq : right = size + 1 := by omega
      rw [rightEq, linkPath_new, linkPath_old n index leftOld] at same
      exact absurd same (newDistinct left leftPositive leftOld)
    · rw [linkPath_old n index leftOld, linkPath_old n index rightOld] at same
      exact trie.distinct left right leftPositive leftOld rightPositive rightOld same
  · intro m outside mFits
    rw [List.length_set] at mFits
    rw [otherRead m (by omega)]
    exact trie.unused m (by omega) mFits

theorem Stores.link (trie : Trie buf size path) (stores : Stores buf size path table) {n : Nat}
    {step : Step} {index : Fin 96} (inside : n ≤ size) (read : getStep buf n = some step)
    (unlinked : step.k index = 0) (room : size + 1 ≤ buf.length) :
    Stores (buf.set (n - 1) (step.link index (size + 1))) (size + 1)
      (linkPath path size n index) table := by
  have nRange := getStep_range read
  have newRead : getStep (buf.set (n - 1) (step.link index (size + 1))) n =
      some (step.link index (size + 1)) := getStep_set_self nRange.1 nRange.2 _
  have otherRead : ∀ m, m ≠ n →
      getStep (buf.set (n - 1) (step.link index (size + 1))) m = getStep buf m :=
    fun m different => getStep_set_ne nRange.1 different _
  have cleared : getStep buf (size + 1) = some Step.zero :=
    trie.unused (size + 1) (by omega) room
  have fresh : ∀ key : Key UInt8, key.letters = path n ++ [indexByte index] → table key = none :=
    fun key lettersEq => stores.eq_none_of_not_mem
      (by rw [lettersEq]; exact trie.absent_beyond inside read unlinked [])
  refine { exactAt := ?_, patternAt := ?_, inside := ?_ }
  · intro m mStep mInside mRead
    rcases Nat.lt_or_ge size m with new | old
    · have mEq : m = size + 1 := by omega
      rw [otherRead m (by omega), mEq, cleared, Option.some.injEq] at mRead
      rw [mEq, linkPath_new, fresh _ rfl, ← mRead]
      rfl
    · rw [linkPath_old n index old]
      by_cases same : m = n
      · subst same
        rw [newRead, Option.some.injEq] at mRead
        rw [stores.exactAt m step inside read, ← mRead, Step.link]
      · rw [otherRead m same] at mRead
        exact stores.exactAt m mStep old mRead
  · intro m mStep mInside mRead
    rcases Nat.lt_or_ge size m with new | old
    · have mEq : m = size + 1 := by omega
      rw [otherRead m (by omega), mEq, cleared, Option.some.injEq] at mRead
      rw [mEq, linkPath_new, fresh _ rfl, ← mRead]
      rfl
    · rw [linkPath_old n index old]
      by_cases same : m = n
      · subst same
        rw [newRead, Option.some.injEq] at mRead
        rw [stores.patternAt m step inside read, ← mRead, Step.link]
      · rw [otherRead m same] at mRead
        exact stores.patternAt m mStep old mRead
  · intro key present
    obtain ⟨m, positive, mInside, mPath⟩ := stores.inside key present
    exact ⟨m, positive, by omega, by rw [linkPath_old n index mInside, mPath]⟩

/-! ### One assignment to a value -/

/-- Assigning a value to a node changes the table at its word and leaves the
tree alone. -/
theorem Trie.assign (trie : Trie buf size path) {n : Nat} {step changed : Step}
    (read : getStep buf n = some step) (sameChildren : changed.k = step.k)
    (inside : n ≤ size) : Trie (buf.set (n - 1) changed) size path := by
  have nRange := getStep_range read
  have readCases : ∀ m mStep, getStep (buf.set (n - 1) changed) m = some mStep →
      ∃ old, getStep buf m = some old ∧ old.k = mStep.k := by
    intro m mStep mRead
    by_cases same : m = n
    · subst same
      rw [getStep_set_self nRange.1 nRange.2, Option.some.injEq] at mRead
      exact ⟨step, read, by rw [← mRead, sameChildren]⟩
    · rw [getStep_set_ne nRange.1 same] at mRead
      exact ⟨mStep, mRead, rfl⟩
  refine
    { nonempty := trie.nonempty
      fits := by rw [List.length_set]; exact trie.fits
      root := trie.root
      child := ?_
      parent := ?_
      distinct := trie.distinct
      unused := ?_ }
  · intro m mStep index mInside mRead linked
    obtain ⟨old, oldRead, childrenEq⟩ := readCases m mStep mRead
    rw [← childrenEq] at linked ⊢
    exact trie.child m old index mInside oldRead linked
  · intro m notRoot mInside
    obtain ⟨origin, originStep, originIndex, originInside, originRead, originChild⟩ :=
      trie.parent m notRoot mInside
    by_cases same : origin = n
    · subst same
      rw [read, Option.some.injEq] at originRead
      exact ⟨origin, changed, originIndex, originInside,
        getStep_set_self nRange.1 nRange.2 _, by rw [sameChildren, originRead, originChild]⟩
    · exact ⟨origin, originStep, originIndex, originInside,
        by rw [getStep_set_ne nRange.1 same, originRead], originChild⟩
  · intro m outside mFits
    rw [List.length_set] at mFits
    rw [getStep_set_ne nRange.1 (by omega)]
    exact trie.unused m outside mFits

theorem Stores.assign_exact (trie : Trie buf size path) (stores : Stores buf size path table)
    {n : Nat} {step : Step} (read : getStep buf n = some step) (inside : n ≤ size) (value : Nat) :
    Stores (buf.set (n - 1) { step with endValue := value }) size path
      (Function.update table (.exact (path n)) (stored value)) := by
  have nRange := getStep_range read
  refine { exactAt := ?_, patternAt := ?_, inside := ?_ }
  · intro m mStep mInside mRead
    by_cases same : m = n
    · subst same
      rw [getStep_set_self nRange.1 nRange.2, Option.some.injEq] at mRead
      rw [Function.update_self, ← mRead]
    · rw [getStep_set_ne nRange.1 same] at mRead
      have different : path m ≠ path n := fun pathEq =>
        same (trie.distinct m n (getStep_range mRead).1 mInside nRange.1 inside pathEq)
      rw [Function.update_of_ne (by simpa using different)]
      exact stores.exactAt m mStep mInside mRead
  · intro m mStep mInside mRead
    rw [Function.update_of_ne (by simp)]
    by_cases same : m = n
    · subst same
      rw [getStep_set_self nRange.1 nRange.2, Option.some.injEq] at mRead
      rw [stores.patternAt m step mInside read, ← mRead]
    · rw [getStep_set_ne nRange.1 same] at mRead
      exact stores.patternAt m mStep mInside mRead
  · intro key present
    by_cases same : key = .exact (path n)
    · exact ⟨n, nRange.1, inside, by rw [same]; rfl⟩
    · rw [Function.update_of_ne same] at present
      exact stores.inside key present

theorem Stores.assign_pattern (trie : Trie buf size path) (stores : Stores buf size path table)
    {n : Nat} {step : Step} (read : getStep buf n = some step) (inside : n ≤ size) (value : Nat) :
    Stores (buf.set (n - 1) { step with std := value }) size path
      (Function.update table (.pattern (path n)) (stored value)) := by
  have nRange := getStep_range read
  refine { exactAt := ?_, patternAt := ?_, inside := ?_ }
  · intro m mStep mInside mRead
    rw [Function.update_of_ne (by simp)]
    by_cases same : m = n
    · subst same
      rw [getStep_set_self nRange.1 nRange.2, Option.some.injEq] at mRead
      rw [stores.exactAt m step mInside read, ← mRead]
    · rw [getStep_set_ne nRange.1 same] at mRead
      exact stores.exactAt m mStep mInside mRead
  · intro m mStep mInside mRead
    by_cases same : m = n
    · subst same
      rw [getStep_set_self nRange.1 nRange.2, Option.some.injEq] at mRead
      rw [Function.update_self, ← mRead]
    · rw [getStep_set_ne nRange.1 same] at mRead
      have different : path m ≠ path n := fun pathEq =>
        same (trie.distinct m n (getStep_range mRead).1 mInside nRange.1 inside pathEq)
      rw [Function.update_of_ne (by simpa using different)]
      exact stores.patternAt m mStep mInside mRead
  · intro key present
    by_cases same : key = .pattern (path n)
    · exact ⟨n, nRange.1, inside, by rw [same]; rfl⟩
    · rw [Function.update_of_ne same] at present
      exact stores.inside key present

end

end Ijson
