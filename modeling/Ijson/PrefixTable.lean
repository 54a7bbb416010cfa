/-
Tables that route a word by its exact name or by the longest matching pattern.

A key is either one exact word or a pattern that stands for all words with a
given prefix.  The lookup prefers the exact key; among the patterns it prefers
the longest prefix.
-/

import Mathlib.Data.List.Infix
import Mathlib.Logic.Function.Basic

namespace Ijson.PrefixTable

variable {α β : Type}

inductive Key (α : Type) where
  | exact (word : List α)
  | pattern (stem : List α)
  deriving DecidableEq

/-- The letters that lead to the place of a key in a trie. -/
def Key.letters : Key α → List α
  | .exact word => word
  | .pattern stem => stem

abbrev Table (α β : Type) := Key α → Option β

def empty : Table α β := fun _ => none

/-- The value at the longest prefix of the word on which the table is
defined. -/
def longest (table : List α → Option β) : List α → Option β
  | [] => table []
  | letter :: rest =>
      (longest (fun stem => table (letter :: stem)) rest).or (table [])

def lookup (table : Table α β) (word : List α) : Option β :=
  (table (.exact word)).or (longest (fun stem => table (.pattern stem)) word)

theorem longest_eq_none_iff (table : List α → Option β) (word : List α) :
    longest table word = none ↔ ∀ stem, stem <+: word → table stem = none := by
  induction word generalizing table with
  | nil =>
      simp only [longest, List.prefix_nil, forall_eq]
  | cons letter rest ih =>
      rw [longest, Option.or_eq_none_iff, ih]
      constructor
      · rintro ⟨inner, outer⟩ stem isPrefix
        cases stem with
        | nil => exact outer
        | cons head tail =>
            obtain ⟨headEq, tailPrefix⟩ := List.cons_prefix_cons.mp isPrefix
            subst headEq
            exact inner tail tailPrefix
      · intro absent
        exact ⟨fun stem isPrefix =>
            absent (letter :: stem) (List.cons_prefix_cons.mpr ⟨rfl, isPrefix⟩),
          absent [] List.nil_prefix⟩

/-- A stem wins when it is defined and no longer prefix is. -/
theorem longest_eq_of_maximal (table : List α → Option β) (word stem : List α) (value : β)
    (isPrefix : stem <+: word) (defined : table stem = some value)
    (maximal : ∀ other, other <+: word → table other ≠ none → other.length ≤ stem.length) :
    longest table word = some value := by
  induction word generalizing table stem with
  | nil =>
      rw [List.prefix_nil.mp isPrefix] at defined
      exact defined
  | cons letter rest ih =>
      rw [longest]
      cases stem with
      | nil =>
          have inner : longest (fun tail => table (letter :: tail)) rest = none := by
            rw [longest_eq_none_iff]
            intro tail tailPrefix
            by_contra present
            have bound := maximal (letter :: tail)
              (List.cons_prefix_cons.mpr ⟨rfl, tailPrefix⟩) present
            simp at bound
          rw [inner, Option.none_or, defined]
      | cons head tail =>
          obtain ⟨headEq, tailPrefix⟩ := List.cons_prefix_cons.mp isPrefix
          subst headEq
          have inner := ih (fun tail => table (head :: tail)) tail tailPrefix defined (by
            intro other otherPrefix present
            have bound := maximal (head :: other)
              (List.cons_prefix_cons.mpr ⟨rfl, otherPrefix⟩) present
            simpa using bound)
          rw [inner, Option.some_or]

theorem lookup_exact (table : Table α β) (word : List α) (value : β)
    (defined : table (.exact word) = some value) : lookup table word = some value := by
  rw [lookup, defined, Option.some_or]

theorem lookup_pattern (table : Table α β) (word stem : List α) (value : β)
    (noExact : table (.exact word) = none) (isPrefix : stem <+: word)
    (defined : table (.pattern stem) = some value)
    (maximal : ∀ other, other <+: word → table (.pattern other) ≠ none →
      other.length ≤ stem.length) :
    lookup table word = some value := by
  rw [lookup, noExact, Option.none_or]
  exact longest_eq_of_maximal _ word stem value isPrefix defined maximal

theorem lookup_eq_none_iff (table : Table α β) (word : List α) :
    lookup table word = none ↔
      table (.exact word) = none ∧ ∀ stem, stem <+: word → table (.pattern stem) = none := by
  rw [lookup, Option.or_eq_none_iff, longest_eq_none_iff]

theorem longest_map {γ : Type} (f : β → γ) (table : List α → Option β) (word : List α) :
    longest (fun stem => (table stem).map f) word = (longest table word).map f := by
  induction word generalizing table with
  | nil => rfl
  | cons letter rest ih =>
      rw [longest, longest, ih (fun stem => table (letter :: stem)), Option.map_or]

theorem lookup_map {γ : Type} (f : β → γ) (table : Table α β) (word : List α) :
    lookup (fun key => (table key).map f) word = (lookup table word).map f := by
  rw [lookup, lookup, longest_map f (fun stem => table (.pattern stem)), Option.map_or]

end Ijson.PrefixTable
