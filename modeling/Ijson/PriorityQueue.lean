/-
Queues ordered by a key, with equal keys in the order of their arrival.

An element is put behind the last one whose key is not less, looked for from
the back.  Arrival times are not part of a queue; `Ordered` says that the
elements can be given times at which they arrived so that keys decide first
and times second.
-/

import Mathlib.Data.List.TakeWhile
import Mathlib.Order.Lattice

namespace Ijson

namespace PriorityQueue

variable {α β : Type} [LinearOrder β] (key : α → β)

/-- Put an element behind the last one whose key is not less. -/
def insert (element : α) (queue : List α) : List α :=
  let less := fun other : α => decide (key other < key element)
  (queue.reverse.dropWhile less).reverse ++ element :: (queue.reverse.takeWhile less).reverse

/-- A larger key, or the same and an earlier arrival. -/
def Before (first last : Nat × α) : Prop :=
  key last.2 < key first.2 ∨ key last.2 = key first.2 ∧ first.1 < last.1

variable {key}

theorem Before.le {first last : Nat × α} (before : Before key first last) :
    key last.2 ≤ key first.2 := by
  rcases before with less | ⟨same, _⟩
  · exact le_of_lt less
  · exact le_of_eq same

/-- The elements with arrival times that agree with `arrived`, in order. -/
def Ordered (key : α → β) (arrived : Nat → α → Prop) (queue : List α) : Prop :=
  ∃ stamped : List (Nat × α), stamped.map Prod.snd = queue ∧
    (∀ entry ∈ stamped, arrived entry.1 entry.2) ∧ stamped.Pairwise (Before key)

namespace Ordered

variable {arrived : Nat → α → Prop} {queue : List α}

theorem nil : Ordered key arrived [] := ⟨[], rfl, List.forall_mem_nil _, List.Pairwise.nil⟩

theorem mono {later : Nat → α → Prop} (ordered : Ordered key arrived queue)
    (more : ∀ time element, arrived time element → later time element) :
    Ordered key later queue := by
  obtain ⟨stamped, mapped, arrivals, pairwise⟩ := ordered
  exact ⟨stamped, mapped, fun entry member => more _ _ (arrivals entry member), pairwise⟩

theorem sublist {fewer : List α} (ordered : Ordered key arrived queue)
    (part : fewer.Sublist queue) : Ordered key arrived fewer := by
  obtain ⟨stamped, rfl, arrivals, pairwise⟩ := ordered
  obtain ⟨left, inside, rfl⟩ := List.sublist_map_iff.mp part
  exact ⟨left, rfl, fun entry member => arrivals entry (inside.subset member), pairwise.sublist inside⟩

end Ordered

/-- In an ordered queue, what stands before the place of a new element has no
lesser key, and what stands behind it has. -/
theorem split_keys {stamped : List (Nat × α)} (pairwise : stamped.Pairwise (Before key)) (x : α) :
    (∀ entry ∈ (stamped.reverse.dropWhile fun entry => decide (key entry.2 < key x)).reverse,
      key x ≤ key entry.2) ∧
    ∀ entry ∈ (stamped.reverse.takeWhile fun entry => decide (key entry.2 < key x)).reverse,
      key entry.2 < key x := by
  constructor
  · intro entry member
    rw [List.mem_reverse] at member
    have descending : stamped.reverse.Pairwise fun last first => Before key first last :=
      List.pairwise_reverse.mpr (by simpa using pairwise)
    have rest := descending.sublist (List.dropWhile_sublist fun entry => decide (key entry.2 < key x))
    have head := List.head?_dropWhile_not (fun entry : Nat × α => decide (key entry.2 < key x))
      stamped.reverse
    cases dropped : stamped.reverse.dropWhile fun entry => decide (key entry.2 < key x) with
    | nil =>
        rw [dropped] at member
        cases member
    | cons first others =>
        rw [dropped] at member rest head
        have notLess : key x ≤ key first.2 := by
          simpa using head
        rcases List.mem_cons.mp member with same | other
        · rw [same]
          exact notLess
        · exact le_trans notLess (List.rel_of_pairwise_cons rest other).le
  · intro entry member
    rw [List.mem_reverse] at member
    simpa using List.mem_takeWhile_imp member

/-- A new element comes behind those with no lesser key. -/
theorem Ordered.insert {arrived later : Nat → α → Prop} {queue : List α}
    (ordered : Ordered key arrived queue) {now : Nat} {element : α}
    (past : ∀ time other, arrived time other → time < now ∧ later time other)
    (arrives : later now element) : Ordered key later (insert key element queue) := by
  obtain ⟨stamped, rfl, arrivals, pairwise⟩ := ordered
  have keys := split_keys pairwise element
  let less := fun entry : Nat × α => decide (key entry.2 < key element)
  let front := (stamped.reverse.dropWhile less).reverse
  let back := (stamped.reverse.takeWhile less).reverse
  have whole : front ++ back = stamped := by
    rw [← List.reverse_append, List.takeWhile_append_dropWhile, List.reverse_reverse]
  have mem : ∀ entry, entry ∈ front ++ back → arrived entry.1 entry.2 := by
    intro entry member
    rw [whole] at member
    exact arrivals entry member
  refine ⟨front ++ (now, element) :: back, ?_, fun entry member => ?_, ?_⟩
  · unfold PriorityQueue.insert
    simp only [List.map_append, List.map_cons, front, back, List.map_reverse, less]
    rw [← List.map_reverse (l := stamped), List.dropWhile_map, List.takeWhile_map]
    rfl
  · rcases List.mem_append.mp member with inFront | inRest
    · exact (past _ _ (mem entry (List.mem_append_left back inFront))).2
    · rcases List.mem_cons.mp inRest with same | inBack
      · rw [same]
        exact arrives
      · exact (past _ _ (mem entry (List.mem_append_right front inBack))).2
  · rw [← whole, List.pairwise_append] at pairwise
    obtain ⟨frontPairs, backPairs, across⟩ := pairwise
    refine List.pairwise_append.mpr ⟨frontPairs, List.pairwise_cons.mpr ⟨fun last inBack => ?_,
      backPairs⟩, fun first inFront last inRest => ?_⟩
    · exact Or.inl (keys.2 last inBack)
    · rcases List.mem_cons.mp inRest with same | inBack
      · rw [same]
        have earlier := (past _ _ (mem first (List.mem_append_left back inFront))).1
        rcases lt_or_eq_of_le (keys.1 first inFront) with less | same
        · exact Or.inl less
        · exact Or.inr ⟨same, earlier⟩
      · exact across first inFront last inBack

end PriorityQueue

end Ijson
