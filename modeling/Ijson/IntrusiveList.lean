/-
Doubly linked lists whose nodes know their list.

A new node goes to the front of its list, and a node can be taken out wherever
it stands.  Nodes are numbered in the order in which they are allocated; to touch
a node that has been freed is undefined.  `Chained` says that the pointers of the
nodes are those of given sequences.
-/

import Mathlib.Logic.Function.Basic
import Mathlib.Data.List.Basic
import Mathlib.Data.List.Nodup
import Mathlib.Data.List.Perm.Subperm

namespace Ijson

structure Node (κ α : Type) where
  list : κ
  prev : Option Nat
  next : Option Nat
  value : α

/-- The nodes that are in use, the first one of each list, and how many have
been allocated so far. -/
structure Nodes (κ α : Type) where
  node : Nat → Option (Node κ α)
  head : κ → Option Nat
  count : Nat

namespace Nodes

variable {κ α : Type}

def new : Nodes κ α :=
  { node := fun _ => none
    head := fun _ => none
    count := 0 }

/-- Assign to a field of a node. -/
def write (h : Nodes κ α) (n : Nat) (change : Node κ α → Node κ α) : Option (Nodes κ α) :=
  match h.node n with
  | none => none
  | some node => some { h with node := Function.update h.node n (some (change node)) }

/-- The same behind a test of the pointer. -/
def writeIf (h : Nodes κ α) (n : Option Nat) (change : Node κ α → Node κ α) : Option (Nodes κ α) :=
  match n with
  | none => some h
  | some n => h.write n change

def setHead [DecidableEq κ] (h : Nodes κ α) (l : κ) (n : Option Nat) : Nodes κ α :=
  { h with head := Function.update h.head l n }

def alloc (h : Nodes κ α) (l : κ) (value : α) : Nodes κ α :=
  { h with
    node := Function.update h.node h.count (some { list := l, prev := none, next := none, value := value })
    count := h.count + 1 }

def free (h : Nodes κ α) (n : Nat) : Nodes κ α := { h with node := Function.update h.node n none }

/-- A new node in front of the list, and its number. -/
def pushFront [DecidableEq κ] (h : Nodes κ α) (l : κ) (value : α) : Option (Nodes κ α × Nat) :=
  let n := h.count
  let h := h.alloc l value
  match h.head l with
  | none => some (h.setHead l (some n), n)
  | some first =>
      (h.write n fun node => { node with next := some first }).bind fun h =>
        (h.write first fun node => { node with prev := some n }).map fun h => (h.setHead l (some n), n)

/-- Take a node out of its list; the first one differs from the others. -/
def detach [DecidableEq κ] (h : Nodes κ α) (n : Nat) : Option (Nodes κ α) :=
  match h.node n with
  | none => none
  | some node =>
      if h.head node.list = some n then
        (h.setHead node.list node.next).writeIf node.next fun next => { next with prev := none }
      else
        (h.writeIf node.prev fun prev => { prev with next := node.next }).bind fun h =>
          h.writeIf node.next fun next => { next with prev := node.prev }

/-- The values on the way along `next`. -/
def walk (h : Nodes κ α) : Nat → Option Nat → List α
  | 0, _ => []
  | _ + 1, none => []
  | fuel + 1, some n =>
      match h.node n with
      | none => []
      | some node => node.value :: h.walk fuel node.next

/-- Nodes one behind the other, between `before` and `after`. -/
def Segment (h : Nodes κ α) (l : κ) : Option Nat → List Nat → Option Nat → Prop
  | _, [], _ => True
  | before, n :: rest, after =>
      (∃ node, h.node n = some node ∧ node.list = l ∧ node.prev = before ∧
        node.next = rest.head?.or after) ∧ h.Segment l (some n) rest after

/-- The pointers are those of the sequences `chain`, and no other node is in use. -/
structure Chained (h : Nodes κ α) (chain : κ → List Nat) : Prop where
  head : ∀ l, h.head l = (chain l).head?
  segment : ∀ l, h.Segment l none (chain l) none
  nodup : ∀ l, (chain l).Nodup
  inside : ∀ n node, h.node n = some node → n ∈ chain node.list
  known : ∀ n, h.count ≤ n → h.node n = none

/-- The value of a node. -/
def valueAt (h : Nodes κ α) (n : Nat) : Option α := (h.node n).map Node.value

theorem new_chained : (new : Nodes κ α).Chained fun _ => [] :=
  { head := fun _ => rfl
    segment := fun _ => trivial
    nodup := fun _ => List.nodup_nil
    inside := fun _ _ used => by cases used
    known := fun _ _ => rfl }

theorem free_valueAt (h : Nodes κ α) (n : Nat) : (h.free n).valueAt n = none := by
  have freed : (h.free n).node n = none := Function.update_self _ _ _
  rw [valueAt, freed]
  rfl

theorem free_valueAt_of_ne (h : Nodes κ α) {n k : Nat} (other : k ≠ n) : (h.free n).valueAt k = h.valueAt k :=
  congrArg (Option.map Node.value) (show (h.free n).node k = h.node k from Function.update_of_ne other _ _)

/-! ### Segments -/

section Segments

variable {h g : Nodes κ α} {l : κ} {before after : Option Nat} {ids : List Nat}

theorem segment_cons (n : Nat) (rest : List Nat) : h.Segment l before (n :: rest) after ↔
    (∃ node, h.node n = some node ∧ node.list = l ∧ node.prev = before ∧ node.next = rest.head?.or after) ∧
      h.Segment l (some n) rest after :=
  Iff.rfl

theorem Segment.congr (segment : h.Segment l before ids after) (same : ∀ n ∈ ids, g.node n = h.node n) :
    g.Segment l before ids after := by
  induction ids generalizing before with
  | nil => trivial
  | cons n rest ih =>
      obtain ⟨⟨node, read, facts⟩, later⟩ := segment
      refine ⟨⟨node, ?_, facts⟩, ih later fun m member => same m (List.mem_cons_of_mem n member)⟩
      rw [same n List.mem_cons_self, read]

theorem segment_append (front back : List Nat) : h.Segment l before (front ++ back) after ↔
    h.Segment l before front (back.head?.or after) ∧ h.Segment l (front.getLast?.or before) back after := by
  induction front generalizing before with
  | nil =>
      change h.Segment l before back after ↔ True ∧ h.Segment l before back after
      rw [true_and]
  | cons n front ih =>
      have last : ((n :: front).getLast?).or before = front.getLast?.or (some n) := by
        cases front with
        | nil => rfl
        | cons m front =>
            rw [List.getLast?_cons_cons]
            cases found : (m :: front).getLast? with
            | none =>
                rw [List.getLast?_eq_none_iff] at found
                cases found
            | some x => rfl
      have next : (front ++ back).head?.or after = front.head?.or (back.head?.or after) := by
        cases front with
        | nil => rfl
        | cons m front => rfl
      rw [List.cons_append, last, segment_cons, segment_cons, next, ih, and_assoc]

theorem Segment.mem (segment : h.Segment l before ids after) {n : Nat} (member : n ∈ ids) :
    ∃ node, h.node n = some node ∧ node.list = l := by
  induction ids generalizing before with
  | nil => cases member
  | cons m rest ih =>
      obtain ⟨⟨node, read, isList, _⟩, later⟩ := segment
      rcases List.mem_cons.mp member with same | inside
      · rw [same]
        exact ⟨node, read, isList⟩
      · exact ih later inside

/-- Only links of the given nodes differ. -/
structure Rewired (h g : Nodes κ α) (ids : List Nat) : Prop where
  head : g.head = h.head
  count : g.count = h.count
  apart : ∀ k, k ∉ ids → g.node k = h.node k
  values : ∀ k, g.valueAt k = h.valueAt k

theorem Rewired.refl (h : Nodes κ α) (ids : List Nat) : h.Rewired h ids :=
  { head := rfl, count := rfl, apart := fun _ _ => rfl, values := fun _ => rfl }

theorem Rewired.trans {f : Nodes κ α} {more : List Nat} (first : f.Rewired h ids) (second : h.Rewired g more) :
    f.Rewired g (ids ++ more) :=
  { head := second.head.trans first.head
    count := second.count.trans first.count
    apart := fun k outside =>
      (second.apart k fun member => outside (List.mem_append_right ids member)).trans
        (first.apart k fun member => outside (List.mem_append_left more member))
    values := fun k => (second.values k).trans (first.values k) }

theorem write_rewired (ids : List Nat) {n : Nat} {node : Node κ α} (read : h.node n = some node) (change : Node κ α → Node κ α)
    (value : (change node).value = node.value) (member : n ∈ ids) :
    ∃ g, h.write n change = some g ∧ g.node n = some (change node) ∧ (∀ k, k ≠ n → g.node k = h.node k) ∧
      h.Rewired g ids := by
  have away : ∀ k, k ≠ n → Function.update h.node n (some (change node)) k = h.node k :=
    fun k different => Function.update_of_ne different _ _
  refine ⟨{ h with node := Function.update h.node n (some (change node)) }, ?_,
    Function.update_self _ _ _, away, rfl, rfl, ?_, ?_⟩
  · rw [write, read]
  · exact fun k outside => away k fun same => outside (same ▸ member)
  · intro k
    by_cases same : k = n
    · simp only [valueAt, same, read, Function.update_self, Option.map_some, value]
    · exact congrArg (Option.map Node.value) (away k same)

theorem Segment.setPrev (segment : h.Segment l before ids after) (nodup : ids.Nodup) (other : Option Nat) :
    ∃ g, h.writeIf ids.head? (fun node => { node with prev := other }) = some g ∧
      g.Segment l other ids after ∧ h.Rewired g ids := by
  cases ids with
  | nil => exact ⟨h, rfl, trivial, Rewired.refl h []⟩
  | cons m rest =>
      obtain ⟨⟨node, read, isList, _, next⟩, later⟩ := segment
      obtain ⟨g, written, found, away, rewired⟩ := write_rewired (m :: rest) read
        (fun node => { node with prev := other }) rfl List.mem_cons_self
      refine ⟨g, written, ⟨⟨_, found, isList, rfl, next⟩, later.congr fun k member => away k ?_⟩, rewired⟩
      intro same
      exact (List.nodup_cons.mp nodup).1 (same ▸ member)

theorem Segment.setNext (segment : h.Segment l before ids after) (nodup : ids.Nodup) (other : Option Nat) :
    ∃ g, h.writeIf ids.getLast? (fun node => { node with next := other }) = some g ∧
      g.Segment l before ids other ∧ h.Rewired g ids := by
  rcases List.eq_nil_or_concat ids with none | ⟨front, p, split⟩
  · subst none
    exact ⟨h, rfl, trivial, Rewired.refl h []⟩
  · subst split
    rw [List.concat_eq_append] at segment nodup ⊢
    obtain ⟨first, ⟨node, read, isList, prev, _⟩, _⟩ := (segment_append front [p]).mp segment
    obtain ⟨g, written, found, away, rewired⟩ := write_rewired (front ++ [p]) read
      (fun node => { node with next := other }) rfl (List.mem_append_right front List.mem_cons_self)
    refine ⟨g, by rw [List.getLast?_concat]; exact written, (segment_append front [p]).mpr ⟨?_, ?_⟩, rewired⟩
    · refine first.congr fun k member => away k fun same => ?_
      exact (List.nodup_append.mp nodup).2.2 k member p List.mem_cons_self same
    · exact ⟨⟨_, found, isList, prev, rfl⟩, trivial⟩

end Segments

/-! ### The operations keep the sequences -/

section Operations

variable {h g : Nodes κ α} {chain : κ → List Nat} {l : κ}

theorem Chained.used (chained : h.Chained chain) {n : Nat} (member : n ∈ chain l) :
    ∃ node, h.node n = some node ∧ node.list = l :=
  (chained.segment l).mem member

theorem Chained.apart (chained : h.Chained chain) {k : κ} {n : Nat} (first : n ∈ chain k) (second : n ∈ chain l) :
    k = l := by
  obtain ⟨node, read, isFirst⟩ := chained.used first
  obtain ⟨other, again, isSecond⟩ := chained.used second
  rw [read] at again
  cases again
  exact isFirst.symm.trans isSecond

theorem Chained.fresh (chained : h.Chained chain) : h.count ∉ chain l := by
  intro member
  obtain ⟨node, read, _⟩ := chained.used member
  rw [chained.known h.count (Nat.le_refl h.count)] at read
  cases read

theorem alloc_away (h : Nodes κ α) (l : κ) (v : α) {k : Nat} (different : k ≠ h.count) :
    (h.alloc l v).node k = h.node k :=
  Function.update_of_ne different _ _

/-- A list is no longer than the number of nodes that were allocated. -/
theorem Chained.length_le (chained : h.Chained chain) (l : κ) : (chain l).length ≤ h.count := by
  have inside : chain l ⊆ List.range h.count := by
    intro n member
    obtain ⟨node, read, _⟩ := chained.used member
    rw [List.mem_range]
    apply Nat.lt_of_not_le
    intro large
    rw [chained.known n large] at read
    cases read
  have shorter := ((chained.nodup l).subperm inside).length_le
  rwa [List.length_range] at shorter

/-- Walking from the front passes the values of the sequence. -/
theorem Segment.walk {before : Option Nat} {ids : List Nat} (segment : h.Segment l before ids none) {fuel : Nat}
    (enough : ids.length ≤ fuel) : h.walk fuel ids.head? = ids.filterMap h.valueAt := by
  induction ids generalizing before fuel with
  | nil => cases fuel <;> rfl
  | cons n rest ih =>
      obtain ⟨⟨node, read, _, _, next⟩, later⟩ := segment
      cases fuel with
      | zero => cases enough
      | succ fuel =>
          have next : node.next = rest.head? := next.trans (Option.or_none)
          have value : h.valueAt n = some node.value := congrArg (Option.map Node.value) read
          rw [List.filterMap_cons, value, List.head?_cons, Nodes.walk, read]
          change node.value :: h.walk fuel node.next = _
          rw [next, ih later (Nat.le_of_succ_le_succ enough)]

theorem Chained.around (chained : h.Chained chain) {n : Nat} {node : Node κ α} (read : h.node n = some node) :
    ∃ front back, chain node.list = front ++ n :: back ∧ node.prev = front.getLast? ∧
      node.next = back.head? ∧ h.Segment node.list none front (some n) ∧
      h.Segment node.list (some n) back none := by
  obtain ⟨front, back, split⟩ := List.append_of_mem (chained.inside n node read)
  have segment := chained.segment node.list
  rw [split] at segment
  obtain ⟨first, ⟨found, again, _, prev, next⟩, later⟩ := (segment_append front (n :: back)).mp segment
  rw [read] at again
  cases again
  exact ⟨front, back, split, prev.trans Option.or_none, next.trans Option.or_none, first, later⟩

theorem Chained.head_first (chained : h.Chained chain) {n : Nat} (first : h.head l = some n) :
    ∃ node, h.node n = some node ∧ node.list = l ∧ node.prev = none := by
  have segment := chained.segment l
  rw [chained.head l] at first
  cases shape : chain l with
  | nil =>
      rw [shape] at first
      cases first
  | cons m rest =>
      rw [shape] at first segment
      cases first
      obtain ⟨⟨node, read, isList, prev, _⟩, _⟩ := segment
      exact ⟨node, read, isList, prev⟩

theorem Chained.next_prev (chained : h.Chained chain) {n m : Nat} {node : Node κ α}
    (read : h.node n = some node) (next : node.next = some m) :
    ∃ other, h.node m = some other ∧ other.list = node.list ∧ other.prev = some n := by
  obtain ⟨front, back, _, _, behind, _, later⟩ := chained.around read
  cases back with
  | nil => rw [behind] at next; cases next
  | cons k back =>
      rw [behind] at next
      cases next
      obtain ⟨⟨other, found, isList, prev, _⟩, _⟩ := later
      exact ⟨other, found, isList, prev⟩

theorem Chained.prev_next (chained : h.Chained chain) {n m : Nat} {node : Node κ α}
    (read : h.node n = some node) (prev : node.prev = some m) :
    ∃ other, h.node m = some other ∧ other.list = node.list ∧ other.next = some n := by
  obtain ⟨front, back, _, ahead, _, first, _⟩ := chained.around read
  rcases List.eq_nil_or_concat front with none | ⟨front', p, split⟩
  · subst none
    rw [ahead] at prev
    cases prev
  · subst split
    rw [List.concat_eq_append] at ahead first
    rw [ahead, List.getLast?_concat] at prev
    cases prev
    obtain ⟨_, ⟨other, found, isList, _, next⟩, _⟩ := (segment_append front' [m]).mp first
    exact ⟨other, found, isList, next⟩

variable [DecidableEq κ]

/-- One list is replaced: its old nodes are freed or among the new ones, and
nothing else is touched. -/
theorem Chained.relist (chained : h.Chained chain) {ids : List Nat}
    (head : g.head = Function.update h.head l ids.head?) (segment : g.Segment l none ids none)
    (nodup : ids.Nodup) (own : ∀ k, k ≠ l → ∀ n, n ∈ chain k → n ∉ ids)
    (gone : ∀ n, n ∈ chain l → n ∉ ids → g.node n = none)
    (same : ∀ n, n ∉ chain l → n ∉ ids → g.node n = h.node n)
    (known : ∀ n, g.count ≤ n → g.node n = none) :
    g.Chained (Function.update chain l ids) := by
  have other : ∀ k, k ≠ l → ∀ n, n ∈ chain k → g.node n = h.node n := fun k different n member =>
    same n (fun inside => different (chained.apart member inside)) (own k different n member)
  constructor
  · intro k
    rw [head]
    by_cases here : k = l
    · rw [here, Function.update_self, Function.update_self]
    · rw [Function.update_of_ne here, Function.update_of_ne here, chained.head k]
  · intro k
    by_cases here : k = l
    · rw [here, Function.update_self]
      exact segment
    · rw [Function.update_of_ne here]
      exact (chained.segment k).congr (other k here)
  · intro k
    by_cases here : k = l
    · rw [here, Function.update_self]
      exact nodup
    · rw [Function.update_of_ne here]
      exact chained.nodup k
  · intro n node used
    by_cases listed : n ∈ ids
    · obtain ⟨found, read, isList⟩ := segment.mem listed
      rw [used] at read
      cases read
      rw [isList, Function.update_self]
      exact listed
    · have outside : n ∉ chain l := by
        intro member
        rw [gone n member listed] at used
        cases used
      have member := chained.inside n node ((same n outside listed).symm.trans used)
      by_cases here : node.list = l
      · exact absurd (here ▸ member) outside
      · rw [Function.update_of_ne here]
        exact member
  · exact known

theorem Chained.pushFront (chained : h.Chained chain) (l : κ) (v : α) :
    ∃ g, h.pushFront l v = some (g, h.count) ∧
      g.Chained (Function.update chain l (h.count :: chain l)) ∧ g.count = h.count + 1 ∧
      g.valueAt h.count = some v ∧ ∀ k, k ≠ h.count → g.valueAt k = h.valueAt k := by
  have away : ∀ k, k ≠ h.count → (h.alloc l v).node k = h.node k := fun k => alloc_away h l v
  have new : (h.alloc l v).node h.count = some { list := l, prev := none, next := none, value := v } :=
    Function.update_self _ _ _
  have differs : ∀ {k : κ} {n : Nat}, n ∈ chain k → n ≠ h.count :=
    fun member same => chained.fresh (same ▸ member)
  have before : (h.alloc l v).Segment l none (chain l) none :=
    (chained.segment l).congr fun n member => away n (differs member)
  have values : ∀ k, k ≠ h.count → (h.alloc l v).valueAt k = h.valueAt k :=
    fun k different => congrArg (Option.map Node.value) (away k different)
  cases shape : chain l with
  | nil =>
      have empty : (h.alloc l v).head l = none := by
        change h.head l = none
        rw [chained.head l, shape]
        rfl
      refine ⟨(h.alloc l v).setHead l (some h.count), ?_, ?_, rfl, ?_, values⟩
      · rw [Nodes.pushFront, empty]
      · apply chained.relist
        · rfl
        · exact ⟨⟨_, new, rfl, rfl, rfl⟩, trivial⟩
        · exact List.nodup_cons.mpr ⟨List.not_mem_nil, List.nodup_nil⟩
        · exact fun k _ n member inside => differs member (List.mem_singleton.mp inside)
        · exact fun n member => absurd (shape ▸ member) List.not_mem_nil
        · exact fun n _ outside => away n fun same => outside (List.mem_singleton.mpr same)
        · exact fun n large => (away n (Nat.ne_of_gt large)).trans (chained.known n (Nat.le_of_succ_le large))
      · exact congrArg (Option.map Node.value) new
  | cons first rest =>
      have some_first : (h.alloc l v).head l = some first := by
        change h.head l = some first
        rw [chained.head l, shape]
        rfl
      have nodup := chained.nodup l
      rw [shape] at before nodup
      have outside : h.count ∉ first :: rest := fun member => chained.fresh (shape ▸ member)
      obtain ⟨g, written, found, apart, rewired⟩ := write_rewired [h.count] new
        (fun node => { node with next := some first }) rfl List.mem_cons_self
      have kept : g.Segment l none (first :: rest) none :=
        before.congr fun n member => apart n fun same => outside (same ▸ member)
      obtain ⟨f, linked, segment, again⟩ := kept.setPrev nodup (some h.count)
      have whole := rewired.trans again
      have head : f.head = h.head := whole.head
      have stays : f.node h.count = g.node h.count := again.apart h.count outside
      have same : ∀ n, n ∉ h.count :: first :: rest → f.node n = h.node n := fun n clear =>
        (whole.apart n clear).trans (away n fun same => clear (same ▸ List.mem_cons_self))
      refine ⟨f.setHead l (some h.count), ?_, ?_, whole.count, ?_, ?_⟩
      · rw [Nodes.pushFront, some_first]
        change (Option.bind ((h.alloc l v).write h.count _) _) = _
        rw [written]
        change Option.map _ (g.write first _) = _
        have linked : g.write first (fun node => { node with prev := some h.count }) = some f := linked
        rw [linked]
        rfl
      · apply chained.relist
        · change Function.update f.head l (some h.count) = Function.update h.head l (some h.count)
          rw [head]
        · exact ⟨⟨_, stays.trans found, rfl, rfl, rfl⟩, segment.congr fun _ _ => rfl⟩
        · exact List.nodup_cons.mpr ⟨outside, nodup⟩
        · intro k different n member inside
          rcases List.mem_cons.mp inside with same | inside
          · exact differs member same
          · exact different (chained.apart member (shape ▸ inside))
        · exact fun n member clear => absurd (List.mem_cons_of_mem h.count (shape ▸ member)) clear
        · exact fun n _ clear => same n clear
        · intro n large
          have large : h.count + 1 ≤ n := le_of_eq_of_le whole.count.symm large
          have clear : n ∉ h.count :: first :: rest := by
            intro member
            rcases List.mem_cons.mp member with same | member
            · omega
            · obtain ⟨node, read, _⟩ := chained.used (l := l) (shape ▸ member)
              rw [chained.known n (Nat.le_of_succ_le large)] at read
              cases read
          exact (same n clear).trans (chained.known n (Nat.le_of_succ_le large))
      · change f.valueAt h.count = some v
        rw [whole.values]
        exact congrArg (Option.map Node.value) new
      · exact fun k different => (whole.values k).trans (values k different)

/-- The node is out of its list, still to be read; with it freed, the others
follow each other. -/
theorem Chained.detach (chained : h.Chained chain) {n : Nat} (member : n ∈ chain l) :
    ∃ g, h.detach n = some g ∧ (g.free n).Chained (Function.update chain l ((chain l).erase n)) ∧
      g.count = h.count ∧ g.node n = h.node n ∧ ∀ k, g.valueAt k = h.valueAt k := by
  obtain ⟨front, back, split⟩ := List.append_of_mem member
  have nodup := chained.nodup l
  have segment := chained.segment l
  rw [split] at nodup segment
  have away : n ∉ front := fun inside => (List.nodup_append.mp nodup).2.2 n inside n List.mem_cons_self rfl
  have clear : n ∉ back := (List.nodup_cons.mp (List.nodup_append.mp nodup).2.1).1
  have erased : (chain l).erase n = front ++ back := by
    rw [split, List.erase_append_right _ away, List.erase_cons_head]
  have rest : (front ++ back).Nodup := by
    rw [← erased]
    exact (chained.nodup l).erase n
  have outside : n ∉ front ++ back := fun inside => (List.mem_append.mp inside).elim away clear
  obtain ⟨first, ⟨node, read, isList, prev, next⟩, later⟩ := (segment_append front (n :: back)).mp segment
  have next : node.next = back.head? := next.trans (Option.or_none)
  have prev : node.prev = front.getLast? := prev.trans (Option.or_none)
  have head : h.head node.list = (front ++ n :: back).head? := by
    rw [isList, chained.head l, split]
  -- what the two cases have in common: links of the others were set
  have closing : ∀ g : Nodes κ α, g.head = Function.update h.head l (front ++ back).head? →
      (∀ k, k ∉ front ++ back → g.node k = h.node k) → g.count = h.count →
      g.Segment l none (front ++ back) none →
      (g.free n).Chained (Function.update chain l ((chain l).erase n)) := by
    intro g heads same count joined
    have kept : ∀ k, k ≠ n → (g.free n).node k = g.node k :=
      fun k different => Function.update_of_ne different _ _
    have freed : (g.free n).node n = none := Function.update_self _ _ _
    rw [erased]
    have inside : ∀ k, k ∈ chain l → k ∈ front ++ back ∨ k = n := by
      intro k member
      rw [split] at member
      rcases List.mem_append.mp member with member | member
      · exact Or.inl (List.mem_append_left back member)
      · rcases List.mem_cons.mp member with same | member
        · exact Or.inr same
        · exact Or.inl (List.mem_append_right front member)
    have old : ∀ k, k ∈ front ++ back → k ∈ chain l := fun k member =>
      List.mem_of_mem_erase (erased ▸ member)
    apply chained.relist
    · exact heads
    · exact joined.congr fun k member => kept k fun same => outside (same ▸ member)
    · exact rest
    · exact fun k different m member listed => different (chained.apart member (old m listed))
    · intro k listed clear
      rcases inside k listed with again | same
      · exact absurd again clear
      · rw [same, freed]
    · intro k apart clear
      rw [kept k fun same => apart (same ▸ member), same k clear]
    · intro k large
      by_cases here : k = n
      · rw [here, freed]
      · have large : h.count ≤ k := count ▸ large
        have nothing := chained.known k large
        rw [kept k here, same k ?_, nothing]
        intro listed
        obtain ⟨other, used, _⟩ := chained.used (old k listed)
        rw [nothing] at used
        cases used
  rw [Nodes.detach, read]
  change ∃ g, (if h.head node.list = some n then _ else _) = some g ∧ _
  cases front with
  | nil =>
      have isHead : h.head node.list = some n := head
      rw [if_pos isHead, next, isList]
      have ready : (h.setHead l back.head?).Segment l (some n) back none := later.congr fun _ _ => rfl
      obtain ⟨g, written, joined, rewired⟩ := ready.setPrev rest none
      refine ⟨g, written, closing g rewired.head rewired.apart rewired.count joined, rewired.count,
        (rewired.apart n outside).trans read, rewired.values⟩
  | cons m front =>
      have notHead : h.head node.list ≠ some n := by
        rw [head]
        intro same
        injection same with same
        exact away (same ▸ List.mem_cons_self)
      rw [if_neg notHead, next, prev]
      have apart := List.nodup_append.mp rest
      obtain ⟨g, written, joined, rewired⟩ := first.setNext apart.1 back.head?
      have ready : g.Segment l (some n) back none := later.congr fun k member =>
        rewired.apart k fun listed => apart.2.2 k listed k member rfl
      obtain ⟨f, again, behind, second⟩ := ready.setPrev apart.2.1 (m :: front).getLast?
      have whole := rewired.trans second
      have joined : f.Segment l none ((m :: front) ++ back) none := by
        rw [segment_append, Option.or_none, Option.or_none]
        constructor
        · exact joined.congr fun k member => second.apart k fun listed => apart.2.2 k member k listed rfl
        · exact behind
      have heads : f.head = Function.update h.head l ((m :: front) ++ back).head? := by
        rw [whole.head]
        funext k
        by_cases here : k = l
        · rw [here, Function.update_self, chained.head l, split]
          rfl
        · rw [Function.update_of_ne here]
      refine ⟨f, ?_, closing f heads whole.apart whole.count joined, whole.count,
        (whole.apart n outside).trans read, whole.values⟩
      rw [written]
      exact again

end Operations

end Nodes

end Ijson
