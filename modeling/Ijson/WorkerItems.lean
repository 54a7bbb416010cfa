/-
The worker lists of the queues, as pointers.

A worker item belongs to a list and to a connection, which points back to it.  It
is pushed for a connection without one, and popped when the worker goes, when it
turns to another queue, or when the list is destroyed.
-/

import Ijson.IntrusiveList
import Ijson.Server

namespace Ijson

/-- The items of all lists; `link` counts who holds a connection. -/
structure WorkerItems where
  nodes : Nodes Nat ConnId
  workerItem : ConnId → Option Nat
  link : ConnId → Int

namespace WorkerItems

/-- Before any worker: a connection is held by others only. -/
def new (others : ConnId → Nat) : WorkerItems :=
  { nodes := Nodes.new
    workerItem := fun _ => none
    link := fun c => others c }

/-- `Connect::unlink` as a destructor calls it: what it throws ends the program. -/
def unlink (s : WorkerItems) (c : ConnId) : Option WorkerItems :=
  let link := s.link c - 1
  if link < 0 then none else some { s with link := Function.update s.link c link }

/-- `WorkerList::push`; the caller stores the item. -/
def push (s : WorkerItems) (l : Nat) (c : ConnId) : Option (WorkerItems × Nat) :=
  let s := { s with link := Function.update s.link c (s.link c + 1) }
  (s.nodes.pushFront l c).map fun (nodes, n) => ({ s with nodes := nodes }, n)

/-- `WorkerItem::~WorkerItem`. -/
def delete (s : WorkerItems) (n : Nat) : Option WorkerItems :=
  match s.nodes.node n with
  | none => none
  | some item =>
      (s.unlink item.value).map fun s =>
        { s with
          workerItem := Function.update s.workerItem item.value none
          nodes := s.nodes.free n }

/-- `WorkerItem::pop`. -/
def pop (s : WorkerItems) (n : Nat) : Option WorkerItems :=
  (s.nodes.detach n).bind fun nodes => { s with nodes := nodes }.delete n

/-- `while(head) head->pop()`. -/
def popAll (l : Nat) : Nat → WorkerItems → Option WorkerItems
  | 0, s => if s.nodes.head l = none then some s else none
  | rounds + 1, s =>
      match s.nodes.head l with
      | none => some s
      | some n => (s.pop n).bind (popAll l rounds)

/-- `WorkerList::~WorkerList`: no list has more items than were ever made. -/
def destroy (s : WorkerItems) (l : Nat) : Option WorkerItems := popAll l s.nodes.count s

end WorkerItems

/-- What the server does with the lists.  The number of a destroyed list may be
given to a new one. -/
inductive ListStep where
  | join (l : Nat) (c : ConnId)
  | leave (c : ConnId)
  | destroy (l : Nat)

/-- A step as the callers take it: a push for a connection without an item, a pop
for one with an item. -/
def WorkerItems.step (s : WorkerItems) : ListStep → Option WorkerItems
  | .join l c =>
      match s.workerItem c with
      | some _ => some s
      | none =>
          (s.push l c).map fun (s, n) => { s with workerItem := Function.update s.workerItem c (some n) }
  | .leave c =>
      match s.workerItem c with
      | none => some s
      | some n => s.pop n
  | .destroy l => s.destroy l

def WorkerItems.run (s : WorkerItems) : List ListStep → Option WorkerItems
  | [] => some s
  | step :: rest => (s.step step).bind fun s => s.run rest

/-- The connections of each list, newest first. -/
abbrev Members := Nat → List ConnId

open Classical in
noncomputable def Members.step (m : Members) : ListStep → Members
  | .join l c => if ∃ k, c ∈ m k then m else Function.update m l (c :: m l)
  | .leave c => fun l => (m l).filter (· ≠ c)
  | .destroy l => Function.update m l []

noncomputable def Members.run (m : Members) (steps : List ListStep) : Members := steps.foldl Members.step m

namespace WorkerItems

/-- `s` holds the sequences `chain`, whose connections are `m`. -/
structure Holds (others : ConnId → Nat) (s : WorkerItems) (chain : Nat → List Nat) (m : Members) : Prop where
  chained : s.nodes.Chained chain
  members : ∀ l, (chain l).filterMap s.nodes.valueAt = m l
  item : ∀ c n, s.workerItem c = some n ↔ s.nodes.valueAt n = some c
  link : ∀ c, s.link c = others c + if (s.workerItem c).isSome then 1 else 0

variable {others : ConnId → Nat} {s : WorkerItems} {chain : Nat → List Nat} {m : Members} {c : ConnId}

theorem new_holds (others : ConnId → Nat) : (new others).Holds others (fun _ => []) fun _ => [] :=
  { chained := Nodes.new_chained
    members := fun _ => rfl
    item := fun _ _ => ⟨fun item => (by cases item), fun value => (by cases value)⟩
    link := fun c => (Int.add_zero (others c : Int)).symm }

theorem Holds.value_of_mem (holds : s.Holds others chain m) {l n : Nat} (member : n ∈ chain l) :
    ∃ c, s.nodes.valueAt n = some c := by
  obtain ⟨node, read, _⟩ := holds.chained.used member
  exact ⟨node.value, congrArg (Option.map Node.value) read⟩

theorem Holds.injective (holds : s.Holds others chain m) {n k : Nat} (first : s.nodes.valueAt n = some c)
    (second : s.nodes.valueAt k = some c) : n = k := by
  have item := (holds.item c n).mpr first
  rw [(holds.item c k).mpr second] at item
  injection item with same
  exact same.symm

theorem Holds.mem_iff (holds : s.Holds others chain m) (l : Nat) :
    c ∈ m l ↔ ∃ n ∈ chain l, s.workerItem c = some n := by
  rw [← holds.members l, List.mem_filterMap]
  exact exists_congr fun n => and_congr_right fun _ => (holds.item c n).symm

/-- An item of a connection stands in a list of it. -/
theorem Holds.listed (holds : s.Holds others chain m) {n : Nat} (item : s.workerItem c = some n) :
    ∃ l, n ∈ chain l ∧ ∃ node, s.nodes.node n = some node ∧ node.value = c ∧ node.list = l := by
  have value := (holds.item c n).mp item
  rw [Nodes.valueAt, Option.map_eq_some_iff] at value
  obtain ⟨node, read, same⟩ := value
  exact ⟨node.list, holds.chained.inside n node read, node, read, same, rfl⟩

theorem Holds.item_iff (holds : s.Holds others chain m) (c : ConnId) :
    (s.workerItem c).isSome ↔ ∃ l, c ∈ m l := by
  rw [Option.isSome_iff_exists]
  constructor
  · rintro ⟨n, item⟩
    obtain ⟨l, member, _⟩ := holds.listed item
    exact ⟨l, (holds.mem_iff l).mpr ⟨n, member, item⟩⟩
  · rintro ⟨l, member⟩
    obtain ⟨n, _, item⟩ := (holds.mem_iff l).mp member
    exact ⟨n, item⟩

theorem Holds.nodup (holds : s.Holds others chain m) (l : Nat) : (m l).Nodup := by
  rw [← holds.members l]
  exact (holds.chained.nodup l).filterMap fun _ _ _ first second => holds.injective first second

theorem Holds.apart (holds : s.Holds others chain m) {k l : Nat} (first : c ∈ m k) (second : c ∈ m l) : k = l := by
  obtain ⟨n, inside, item⟩ := (holds.mem_iff k).mp first
  obtain ⟨n', inside', item'⟩ := (holds.mem_iff l).mp second
  rw [item] at item'
  cases item'
  exact holds.chained.apart inside inside'

theorem Holds.push (holds : s.Holds others chain m) (free : s.workerItem c = none) (l : Nat) :
    ∃ t chain', s.step (.join l c) = some t ∧
      t.Holds others chain' (Function.update m l (c :: m l)) := by
  obtain ⟨nodes, pushed, chained, _, new, kept⟩ := holds.chained.pushFront l c
  have values : ∀ k n, n ∈ chain k → nodes.valueAt n = s.nodes.valueAt n := fun k n member =>
    kept n fun same => holds.chained.fresh (same ▸ member)
  have unused : s.nodes.valueAt s.nodes.count = none :=
    congrArg (Option.map Node.value) (holds.chained.known _ (Nat.le_refl _))
  have stepped : s.step (.join l c) = some
      { nodes := nodes
        workerItem := Function.update s.workerItem c (some s.nodes.count)
        link := Function.update s.link c (s.link c + 1) } := by
    rw [step, free]
    change Option.map _ (Option.map _ (s.nodes.pushFront l c)) = _
    rw [pushed]
    rfl
  have members : ∀ k, (Function.update chain l (s.nodes.count :: chain l) k).filterMap nodes.valueAt =
      Function.update m l (c :: m l) k := by
    intro k
    by_cases here : k = l
    · rw [here, Function.update_self, Function.update_self, List.filterMap_cons, new, ← holds.members l]
      exact congrArg (c :: ·) (List.filterMap_congr fun n member => values l n member)
    · rw [Function.update_of_ne here, Function.update_of_ne here, ← holds.members k]
      exact List.filterMap_congr fun n member => values k n member
  have item : ∀ d n, Function.update s.workerItem c (some s.nodes.count) d = some n ↔
      nodes.valueAt n = some d := by
    intro d n
    by_cases fresh : n = s.nodes.count
    · rw [fresh, new]
      by_cases own : d = c
      · rw [own, Function.update_self]
        exact iff_of_true rfl rfl
      · rw [Function.update_of_ne own, holds.item d, unused]
        exact ⟨fun value => (by cases value), fun value => absurd (Option.some.inj value).symm own⟩
    · rw [kept n fresh, ← holds.item d n]
      by_cases own : d = c
      · rw [own, Function.update_self, free]
        exact ⟨fun item => absurd (Option.some.inj item).symm fresh, fun item => (by cases item)⟩
      · rw [Function.update_of_ne own]
  have link : ∀ d, Function.update s.link c (s.link c + 1) d =
      others d + if (Function.update s.workerItem c (some s.nodes.count) d).isSome then 1 else 0 := by
    intro d
    by_cases own : d = c
    · have link := holds.link c
      rw [free] at link
      rw [own, Function.update_self, Function.update_self, link]
      rfl
    · rw [Function.update_of_ne own, Function.update_of_ne own]
      exact holds.link d
  exact ⟨_, _, stepped, { chained := chained, members := members, item := item, link := link }⟩

theorem Holds.pop (holds : s.Holds others chain m) {n : Nat} (item : s.workerItem c = some n) :
    ∃ t chain', s.pop n = some t ∧ t.Holds others chain' (fun l => (m l).filter (· ≠ c)) ∧
      t.workerItem = Function.update s.workerItem c none := by
  obtain ⟨l, member, node, read, value, isList⟩ := holds.listed item
  obtain ⟨nodes, detached, chained, _, same, values⟩ := holds.chained.detach member
  have own : s.nodes.valueAt n = some c := (holds.item c n).mp item
  have link : s.link c - 1 = others c := by
    rw [holds.link c, item]
    exact Int.add_sub_cancel _ _
  have stays : ¬ s.link c - 1 < 0 := by
    rw [link]
    omega
  have freed : (nodes.free n).valueAt n = none := nodes.free_valueAt n
  have kept : ∀ k, k ≠ n → (nodes.free n).valueAt k = s.nodes.valueAt k := fun k here =>
    (nodes.free_valueAt_of_ne here).trans (values k)
  have filtered : ∀ k, (nodes.free n).valueAt k = (s.nodes.valueAt k).filter (· ≠ c) := by
    intro k
    by_cases here : k = n
    · rw [here, freed, own]
      simp [Option.filter]
    · rw [kept k here]
      cases found : s.nodes.valueAt k with
      | none => rfl
      | some d =>
          have other : d ≠ c := fun same => here (holds.injective (same ▸ found) own)
          simp [Option.filter, other]
  have popped : s.pop n = some
      { nodes := nodes.free n
        workerItem := Function.update s.workerItem c none
        link := Function.update s.link c (s.link c - 1) } := by
    rw [WorkerItems.pop, detached]
    change delete { s with nodes := nodes } n = _
    rw [delete]
    change (match nodes.node n with | none => (none : Option WorkerItems) | some item => _) = _
    rw [same, read]
    simp only [unlink, value, stays]
    rfl
  have members : ∀ k, (Function.update chain l ((chain l).erase n) k).filterMap (nodes.free n).valueAt =
      (m k).filter (· ≠ c) := by
    intro k
    have gone : (Function.update chain l ((chain l).erase n) k).filterMap (nodes.free n).valueAt =
        (chain k).filterMap (nodes.free n).valueAt := by
      by_cases here : k = l
      · obtain ⟨front, back, _, split, erased⟩ := List.exists_erase_eq member
        rw [here, Function.update_self, erased, split, List.filterMap_append, List.filterMap_append,
          List.filterMap_cons_none freed]
      · rw [Function.update_of_ne here]
    rw [gone, ← holds.members k, List.filter_filterMap]
    exact List.filterMap_congr fun x _ => filtered x
  have items : ∀ d k, Function.update s.workerItem c none d = some k ↔
      (nodes.free n).valueAt k = some d := by
    intro d k
    rw [filtered, Option.filter_eq_some_iff, ← holds.item d k]
    by_cases here : d = c
    · rw [here, Function.update_self]
      simp
    · rw [Function.update_of_ne here]
      simp [here]
  have links : ∀ d, Function.update s.link c (s.link c - 1) d =
      others d + if (Function.update s.workerItem c none d).isSome then 1 else 0 := by
    intro d
    by_cases here : d = c
    · rw [here, Function.update_self, Function.update_self, link]
      exact (Int.add_zero _).symm
    · rw [Function.update_of_ne here, Function.update_of_ne here]
      exact holds.link d
  exact ⟨_, _, popped, { chained := chained, members := members, item := items, link := links }, rfl⟩

theorem Holds.chain_nil (holds : s.Holds others chain m) {l : Nat} (empty : m l = []) : chain l = [] := by
  apply List.eq_nil_iff_forall_not_mem.mpr
  intro n member
  obtain ⟨c, value⟩ := holds.value_of_mem member
  have inside := (holds.mem_iff l).mpr ⟨n, member, (holds.item c n).mpr value⟩
  rw [empty] at inside
  exact List.not_mem_nil inside

theorem Holds.head_item (holds : s.Holds others chain m) {l : Nat} {rest : List ConnId} (shape : m l = c :: rest) :
    ∃ n, s.nodes.head l = some n ∧ s.workerItem c = some n := by
  have members := holds.members l
  have head := holds.chained.head l
  cases found : chain l with
  | nil =>
      rw [found, shape] at members
      cases members
  | cons n ids =>
      obtain ⟨d, value⟩ := holds.value_of_mem (l := l) (found ▸ List.mem_cons_self)
      rw [found, shape, List.filterMap_cons, value] at members
      rw [found] at head
      injection members with same _
      exact ⟨n, head, same ▸ (holds.item d n).mpr value⟩

/-- Emptying a list clears the items of its connections and no others. -/
theorem Holds.popAll {l rounds : Nat} (holds : s.Holds others chain m) (enough : (m l).length ≤ rounds) :
    ∃ t chain', popAll l rounds s = some t ∧ t.Holds others chain' (Function.update m l []) ∧
      ∀ d, t.workerItem d = if d ∈ m l then none else s.workerItem d := by
  induction rounds generalizing s chain m with
  | zero =>
      have empty := List.eq_nil_of_length_eq_zero (Nat.le_zero.mp enough)
      have head : s.nodes.head l = none := by rw [holds.chained.head l, holds.chain_nil empty, List.head?_nil]
      refine ⟨s, chain, ?_, ?_, fun d => ?_⟩
      · rw [WorkerItems.popAll, if_pos head]
      · rw [← empty, Function.update_eq_self]
        exact holds
      · rw [empty, if_neg List.not_mem_nil]
  | succ rounds ih =>
      cases shape : m l with
      | nil =>
          have head : s.nodes.head l = none := by
            rw [holds.chained.head l, holds.chain_nil shape, List.head?_nil]
          refine ⟨s, chain, ?_, ?_, fun d => ?_⟩
          · rw [WorkerItems.popAll, head]
          · rw [← shape, Function.update_eq_self]
            exact holds
          · rw [if_neg List.not_mem_nil]
      | cons c rest =>
          obtain ⟨n, head, item⟩ := holds.head_item shape
          obtain ⟨t, chain', popped, kept, items⟩ := holds.pop item
          have nodup := holds.nodup l
          rw [shape, List.nodup_cons] at nodup
          have left : (m l).filter (· ≠ c) = rest := by
            rw [shape, List.filter_cons_of_neg (by simp), List.filter_eq_self]
            intro d member
            exact decide_eq_true fun same => nodup.1 (same ▸ member)
          have fewer : ((m l).filter (· ≠ c)).length ≤ rounds := by
            rw [left]
            rw [shape] at enough
            exact Nat.le_of_succ_le_succ enough
          obtain ⟨u, chain'', emptied, ends, cleared⟩ := ih kept fewer
          have same : Function.update (fun k => (m k).filter (· ≠ c)) l [] = Function.update m l [] := by
            funext k
            by_cases here : k = l
            · rw [here, Function.update_self, Function.update_self]
            · rw [Function.update_of_ne here, Function.update_of_ne here, List.filter_eq_self]
              intro d member
              apply decide_eq_true
              intro same
              exact here (holds.apart (same ▸ member) (shape ▸ List.mem_cons_self))
          refine ⟨u, chain'', ?_, same ▸ ends, fun d => ?_⟩
          · rw [WorkerItems.popAll, head]
            change (s.pop n).bind (popAll l rounds) = some u
            rw [popped]
            exact emptied
          · rw [cleared d, items, left]
            by_cases own : d = c
            · rw [own, Function.update_self, ite_self, if_pos List.mem_cons_self]
            · rw [Function.update_of_ne own]
              by_cases member : d ∈ rest
              · rw [if_pos member, if_pos (List.mem_cons_of_mem c member)]
              · rw [if_neg member, if_neg fun inside => (List.mem_cons.mp inside).elim own member]

theorem Holds.destroy (holds : s.Holds others chain m) (l : Nat) :
    ∃ t chain', s.destroy l = some t ∧ t.Holds others chain' (Function.update m l []) ∧
      ∀ d, t.workerItem d = if d ∈ m l then none else s.workerItem d := by
  apply holds.popAll
  rw [← holds.members l]
  exact (List.length_filterMap_le _ _).trans (holds.chained.length_le l)

/-- Each step does to the pointers what it does to the lists. -/
theorem Holds.step (holds : s.Holds others chain m) (step : ListStep) :
    ∃ t chain', s.step step = some t ∧ t.Holds others chain' (m.step step) := by
  cases step with
  | join l c =>
      cases item : s.workerItem c with
      | none =>
          have free : ¬ ∃ k, c ∈ m k := by
            rw [← holds.item_iff, item]
            exact Bool.false_ne_true
          rw [Members.step, if_neg free]
          exact holds.push item l
      | some n =>
          have listed : ∃ k, c ∈ m k := by
            rw [← holds.item_iff, item]
            rfl
          rw [Members.step, if_pos listed]
          refine ⟨s, chain, ?_, holds⟩
          rw [WorkerItems.step, item]
  | leave c =>
      cases item : s.workerItem c with
      | none =>
          have same : m.step (.leave c) = m := by
            funext l
            change (m l).filter (· ≠ c) = m l
            rw [List.filter_eq_self]
            intro d member
            apply decide_eq_true
            intro own
            have listed := (holds.item_iff c).mpr ⟨l, own ▸ member⟩
            rw [item] at listed
            cases listed
          rw [same]
          refine ⟨s, chain, ?_, holds⟩
          rw [WorkerItems.step, item]
      | some n =>
          obtain ⟨t, chain', popped, kept, _⟩ := holds.pop item
          refine ⟨t, chain', ?_, kept⟩
          rw [WorkerItems.step, item]
          exact popped
  | destroy l =>
      obtain ⟨t, chain', destroyed, kept, _⟩ := holds.destroy l
      exact ⟨t, chain', destroyed, kept⟩

theorem Holds.run (holds : s.Holds others chain m) (steps : List ListStep) :
    ∃ t chain', s.run steps = some t ∧ t.Holds others chain' (m.run steps) := by
  induction steps generalizing s chain m with
  | nil => exact ⟨s, chain, rfl, holds⟩
  | cons step rest ih =>
      obtain ⟨t, chain', stepped, kept⟩ := holds.step step
      obtain ⟨u, chain'', ran, last⟩ := ih kept
      refine ⟨u, chain'', ?_, last⟩
      rw [WorkerItems.run, stepped]
      exact ran

/-- `prev` and `next` of the items in use are each other's inverse, inside a list,
and nothing stands before a head. -/
structure Linked (s : WorkerItems) : Prop where
  head : ∀ l n, s.nodes.head l = some n →
    ∃ item, s.nodes.node n = some item ∧ item.list = l ∧ item.prev = none
  next : ∀ n k item, s.nodes.node n = some item → item.next = some k →
    ∃ other, s.nodes.node k = some other ∧ other.list = item.list ∧ other.prev = some n
  prev : ∀ n k item, s.nodes.node n = some item → item.prev = some k →
    ∃ other, s.nodes.node k = some other ∧ other.list = item.list ∧ other.next = some n

theorem Holds.linked (holds : s.Holds others chain m) : s.Linked :=
  { head := fun _ _ => holds.chained.head_first
    next := fun _ _ _ => holds.chained.next_prev
    prev := fun _ _ _ => holds.chained.prev_next }

/-- A walk from the head ends by itself, however long it may be. -/
theorem Holds.walk (holds : s.Holds others chain m) (l : Nat) {fuel : Nat} (enough : s.nodes.count ≤ fuel) :
    s.nodes.walk fuel (s.nodes.head l) = m l := by
  rw [holds.chained.head l, ← holds.members l]
  exact (holds.chained.segment l).walk ((holds.chained.length_le l).trans enough)

/-- Whatever is pushed and popped, the pointers are those of the lists. -/
theorem lists_well_formed (others : ConnId → Nat) (steps : List ListStep) :
    let m := Members.run (fun _ => []) steps
    ∃ s, (new others).run steps = some s ∧ s.Linked ∧
      (∀ l fuel, s.nodes.count ≤ fuel → s.nodes.walk fuel (s.nodes.head l) = m l) ∧
      (∀ l, (m l).Nodup) ∧ (∀ c k l, c ∈ m k → c ∈ m l → k = l) ∧
      (∀ c, (s.workerItem c).isSome ↔ ∃ l, c ∈ m l) ∧
      ∀ l, ∃ t, s.destroy l = some t ∧ ∀ c, t.workerItem c = if c ∈ m l then none else s.workerItem c := by
  intro m
  obtain ⟨s, chain, ran, holds⟩ := (new_holds others).run steps
  refine ⟨s, ran, holds.linked, fun l _ enough => holds.walk l enough, holds.nodup,
    fun _ _ _ => holds.apart, holds.item_iff, fun l => ?_⟩
  obtain ⟨t, _, destroyed, _, cleared⟩ := holds.destroy l
  exact ⟨t, destroyed, cleared⟩

end WorkerItems

end Ijson
