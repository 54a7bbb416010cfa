/-
Who owns a published message.

A message counts its owners: the entries in the queues of the connections, and
the code that holds it outside of them.
-/

import Mathlib.Algebra.Order.BigOperators.Group.Finset
import Ijson.SubscriberLists

namespace Ijson

namespace Subscriptions

/-- The entries for message `d` in the queues of all connections. -/
def entries (v : Subscriptions) (d : Nat) : Nat :=
  ∑ c ∈ Finset.range v.accepted, (v.subscriber c).pending.count d

/-- Each message counts its entries and the places in `held`, and is deleted
when there are none. -/
structure Counted (held : List Nat) (v : Subscriptions) : Prop where
  counter : ∀ d < v.directs, (v.direct d).counter = v.entries d + held.count d
  small : ∀ d < v.directs, (v.direct d).counter < 2 ^ 32
  freed : ∀ d < v.directs, ((v.direct d).freed = true ↔ (v.direct d).counter = 0)
  known : ∀ d, v.directs ≤ d → v.entries d = 0 ∧ held.count d = 0

variable {v : Subscriptions} {held : List Nat}

/-- What a connection's queue adds to the entries. -/
theorem entries_modify {c : ConnId} (known : c < v.accepted) (change : Subscriber → Subscriber)
    (d : Nat) :
    (v.modify c change).entries d + (v.subscriber c).pending.count d =
      v.entries d + (change (v.subscriber c)).pending.count d := by
  have member := Finset.mem_range.mpr known
  have others : ∑ x ∈ (Finset.range v.accepted).erase c, ((v.modify c change).subscriber x).pending.count d =
      ∑ x ∈ (Finset.range v.accepted).erase c, (v.subscriber x).pending.count d := by
    refine Finset.sum_congr rfl fun x inside => ?_
    rw [modify_other (Finset.ne_of_mem_erase inside)]
  have before : (v.subscriber c).pending.count d +
      ∑ x ∈ (Finset.range v.accepted).erase c, (v.subscriber x).pending.count d = v.entries d :=
    Finset.add_sum_erase _ (fun x => (v.subscriber x).pending.count d) member
  have after : (change (v.subscriber c)).pending.count d +
      ∑ x ∈ (Finset.range v.accepted).erase c, (v.subscriber x).pending.count d =
        (v.modify c change).entries d := by
    rw [← others, ← modify_same c change]
    exact Finset.add_sum_erase _ (fun x => ((v.modify c change).subscriber x).pending.count d) member
  omega

theorem entries_same {c : ConnId} {change : Subscriber → Subscriber}
    (same : (change (v.subscriber c)).pending = (v.subscriber c).pending) (d : Nat) :
    (v.modify c change).entries d = v.entries d := by
  refine Finset.sum_congr rfl fun x _ => ?_
  rw [modify_field Subscriber.pending same]

theorem entries_push {w : ConnId} (known : w < v.accepted) (d e : Nat) :
    (v.push w d).entries e = v.entries e + [d].count e := by
  have sum := entries_modify (v := { v with
    direct := Function.update v.direct d
      { v.direct d with counter := ((v.direct d).counter + 1) % 2 ^ 32 } }) known
    (fun subscriber => { subscriber with pending := subscriber.pending ++ [d] }) e
  rw [List.count_append] at sum
  change (v.push w d).entries e + (v.subscriber w).pending.count e =
    v.entries e + ((v.subscriber w).pending.count e + [d].count e) at sum
  omega

namespace Counted

theorem modify (counted : v.Counted held) {c : ConnId} {change : Subscriber → Subscriber}
    (same : (change (v.subscriber c)).pending = (v.subscriber c).pending) :
    (v.modify c change).Counted held where
  counter := fun d known => by rw [entries_same same]; exact counted.counter d known
  small := counted.small
  freed := counted.freed
  known := fun d unknown => by rw [entries_same same]; exact counted.known d unknown

theorem hold (counted : v.Counted held) {c : ConnId} (known : c < v.accepted)
    (change : Subscriber → Subscriber) (taken : List Nat)
    (split : ∀ d, (v.subscriber c).pending.count d =
      taken.count d + (change (v.subscriber c)).pending.count d) :
    (v.modify c change).Counted (taken ++ held) := by
  have moved : ∀ d, (v.modify c change).entries d + (taken ++ held).count d =
      v.entries d + held.count d := by
    intro d
    have sum := entries_modify known change d
    have parts := split d
    rw [List.count_append]
    omega
  constructor
  · intro d old
    rw [moved]
    exact counted.counter d old
  · exact counted.small
  · exact counted.freed
  · intro d unknown
    have nothing := counted.known d unknown
    have sum := moved d
    omega

theorem held_live (counted : v.Counted held) {d : Nat} (member : d ∈ held) :
    d < v.directs ∧ (v.direct d).freed = false := by
  have positive := List.count_pos_iff.mpr member
  have old : d < v.directs := by
    by_contra unknown
    have nothing := counted.known d (by omega)
    omega
  refine ⟨old, ?_⟩
  cases freedEq : (v.direct d).freed with
  | false => rfl
  | true =>
      have zero := (counted.freed d old).mp freedEq
      have counter := counted.counter d old
      omega

theorem release (counted : v.Counted held) {d : Nat} (member : d ∈ held) :
    (v.release d).Counted (held.erase d) := by
  have positive := List.count_pos_iff.mpr member
  have old := (counted.held_live member).1
  have counter := counted.counter d old
  have small := counted.small d old
  have less : ((v.direct d).counter + 2 ^ 32 - 1) % 2 ^ 32 = (v.direct d).counter - 1 := by omega
  have entries : ∀ e, (v.release d).entries e = v.entries e := fun _ => rfl
  constructor
  · intro e known
    rw [entries]
    by_cases equal : e = d
    · subst equal
      simp only [Subscriptions.release, Function.update_self]
      rw [less, List.count_erase_self]
      omega
    · simp only [Subscriptions.release, Function.update_of_ne equal]
      rw [List.count_erase_of_ne equal]
      exact counted.counter e known
  · intro e known
    by_cases equal : e = d
    · subst equal
      simp only [Subscriptions.release, Function.update_self]
      omega
    · simp only [Subscriptions.release, Function.update_of_ne equal]
      exact counted.small e known
  · intro e known
    by_cases equal : e = d
    · subst equal
      simp only [Subscriptions.release, Function.update_self, decide_eq_true_eq]
    · simp only [Subscriptions.release, Function.update_of_ne equal]
      exact counted.freed e known
  · intro e unknown
    rw [entries]
    have nothing := counted.known e unknown
    have fewer : (held.erase d).count e ≤ held.count e := List.erase_sublist.count_le e
    omega

theorem releaseAll (messages : List Nat) (counted : v.Counted (messages ++ held)) :
    (messages.foldl Subscriptions.release v).Counted held := by
  induction messages generalizing v with
  | nil => exact counted
  | cons d rest ih =>
      have released := counted.release (d := d) (by simp)
      rw [List.cons_append, List.erase_cons_head] at released
      exact ih released

theorem publish (counted : v.Counted held) (data source : Bytes) :
    (v.publish data source).Counted (v.directs :: held) := by
  have fresh := counted.known v.directs (Nat.le_refl _)
  have entries : ∀ e, (v.publish data source).entries e = v.entries e := fun _ => rfl
  constructor
  · intro e known
    rw [entries]
    by_cases equal : e = v.directs
    · subst equal
      simp only [Subscriptions.publish, Function.update_self]
      rw [List.count_cons_self]
      omega
    · have old : e < v.directs := by
        have bound : e < v.directs + 1 := known
        omega
      simp only [Subscriptions.publish, Function.update_of_ne equal]
      rw [List.count_cons_of_ne (Ne.symm equal)]
      exact counted.counter e old
  · intro e known
    by_cases equal : e = v.directs
    · subst equal
      simp only [Subscriptions.publish, Function.update_self]
      omega
    · have old : e < v.directs := by
        have bound : e < v.directs + 1 := known
        omega
      simp only [Subscriptions.publish, Function.update_of_ne equal]
      exact counted.small e old
  · intro e known
    by_cases equal : e = v.directs
    · subst equal
      simp [Subscriptions.publish]
    · have old : e < v.directs := by
        have bound : e < v.directs + 1 := known
        omega
      simp only [Subscriptions.publish, Function.update_of_ne equal]
      exact counted.freed e old
  · intro e unknown
    have later : v.directs + 1 ≤ e := unknown
    rw [entries, List.count_cons_of_ne (by omega)]
    exact counted.known e (by omega)

theorem push (counted : v.Counted held) {w : ConnId} (known : w < v.accepted) {d : Nat}
    (member : d ∈ held) (room : v.entries d + held.count d + 1 < 2 ^ 32) :
    (v.push w d).Counted held := by
  have old := (counted.held_live member).1
  have counter := counted.counter d old
  have more : ((v.direct d).counter + 1) % 2 ^ 32 = (v.direct d).counter + 1 := by omega
  have entries := entries_push known d
  have direct : (v.push w d).direct = Function.update v.direct d
      { v.direct d with counter := ((v.direct d).counter + 1) % 2 ^ 32 } := rfl
  constructor
  · intro e bound
    rw [entries, direct]
    by_cases equal : e = d
    · subst equal
      rw [Function.update_self, more, List.count_singleton_self]
      change (v.direct e).counter + 1 = _
      omega
    · rw [Function.update_of_ne equal, List.count_singleton, if_neg (by simpa using Ne.symm equal)]
      exact counted.counter e bound
  · intro e bound
    rw [direct]
    by_cases equal : e = d
    · subst equal
      rw [Function.update_self]
      exact Nat.mod_lt _ (by omega)
    · rw [Function.update_of_ne equal]
      exact counted.small e bound
  · intro e bound
    rw [direct]
    by_cases equal : e = d
    · subst equal
      rw [Function.update_self, more, (counted.held_live member).2]
      simp
    · rw [Function.update_of_ne equal]
      exact counted.freed e bound
  · intro e unknown
    have nothing := counted.known e unknown
    have other : d ≠ e := by
      intro same
      have bound : v.directs ≤ e := unknown
      omega
    rw [entries, List.count_singleton, if_neg (by simpa using other)]
    exact nothing

theorem take (counted : v.Counted held) (listed : v.Listed) (c : ConnId) :
    (v.take c).Counted held := by
  unfold Subscriptions.take
  cases pendingEq : (v.subscriber c).pending with
  | nil => exact counted
  | cons d rest =>
      have holding := counted.hold (listed.pending_known (by rw [pendingEq]; simp))
        (fun subscriber => { subscriber with pending := rest }) [d]
        (fun e => by rw [pendingEq, ← List.count_append]; rfl)
      exact holding.releaseAll [d]

theorem drop (counted : v.Counted held) (listed : v.Listed) (c : ConnId) :
    (v.drop c).Counted held := by
  by_cases empty : (v.subscriber c).pending = []
  · unfold Subscriptions.drop
    rw [empty]
    exact counted.modify empty.symm
  · refine Counted.releaseAll _ (counted.hold (listed.pending_known empty) _ _ fun e => ?_)
    rw [List.count_nil, Nat.add_zero]

theorem enter (counted : v.Counted held) : v.enter.Counted held := by
  have entries : ∀ d, v.enter.entries d = v.entries d := by
    intro d
    unfold Subscriptions.entries Subscriptions.enter
    rw [Finset.sum_range_succ]
    simp only [Function.update_self, List.count_nil, Nat.add_zero]
    refine Finset.sum_congr rfl fun c inside => ?_
    rw [Function.update_of_ne (Nat.ne_of_lt (Finset.mem_range.mp inside))]
  constructor
  · intro d known
    rw [entries]
    exact counted.counter d known
  · exact counted.small
  · exact counted.freed
  · intro d unknown
    rw [entries]
    exact counted.known d unknown

/-- No connection is left with a deleted message. -/
theorem pending_live (counted : v.Counted held) (listed : v.Listed) {c : ConnId} {d : Nat}
    (member : d ∈ (v.subscriber c).pending) : d < v.directs ∧ (v.direct d).freed = false := by
  have known : c < v.accepted := listed.pending_known fun empty => by rw [empty] at member; cases member
  have holding := counted.hold known (fun subscriber => { subscriber with pending := [] })
    (v.subscriber c).pending
    (fun e => by rw [List.count_nil, Nat.add_zero])
  exact holding.held_live (List.mem_append_left held member)

end Counted

end Subscriptions

end Ijson
