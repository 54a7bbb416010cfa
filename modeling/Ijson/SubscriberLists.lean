/-
The lists of subscribers.

A connection stands in one list at most, once, and only while it is connected.
-/

import Ijson.SubscriptionSteps

namespace Ijson

namespace Subscriptions

structure Listed (v : Subscriptions) : Prop where
  unique : ∀ i, (v.lists i).Nodup
  item : ∀ i, ∀ c ∈ v.lists i, (v.subscriber c).item = some i
  connected : ∀ i, ∀ c ∈ v.lists i, (v.subscriber c).connected = true
  known : ∀ c, (v.subscriber c).connected = true → c < v.accepted
  silent : ∀ c, (v.subscriber c).connected = false → (v.subscriber c).pending = []

/-- No connection of the deleted queue is in a list. -/
structure Dying (v : Subscriptions) : Prop where
  unique : v.dying.Nodup
  unlisted : ∀ c ∈ v.dying, ∀ i, c ∉ v.lists i

variable {v : Subscriptions}

@[simp] theorem modify_same (c : ConnId) (change : Subscriber → Subscriber) :
    (v.modify c change).subscriber c = change (v.subscriber c) :=
  Function.update_self c _ _

theorem modify_other {c d : ConnId} (other : d ≠ c) (change : Subscriber → Subscriber) :
    (v.modify c change).subscriber d = v.subscriber d :=
  Function.update_of_ne other _ _

theorem modify_field {α : Type} (field : Subscriber → α) {c : ConnId}
    {change : Subscriber → Subscriber} (same : field (change (v.subscriber c)) = field (v.subscriber c))
    (d : ConnId) : field ((v.modify c change).subscriber d) = field (v.subscriber d) := by
  by_cases equal : d = c
  · rw [equal, modify_same, same]
  · rw [modify_other equal]

theorem setList_subset {i : Nat} {list : List ConnId} (shorter : list.Sublist (v.lists i)) (j : Nat) :
    (v.setList i list).lists j ⊆ v.lists j := by
  intro d member
  by_cases equal : j = i
  · subst equal
    simp only [setList, Function.update_self] at member
    exact shorter.subset member
  · simp only [setList, Function.update_of_ne equal] at member
    exact member

theorem leave_item (v : Subscriptions) (c : ConnId) : ((v.leave c).subscriber c).item = none := by
  unfold leave
  cases itemEq : (v.subscriber c).item with
  | none => exact itemEq
  | some i => rw [modify_same]

namespace Listed

/-- A change of a connection that keeps its place. -/
theorem modify (listed : v.Listed) {c : ConnId} {change : Subscriber → Subscriber}
    (item : (change (v.subscriber c)).item = (v.subscriber c).item)
    (connected : (change (v.subscriber c)).connected = (v.subscriber c).connected)
    (silent : (v.subscriber c).connected = false → (change (v.subscriber c)).pending = []) :
    (v.modify c change).Listed where
  unique := listed.unique
  item := by
    intro i d member
    rw [modify_field Subscriber.item item]
    exact listed.item i d member
  connected := by
    intro i d member
    rw [modify_field Subscriber.connected connected]
    exact listed.connected i d member
  known := by
    intro d joined
    rw [modify_field Subscriber.connected connected] at joined
    exact listed.known d joined
  silent := by
    intro d parted
    rw [modify_field Subscriber.connected connected] at parted
    by_cases equal : d = c
    · subst equal
      rw [modify_same]
      exact silent parted
    · rw [modify_other equal]
      exact listed.silent d parted

theorem shut (listed : v.Listed) (c : ConnId) : (v.shut c).Listed :=
  listed.modify rfl rfl (listed.silent c)

theorem setMode (listed : v.Listed) (c : ConnId) (on : Bool) : (v.setMode c on).Listed :=
  listed.modify rfl rfl (listed.silent c)

/-- A connection in no list can give up its place. -/
theorem forget (listed : v.Listed) {c : ConnId} (unlisted : ∀ i, c ∉ v.lists i) :
    (v.modify c fun subscriber => { subscriber with item := none }).Listed where
  unique := listed.unique
  item := by
    intro i d member
    have other : d ≠ c := fun same => unlisted i (same ▸ member)
    rw [modify_other other]
    exact listed.item i d member
  connected := by
    intro i d member
    rw [modify_field Subscriber.connected rfl]
    exact listed.connected i d member
  known := by
    intro d joined
    rw [modify_field Subscriber.connected rfl] at joined
    exact listed.known d joined
  silent := by
    intro d parted
    rw [modify_field Subscriber.connected rfl] at parted
    rw [modify_field Subscriber.pending rfl]
    exact listed.silent d parted

theorem setList (listed : v.Listed) (i : Nat) {list : List ConnId} (shorter : list.Sublist (v.lists i)) :
    (v.setList i list).Listed where
  unique := by
    intro j
    by_cases equal : j = i
    · subst equal
      simp only [Subscriptions.setList, Function.update_self]
      exact (listed.unique j).sublist shorter
    · simp only [Subscriptions.setList, Function.update_of_ne equal]
      exact listed.unique j
  item := fun j d member => listed.item j d (setList_subset shorter j member)
  connected := fun j d member => listed.connected j d (setList_subset shorter j member)
  known := listed.known
  silent := listed.silent

theorem remove (listed : v.Listed) (i : Nat) : (v.remove i).Listed :=
  let shorter := listed.setList i (List.nil_sublist _)
  ⟨shorter.unique, shorter.item, shorter.connected, shorter.known, shorter.silent⟩

/-- `c` leaves the list it stands in, and is in no other one. -/
theorem leave (listed : v.Listed) (c : ConnId) : (v.leave c).Listed := by
  unfold Subscriptions.leave
  cases itemEq : (v.subscriber c).item with
  | none => exact listed
  | some i =>
      refine (listed.setList i List.erase_sublist).forget fun j member => ?_
      have inside := setList_subset List.erase_sublist j member
      have same : some i = some j := itemEq.symm.trans (listed.item j c inside)
      cases same
      simp only [Subscriptions.setList, Function.update_self] at member
      exact (listed.unique i).not_mem_erase member

theorem pending_known (listed : v.Listed) {c : ConnId} (waits : (v.subscriber c).pending ≠ []) :
    c < v.accepted := by
  apply listed.known
  cases connectedEq : (v.subscriber c).connected with
  | true => rfl
  | false => exact absurd (listed.silent c connectedEq) waits

theorem unlisted (listed : v.Listed) {c : ConnId} (free : (v.subscriber c).item = none) (i : Nat) :
    c ∉ v.lists i := by
  intro member
  have item := listed.item i c member
  rw [free] at item
  cases item

theorem join (listed : v.Listed) {c : ConnId} (free : (v.subscriber c).item = none)
    (joined : (v.subscriber c).connected = true) (i : Nat) (name : Bytes) : (v.join c i name).Listed := by
  have member_cases : ∀ j d, d ∈ (v.join c i name).lists j → d = c ∧ j = i ∨ d ∈ v.lists j := by
    intro j d member
    simp only [Subscriptions.join, Subscriptions.modify, Subscriptions.setList] at member
    by_cases equal : j = i
    · subst equal
      rw [Function.update_self, List.mem_cons] at member
      exact member.imp_left fun same => ⟨same, rfl⟩
    · rw [Function.update_of_ne equal] at member
      exact Or.inr member
  have other : ∀ j d, d ∈ v.lists j → d ≠ c := by
    intro j d member same
    exact listed.unlisted free j (same ▸ member)
  constructor
  · intro j
    simp only [Subscriptions.join, Subscriptions.modify, Subscriptions.setList]
    by_cases equal : j = i
    · subst equal
      rw [Function.update_self, List.nodup_cons]
      exact ⟨listed.unlisted free j, listed.unique j⟩
    · rw [Function.update_of_ne equal]
      exact listed.unique j
  · intro j d member
    rcases member_cases j d member with both | old
    · rw [both.1, both.2, Subscriptions.join, modify_same]
    · rw [Subscriptions.join, modify_other (other j d old)]
      exact listed.item j d old
  · intro j d member
    rw [Subscriptions.join, modify_field Subscriber.connected rfl]
    rcases member_cases j d member with both | old
    · rw [both.1]
      exact joined
    · exact listed.connected j d old
  · intro d parted
    rw [Subscriptions.join, modify_field Subscriber.connected rfl] at parted
    exact listed.known d parted
  · intro d parted
    rw [Subscriptions.join, modify_field Subscriber.connected rfl] at parted
    rw [Subscriptions.join, modify_field Subscriber.pending rfl]
    exact listed.silent d parted

theorem enter (listed : v.Listed) : v.enter.Listed := by
  have fresh : ∀ j d, d ∈ v.lists j → d ≠ v.accepted := by
    intro j d member same
    have known := listed.known d (listed.connected j d member)
    rw [same] at known
    exact Nat.lt_irrefl _ known
  constructor
  · exact listed.unique
  · intro j d member
    simp only [Subscriptions.enter, Function.update_of_ne (fresh j d member)]
    exact listed.item j d member
  · intro j d member
    simp only [Subscriptions.enter, Function.update_of_ne (fresh j d member)]
    exact listed.connected j d member
  · intro d joined
    by_cases equal : d = v.accepted
    · rw [equal]
      exact Nat.lt_succ_self _
    · simp only [Subscriptions.enter, Function.update_of_ne equal] at joined
      exact Nat.lt_succ_of_lt (listed.known d joined)
  · intro d parted
    by_cases equal : d = v.accepted
    · subst equal
      simp only [Subscriptions.enter, Function.update_self] at parted
      cases parted
    · simp only [Subscriptions.enter, Function.update_of_ne equal] at parted ⊢
      exact listed.silent d parted

theorem retire (listed : v.Listed) {c : ConnId} (free : (v.subscriber c).item = none)
    (empty : (v.subscriber c).pending = []) : (v.retire c).Listed := by
  constructor
  · exact listed.unique
  · intro i d member
    rw [Subscriptions.retire, modify_field Subscriber.item rfl]
    exact listed.item i d member
  · intro i d member
    have other : d ≠ c := fun same => listed.unlisted free i (same ▸ member)
    rw [Subscriptions.retire, modify_other other]
    exact listed.connected i d member
  · intro d joined
    by_cases equal : d = c
    · rw [equal, Subscriptions.retire, modify_same] at joined
      cases joined
    · rw [Subscriptions.retire, modify_other equal] at joined
      exact listed.known d joined
  · intro d parted
    rw [Subscriptions.retire, modify_field Subscriber.pending rfl]
    by_cases equal : d = c
    · rw [equal, empty]
    · rw [Subscriptions.retire, modify_other equal] at parted
      exact listed.silent d parted

theorem release (listed : v.Listed) (d : Nat) : (v.release d).Listed :=
  ⟨listed.unique, listed.item, listed.connected, listed.known, listed.silent⟩

theorem releaseAll (listed : v.Listed) (messages : List Nat) :
    (messages.foldl Subscriptions.release v).Listed := by
  induction messages generalizing v with
  | nil => exact listed
  | cons d rest ih => exact ih (listed.release d)

theorem publish (listed : v.Listed) (data source : Bytes) : (v.publish data source).Listed :=
  ⟨listed.unique, listed.item, listed.connected, listed.known, listed.silent⟩

theorem push (listed : v.Listed) {w : ConnId} (joined : (v.subscriber w).connected = true) (d : Nat) :
    (v.push w d).Listed := by
  have counted : { v with
      direct := Function.update v.direct d
        { v.direct d with counter := ((v.direct d).counter + 1) % 2 ^ 32 } }.Listed :=
    ⟨listed.unique, listed.item, listed.connected, listed.known, listed.silent⟩
  refine counted.modify rfl rfl fun parted => ?_
  rw [joined] at parted
  cases parted

theorem take (listed : v.Listed) (c : ConnId) : (v.take c).Listed := by
  unfold Subscriptions.take
  cases pendingEq : (v.subscriber c).pending with
  | nil => exact listed
  | cons d rest =>
      refine (listed.modify rfl rfl fun parted => ?_).release d
      rw [listed.silent c parted] at pendingEq
      cases pendingEq

theorem drop (listed : v.Listed) (c : ConnId) : (v.drop c).Listed :=
  (listed.modify rfl rfl fun _ => rfl).releaseAll _

theorem setDying (listed : v.Listed) (dying : List ConnId) : { v with dying := dying }.Listed :=
  ⟨listed.unique, listed.item, listed.connected, listed.known, listed.silent⟩

theorem pop (listed : v.Listed) (dying : v.Dying) : v.pop.Listed := by
  unfold Subscriptions.pop
  cases dyingEq : v.dying with
  | nil => exact listed
  | cons c rest =>
      exact (listed.setDying rest).forget (dying.unlisted c (by rw [dyingEq]; exact List.mem_cons_self))

end Listed

/-- The connections of a queue that is removed stand in no other one. -/
theorem Listed.remove_dying (listed : v.Listed) (i : Nat) : (v.remove i).Dying := by
  refine ⟨listed.unique i, fun c dying j member => ?_⟩
  have inside := setList_subset (List.nil_sublist _) j member
  have same : some i = some j := (listed.item i c dying).symm.trans (listed.item j c inside)
  cases same
  simp only [Subscriptions.remove, Subscriptions.setList, Function.update_self] at member
  cases member

theorem Dying.pop (dying : v.Dying) : v.pop.Dying := by
  unfold Subscriptions.pop
  cases dyingEq : v.dying with
  | nil => exact dying
  | cons c rest =>
      have unique := dying.unique
      rw [dyingEq] at unique
      exact ⟨(List.nodup_cons.mp unique).2, fun d member =>
        dying.unlisted d (by rw [dyingEq]; exact List.mem_cons_of_mem c member)⟩

section

variable {c d : ConnId}

theorem releaseAll_subscriber (messages : List Nat) :
    (messages.foldl release v).subscriber = v.subscriber ∧
      (messages.foldl release v).accepted = v.accepted := by
  induction messages generalizing v with
  | nil => exact ⟨rfl, rfl⟩
  | cons d rest ih => exact ih (v := v.release d)

theorem releaseAll_lists (messages : List Nat) : (messages.foldl release v).lists = v.lists := by
  induction messages generalizing v with
  | nil => rfl
  | cons d rest ih => exact ih (v := v.release d)

@[simp] theorem release_subscriber (v : Subscriptions) (d : Nat) : (v.release d).subscriber = v.subscriber :=
  rfl

theorem take_other (other : d ≠ c) : (v.take c).subscriber d = v.subscriber d := by
  unfold take
  split
  · rfl
  · rw [release_subscriber, modify_other other]

/-- What waits for a connection goes on waiting when a message is added. -/
theorem push_pending {w : ConnId} (waits : (v.subscriber c).pending ≠ []) (d : Nat) :
    ((v.push w d).subscriber c).pending ≠ [] := by
  by_cases same : c = w
  · subst same
    rw [push, modify_same]
    exact List.append_ne_nil_of_left_ne_nil waits _
  · rw [push, modify_other same]
    exact waits

/-- The connection is open. -/
def Open (c : ConnId) (v : Subscriptions) : Prop :=
  (v.subscriber c).connected = true ∧ (v.subscriber c).closed = false

theorem leave_field {α : Type} (field : Subscriber → α)
    (same : ∀ subscriber : Subscriber, field { subscriber with item := none } = field subscriber) :
    field ((v.leave c).subscriber d) = field (v.subscriber d) := by
  unfold leave
  cases (v.subscriber c).item with
  | none => rfl
  | some i => exact modify_field field (same _) d

theorem drop_field {α : Type} (field : Subscriber → α)
    (same : ∀ subscriber : Subscriber, field { subscriber with pending := [] } = field subscriber) :
    field ((v.drop c).subscriber d) = field (v.subscriber d) := by
  rw [drop, (releaseAll_subscriber _).1]
  exact modify_field field (same _) d

theorem drop_pending (v : Subscriptions) (c : ConnId) : ((v.drop c).subscriber c).pending = [] := by
  rw [drop, (releaseAll_subscriber _).1, modify_same]

theorem push_field (v : Subscriptions) (w : ConnId) (d : Nat) (c : ConnId) :
    ((v.push w d).subscriber c).connected = (v.subscriber c).connected ∧
      ((v.push w d).subscriber c).closed = (v.subscriber c).closed :=
  ⟨modify_field (v := { v with direct := Function.update v.direct d _ }) Subscriber.connected rfl c,
    modify_field (v := { v with direct := Function.update v.direct d _ }) Subscriber.closed rfl c⟩

theorem Open.field {w : Subscriptions} (opened : v.Open c)
    (connected : (w.subscriber c).connected = (v.subscriber c).connected)
    (closed : (w.subscriber c).closed = (v.subscriber c).closed) : w.Open c :=
  ⟨connected.trans opened.1, closed.trans opened.2⟩

theorem Open.leave (opened : v.Open c) (d : ConnId) : (v.leave d).Open c :=
  opened.field (leave_field _ fun _ => rfl) (leave_field _ fun _ => rfl)

theorem Open.drop (opened : v.Open c) (d : ConnId) : (v.drop d).Open c :=
  opened.field (drop_field _ fun _ => rfl) (drop_field _ fun _ => rfl)

theorem Open.setMode (opened : v.Open c) (d : ConnId) (on : Bool) : (v.setMode d on).Open c :=
  opened.field (modify_field _ rfl c) (modify_field _ rfl c)

theorem Open.join (opened : v.Open c) (d : ConnId) (i : Nat) (name : Bytes) : (v.join d i name).Open c :=
  opened.field (modify_field (v := v.setList i (d :: v.lists i)) Subscriber.connected rfl c)
    (modify_field (v := v.setList i (d :: v.lists i)) Subscriber.closed rfl c)

theorem Open.pop (opened : v.Open c) : v.pop.Open c := by
  unfold Subscriptions.pop
  cases v.dying with
  | nil => exact opened
  | cons d rest =>
      exact opened.field (modify_field (v := { v with dying := rest }) Subscriber.connected rfl c)
        (modify_field (v := { v with dying := rest }) Subscriber.closed rfl c)

theorem shut_closed (v : Subscriptions) (c : ConnId) : ((v.shut c).subscriber c).closed = true := by
  rw [shut, modify_same]

end

end Subscriptions

theorem Server.new_listed (threads : Nat) (jsonrpc2 : Bool) (version : Bytes) (startTime : Nat) :
    (Server.new threads jsonrpc2 version startTime).subscriptions.Listed where
  unique := fun i => List.nodup_nil
  item := fun i c member => by cases member
  connected := fun i c member => by cases member
  known := fun c joined => by cases joined
  silent := fun c _ => rfl

end Ijson
