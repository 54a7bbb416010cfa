/-
What a subscriber that asks one queue again and again is sent.

The time of a subscription is the part of a run behind the moment at which the
connection was put in the list of the queue.
-/

import Ijson.SubscriberLists
import Ijson.Sustained
import Ijson.GeneratedIds

namespace Ijson

open Program

/-! ### Histories -/

/-- The message that a moment publishes to queue `i`. -/
def publishes (i : Nat) (moment : Action × Server) : Option Nat :=
  match moment.1 with
  | .newDirect j _ _ => if j = i then some moment.2.directs else none
  | _ => none

/-- The message that a moment takes from the queue of `w` to send it. -/
def delivers (w : ConnId) (moment : Action × Server) : Option Nat :=
  match moment.1 with
  | .flush c _ =>
      if c = w ∧ (moment.2.conns w).sendBuffer.isEmpty then (moment.2.conns w).directMessage.head?
      else none
  | _ => none

/-- `pub` gives `w` a message only when it waits for a job or has `noid` set. -/
def Server.hears (s : Server) (w : ConnId) : Bool :=
  (s.conns w).status = .workerWaitJob || (s.conns w).noid

/-- At a publication to queue `i` the message is given to `w`. -/
def ready (w : ConnId) (i : Nat) (moment : Action × Server) : Bool :=
  (publishes i moment).isNone || moment.2.hears w

/-- The connection goes on asking for `name`: it asks for nothing else, does not
become a worker of its own mode or disconnect, and queue `i` is not deleted. -/
def Asks (w : ConnId) (i : Nat) (name : Bytes) (moment : Action × Server) : Prop :=
  match moment.1 with
  | .resolve c key => c = w → key = name
  | .workerMode c on => c = w → on = false
  | .shut c => c ≠ w
  | .dropDirects c => c ≠ w
  | .unhook _ =>
      match moment.1.apply moment.2 with
      | .returned t _ => (t.line i).isSome = true
      | _ => True
  | _ => True

/-- What holds of `w` during its subscription; the messages `owed` to it are still
in the hands of `pub`. -/
structure Subscribed (w : ConnId) (i : Nat) (name : Bytes) (owed : List Nat)
    (during : List (Action × Server)) (v : Subscriptions) : Prop where
  member : w ∈ v.lists i
  known : w < v.accepted
  named : (v.subscriber w).name = name
  mode : (v.subscriber w).mode = false
  seen : ∀ moment ∈ during, w < moment.2.accepted ∧ (moment.2.conns w).workerSubName = name ∧
    (moment.2.conns w).workerMode = false
  balance : during.filterMap (delivers w) ++ ((v.subscriber w).pending ++ owed) =
    (during.filter (ready w i)).filterMap (publishes i)

/-- It holds of every subscription so far that still goes on. -/
def Feed (w : ConnId) (i : Nat) (name : Bytes) (owed : List Nat) (state : Traced) : Prop :=
  ∀ before start during, state.2 = before ++ (.subscribe w i name, start) :: during →
    (start.conns w).noid = true → (start.conns w).workerMode = false →
    (∀ moment ∈ during, Asks w i name moment) → Subscribed w i name owed during state.1.subscriptions

/-- No subscription goes on. -/
def Over (w : ConnId) (i : Nat) (name : Bytes) (state : Traced) : Prop :=
  ∀ before start during, state.2 = before ++ (.subscribe w i name, start) :: during →
    (start.conns w).noid = true → (start.conns w).workerMode = false →
    ¬ ∀ moment ∈ during, Asks w i name moment

section

variable {w : ConnId} {i : Nat} {name : Bytes} {owed : List Nat}

theorem Over.feed {state : Traced} (ended : Over w i name state) : Feed w i name owed state := by
  intro before start during split plus mode asks
  exact absurd asks (ended before start during split plus mode)

/-- The last moment is the subscription, or belongs to its time. -/
theorem split_last {past before during : List (Action × Server)} {moment first : Action × Server}
    (split : past ++ [moment] = before ++ first :: during) :
    during = [] ∧ moment = first ∨
      ∃ earlier, during = earlier ++ [moment] ∧ past = before ++ first :: earlier := by
  rcases List.eq_nil_or_concat during with none | ⟨earlier, last, duringEq⟩
  · left
    subst none
    have same := List.append_inj' split rfl
    exact ⟨rfl, by simpa using same.2⟩
  · right
    rw [List.concat_eq_append] at duringEq
    subst duringEq
    rw [← List.cons_append, ← List.append_assoc] at split
    have same := List.append_inj' split rfl
    obtain rfl : moment = last := by simpa using same.2
    exact ⟨earlier, rfl, same.1⟩

theorem Feed.append {state : Traced} (feed : Feed w i name owed state) {action : Action} {t : Server}
    {after : List Nat}
    (fresh : action = .subscribe w i name → (state.1.conns w).noid = true →
      (state.1.conns w).workerMode = false → Subscribed w i name after [] t.subscriptions)
    (grows : ∀ during, Subscribed w i name owed during state.1.subscriptions →
      Asks w i name (action, state.1) →
      Subscribed w i name after (during ++ [(action, state.1)]) t.subscriptions) :
    Feed w i name after (t, state.2 ++ [(action, state.1)]) := by
  intro before start during split plus mode asks
  rcases split_last split with ⟨rfl, same⟩ | ⟨earlier, rfl, pastEq⟩
  · rw [Prod.mk.injEq] at same
    obtain ⟨rfl, rfl⟩ := same
    exact fresh rfl plus mode
  · refine grows earlier (feed before start earlier pastEq plus mode fun m member => ?_) ?_
    · exact asks m (List.mem_append_left _ member)
    · exact asks _ (List.mem_append_right earlier List.mem_cons_self)

theorem Over.append {state : Traced} (ended : Over w i name state) {action : Action} {t : Server}
    (other : action ≠ .subscribe w i name) : Over w i name (t, state.2 ++ [(action, state.1)]) := by
  intro before start during split plus mode asks
  rcases split_last split with ⟨_, same⟩ | ⟨earlier, rfl, pastEq⟩
  · exact other (congrArg Prod.fst same)
  · exact ended before start earlier pastEq plus mode fun m member =>
      asks m (List.mem_append_left _ member)

/-- A moment with no subscription since belongs to the time of each one. -/
theorem Since.during {moment : Action × Server} {state : Traced} (since : Since moment state)
    (other : moment.1 ≠ .subscribe w i name) {before during : List (Action × Server)} {start : Server}
    (split : state.2 = before ++ (.subscribe w i name, start) :: during) : moment ∈ during := by
  obtain ⟨front, tail, sinceEq, silent⟩ := since
  rw [sinceEq] at split
  rcases List.append_eq_append_iff.mp split with ⟨more, beforeEq, rest⟩ | ⟨more, frontEq, rest⟩
  · cases more with
    | nil =>
        rw [List.nil_append, List.cons.injEq] at rest
        exact absurd (congrArg Prod.fst rest.1) other
    | cons first more =>
        rw [List.cons_append, List.cons.injEq] at rest
        have member : (.subscribe w i name, start) ∈ tail := by
          rw [rest.2]
          exact List.mem_append_right more List.mem_cons_self
        exact absurd rfl (silent _ member w i name)
  · cases more with
    | nil =>
        rw [List.nil_append, List.cons.injEq] at rest
        exact absurd (congrArg Prod.fst rest.1).symm other
    | cons first more =>
        rw [List.cons_append, List.cons.injEq] at rest
        rw [rest.2]
        exact List.mem_append_right more List.mem_cons_self

theorem over_shut {s : Server} {state : Traced} (since : Since (.shut w, s) state) :
    Over w i name state := by
  intro before start during split _ _ asks
  have member := since.during (fun same => by cases same) split
  exact asks _ member rfl

theorem over_away {s : Server} {key : Bytes} {state : Traced} (feed : Feed w i name owed state)
    (since : Since (.resolve w key, s) state) (different : (s.conns w).workerSubName ≠ key) :
    Over w i name state := by
  intro before start during split plus mode asks
  have member := since.during (fun same => by cases same) split
  have subscribed := feed before start during split plus mode asks
  have asked : key = name := asks _ member rfl
  exact different ((subscribed.seen _ member).2.1.trans asked.symm)

theorem over_stop {s : Server} {state : Traced} (feed : Feed w i name owed state)
    (since : Since (.complete w, s) state) (worker : (s.conns w).workerMode = true) :
    Over w i name state := by
  intro before start during split plus mode asks
  have member := since.during (fun same => by cases same) split
  have subscribed := feed before start during split plus mode asks
  have plain := (subscribed.seen _ member).2.2
  rw [worker] at plain
  cases plain

/-! ### Steps of a subscription -/

/-- What a moment does to a subscription that goes on. -/
def Grows (w : ConnId) (i : Nat) (name : Bytes) (moment : Action × Server) (v : Subscriptions) : Prop :=
  ∀ during, Subscribed w i name [] during moment.2.subscriptions → Asks w i name moment →
    Subscribed w i name [] (during ++ [moment]) v

theorem Subscribed.seen_append {during : List (Action × Server)} {s : Server} (action : Action)
    (subscribed : Subscribed w i name owed during s.subscriptions) :
    ∀ moment ∈ during ++ [(action, s)], w < moment.2.accepted ∧ (moment.2.conns w).workerSubName = name ∧
      (moment.2.conns w).workerMode = false := by
  intro moment inside
  rcases List.mem_append.mp inside with old | new
  · exact subscribed.seen moment old
  · rw [List.mem_singleton.mp new]
    exact ⟨subscribed.known, subscribed.named, subscribed.mode⟩

theorem filterMap_ready {action : Action} {s : Server} (published : publishes i (action, s) = none)
    (during : List (Action × Server)) :
    ((during ++ [(action, s)]).filter (ready w i)).filterMap (publishes i) =
      (during.filter (ready w i)).filterMap (publishes i) := by
  have ready : ready w i (action, s) = true := by
    rw [ready, published]
    rfl
  rw [List.filter_append, List.filterMap_append, List.filter_cons_of_pos ready, List.filter_nil,
    List.filterMap_cons_none published, List.filterMap_nil, List.append_nil]

theorem filterMap_delivers {action : Action} {s : Server} (delivered : delivers w (action, s) = none)
    (during : List (Action × Server)) :
    (during ++ [(action, s)]).filterMap (delivers w) = during.filterMap (delivers w) := by
  rw [List.filterMap_append, List.filterMap_cons_none delivered, List.filterMap_nil, List.append_nil]

/-- A moment that concerns the messages of `w` in no way. -/
theorem Subscribed.keeps {during : List (Action × Server)} {action : Action} {s : Server}
    {v : Subscriptions} (subscribed : Subscribed w i name owed during s.subscriptions)
    (published : publishes i (action, s) = none) (delivered : delivers w (action, s) = none)
    (member : w ∈ v.lists i) (named : (v.subscriber w).name = (s.subscriptions.subscriber w).name)
    (mode : (v.subscriber w).mode = false)
    (pending : (v.subscriber w).pending = (s.subscriptions.subscriber w).pending)
    (accepted : s.subscriptions.accepted ≤ v.accepted) :
    Subscribed w i name owed (during ++ [(action, s)]) v where
  member := member
  known := Nat.lt_of_lt_of_le subscribed.known accepted
  named := named.trans subscribed.named
  mode := mode
  seen := subscribed.seen_append action
  balance := by
    rw [filterMap_ready published, filterMap_delivers delivered, pending]
    exact subscribed.balance

/-- The same when only the lists may be different. -/
theorem Subscribed.relisted {during : List (Action × Server)} {action : Action} {s : Server}
    {v : Subscriptions} (subscribed : Subscribed w i name owed during s.subscriptions)
    (published : publishes i (action, s) = none) (delivered : delivers w (action, s) = none)
    (member : w ∈ v.lists i) (same : v.subscriber w = s.subscriptions.subscriber w)
    (accepted : s.subscriptions.accepted ≤ v.accepted) :
    Subscribed w i name owed (during ++ [(action, s)]) v :=
  subscribed.keeps published delivered member (congrArg Subscriber.name same)
    ((congrArg Subscriber.mode same).trans subscribed.mode) (congrArg Subscriber.pending same) accepted

/-- A change of single connections that publishing does not look at. -/
theorem grows_modify {action : Action} {s : Server} {c : ConnId} {change : Subscriber → Subscriber}
    (published : publishes i (action, s) = none) (delivered : delivers w (action, s) = none)
    (named : ∀ subscriber, (change subscriber).name = subscriber.name)
    (mode : ∀ subscriber, (change subscriber).mode = subscriber.mode)
    (pending : ∀ subscriber, (change subscriber).pending = subscriber.pending) :
    Grows w i name (action, s) (s.subscriptions.modify c change) := by
  intro during subscribed _
  refine subscribed.keeps published delivered subscribed.member ?_ ?_ ?_ (Nat.le_refl _)
  · exact Subscriptions.modify_field Subscriber.name (named _) w
  · rw [Subscriptions.modify_field Subscriber.mode (mode _) w]
    exact subscribed.mode
  · exact Subscriptions.modify_field Subscriber.pending (pending _) w

theorem grows_same {action : Action} {s : Server} (published : publishes i (action, s) = none)
    (delivered : delivers w (action, s) = none) : Grows w i name (action, s) s.subscriptions :=
  fun _ subscribed _ => subscribed.relisted published delivered subscribed.member rfl (Nat.le_refl _)

theorem quiet_publishes {action : Action} (quiet : action.quiet = true) (s : Server) :
    publishes i (action, s) = none := by
  cases action <;> first | rfl | cases quiet

theorem quiet_delivers {action : Action} (quiet : action.quiet = true) (s : Server) :
    delivers w (action, s) = none := by
  cases action <;> first | rfl | cases quiet

theorem grows_mode (s : Server) (c : ConnId) (on : Bool) :
    Grows w i name (.workerMode c on, s) (s.subscriptions.setMode c on) := by
  intro during subscribed asks
  refine subscribed.keeps rfl rfl subscribed.member ?_ ?_ ?_ (Nat.le_refl _)
  · exact Subscriptions.modify_field Subscriber.name rfl w
  · by_cases same : w = c
    · subst same
      rw [Subscriptions.setMode, Subscriptions.modify_same]
      exact asks rfl
    · rw [Subscriptions.setMode, Subscriptions.modify_other same]
      exact subscribed.mode
  · exact Subscriptions.modify_field Subscriber.pending rfl w

theorem grows_accept {s : Server} (listed : s.subscriptions.Listed) (loop : Nat) (garbage : Garbage) :
    Grows w i name (.accept loop garbage, s) s.subscriptions.enter := by
  intro during subscribed _
  have known := listed.known w (listed.connected i w subscribed.member)
  exact subscribed.relisted rfl rfl subscribed.member (Function.update_of_ne (Nat.ne_of_lt known) _ _)
    (Nat.le_succ _)

theorem grows_leave {s : Server} {c : ConnId} (other : w ≠ c) :
    Grows w i name (.leaveList c, s) (s.subscriptions.leave c) := by
  intro during subscribed _
  unfold Subscriptions.leave
  cases (s.subscriptions.subscriber c).item with
  | none => exact subscribed.relisted rfl rfl subscribed.member rfl (Nat.le_refl _)
  | some j =>
      refine subscribed.relisted rfl rfl ?_ (Subscriptions.modify_other other _) (Nat.le_refl _)
      by_cases same : i = j
      · subst same
        simp only [Subscriptions.modify, Subscriptions.setList, Function.update_self]
        exact (List.mem_erase_of_ne other).mpr subscribed.member
      · simp only [Subscriptions.modify, Subscriptions.setList, Function.update_of_ne same]
        exact subscribed.member

theorem grows_drop {s : Server} {c : ConnId} (other : w ≠ c) :
    Grows w i name (.dropDirects c, s) (s.subscriptions.drop c) := by
  intro during subscribed _
  refine subscribed.relisted rfl rfl ?_ ?_ (Nat.le_of_eq ?_)
  · rw [Subscriptions.drop, Subscriptions.releaseAll_lists]
    exact subscribed.member
  · rw [Subscriptions.drop, (Subscriptions.releaseAll_subscriber _).1, Subscriptions.modify_other other]
  · rw [Subscriptions.drop, (Subscriptions.releaseAll_subscriber _).2]
    rfl

theorem grows_join {s : Server} {c : ConnId} (listed : s.subscriptions.Listed)
    (free : (s.subscriptions.subscriber c).item = none) (j : Nat) (key new : Bytes) :
    Grows w i name (.subscribe c j key, s) (s.subscriptions.join c j new) := by
  intro during subscribed _
  have other : w ≠ c := fun same => listed.unlisted free i (same ▸ subscribed.member)
  refine subscribed.relisted rfl rfl ?_ (Subscriptions.modify_other other _) (Nat.le_refl _)
  by_cases same : i = j
  · subst same
    simp only [Subscriptions.join, Subscriptions.modify, Subscriptions.setList, Function.update_self]
    exact List.mem_cons_of_mem c subscribed.member
  · simp only [Subscriptions.join, Subscriptions.modify, Subscriptions.setList,
      Function.update_of_ne same]
    exact subscribed.member

theorem grows_pop (s : Server) : Grows w i name (.popItem, s) s.subscriptions.pop := by
  intro during subscribed _
  unfold Subscriptions.pop
  cases s.subscriptions.dying with
  | nil => exact grows_same rfl rfl during subscribed trivial
  | cons c rest =>
      refine subscribed.keeps rfl rfl subscribed.member ?_ ?_ ?_ (Nat.le_refl _)
      · exact Subscriptions.modify_field Subscriber.name rfl w
      · refine Eq.trans ?_ subscribed.mode
        exact Subscriptions.modify_field Subscriber.mode rfl w
      · exact Subscriptions.modify_field Subscriber.pending rfl w

theorem grows_remove {s : Server} {j : Nat} (other : i ≠ j) (key : Bytes) :
    Grows w i name (.unhook key, s) (s.subscriptions.remove j) := by
  intro during subscribed _
  refine subscribed.relisted rfl rfl ?_ rfl (Nat.le_refl _)
  simp only [Subscriptions.remove, Subscriptions.setList, Function.update_of_ne other]
  exact subscribed.member

/-- A write to `w` delivers the first message that waits for it. -/
theorem grows_flush (s : Server) (c : ConnId) (sent : Option Nat) :
    Grows w i name (.flush c sent, s) (s.flushed c) := by
  intro during subscribed _
  unfold Server.flushed
  by_cases empty : (s.conns c).sendBuffer.isEmpty = true
  · rw [if_pos empty]
    unfold Subscriptions.take
    by_cases same : c = w
    · subst same
      cases pendingEq : (s.subscriptions.subscriber c).pending with
      | nil =>
          have nothing : delivers c (.flush c sent, s) = none := by
            have nothing : (s.conns c).directMessage = [] := pendingEq
            simp [delivers, nothing]
          exact subscribed.relisted rfl nothing subscribed.member rfl (Nat.le_refl _)
      | cons d rest =>
          have delivered : delivers c (.flush c sent, s) = some d := by
            have present : (s.conns c).directMessage = d :: rest := pendingEq
            simp [delivers, present, empty]
          simp only
          refine ⟨subscribed.member, subscribed.known, ?_, ?_, subscribed.seen_append _, ?_⟩
          · rw [Subscriptions.release_subscriber, Subscriptions.modify_same]
            exact subscribed.named
          · rw [Subscriptions.release_subscriber, Subscriptions.modify_same]
            exact subscribed.mode
          · have balance := subscribed.balance
            rw [pendingEq] at balance
            rw [filterMap_ready rfl, List.filterMap_append, List.filterMap_cons_some delivered,
              List.filterMap_nil, ← balance, Subscriptions.release_subscriber,
              Subscriptions.modify_same]
            simp
    · have nothing : delivers w (.flush c sent, s) = none := by
        simp [delivers, same]
      cases (s.subscriptions.subscriber c).pending with
      | nil => exact subscribed.relisted rfl nothing subscribed.member rfl (Nat.le_refl _)
      | cons d rest =>
          simp only
          refine subscribed.relisted rfl nothing subscribed.member ?_ (Nat.le_refl _)
          rw [Subscriptions.release_subscriber, Subscriptions.modify_other (Ne.symm same)]
  · rw [if_neg empty]
    have nothing : delivers w (.flush c sent, s) = none := by
      rw [delivers]
      refine if_neg fun both => empty ?_
      rw [both.1]
      exact both.2
    exact subscribed.relisted rfl nothing subscribed.member rfl (Nat.le_refl _)

theorem Grows.shut {moment : Action × Server} {v : Subscriptions} (grows : Grows w i name moment v)
    (c : ConnId) : Grows w i name moment (v.shut c) := by
  intro during subscribed asks
  have grown := grows during subscribed asks
  refine ⟨grown.member, grown.known, ?_, ?_, grown.seen, ?_⟩
  · refine Eq.trans ?_ grown.named
    exact Subscriptions.modify_field Subscriber.name rfl w
  · refine Eq.trans ?_ grown.mode
    exact Subscriptions.modify_field Subscriber.mode rfl w
  · rw [Subscriptions.shut, Subscriptions.modify_field Subscriber.pending rfl w]
    exact grown.balance

end

end Ijson
