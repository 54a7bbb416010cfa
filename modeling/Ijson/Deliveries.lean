/-
Published messages in every run.

As long as a subscription goes on, what `w` was sent and what waits for it are
the messages that `pub` gave it.  A message is in the hands of `pub` until the
turn of `w` comes in the list.
-/

import Ijson.Wakings

namespace Ijson

open Program

section

variable {w : ConnId} {i : Nat} {name : Bytes}

/-- Nothing is owed. -/
structure Fed (w : ConnId) (i : Nat) (name : Bytes) (state : Traced) : Prop where
  listed : state.1.subscriptions.Listed
  feed : Feed w i name [] state

/-- An operation of the open connection `c` is under way. -/
def Attending (w : ConnId) (i : Nat) (name : Bytes) (c : ConnId) (state : Traced) : Prop :=
  Fed w i name state ∧ state.1.subscriptions.Open c

/-- `c` is about to leave its list; if it is `w`, the subscription is over. -/
def Parting (w : ConnId) (i : Nat) (name : Bytes) (c : ConnId) (state : Traced) : Prop :=
  Fed w i name state ∧ (c = w → Over w i name state)

/-- Nothing is asked of single actions. -/
abbrev unguarded (_ : Action) (_ : Traced) : Prop := True

theorem Fed.step (action : Action) (known : Subscriptions → Prop) {state : Traced}
    (fed : Fed w i name state) (other : action ≠ .subscribe w i name)
    (ends : (action.apply state.1).Ends
      (fun _ t => (t.subscriptions.Listed ∧ known t.subscriptions) ∧
        Grows w i name (action, state.1) t.subscriptions)
      fun _ t => (t.subscriptions.Listed ∧ known t.subscriptions) ∧
        Grows w i name (action, state.1) t.subscriptions) :
    unguarded action state ∧ (recording Action.apply action state).Ends
      (fun _ now => Fed w i name now ∧ known now.1.subscriptions)
      fun _ now => Fed w i name now ∧ known now.1.subscriptions := by
  have after : ∀ t : Server, (t.subscriptions.Listed ∧ known t.subscriptions) ∧
      Grows w i name (action, state.1) t.subscriptions →
      Fed w i name (t, state.2 ++ [(action, state.1)]) ∧ known t.subscriptions := by
    intro t holds
    exact ⟨⟨holds.1.1, fed.feed.append (fun same => absurd same other) holds.2⟩, holds.1.2⟩
  exact ⟨trivial, recording_ends (Ends.mono ends (fun _ => after) fun _ => after)⟩

/-- The same when the subscriptions afterwards are known. -/
theorem Fed.becomes (action : Action) (known : Subscriptions → Prop) {state : Traced}
    {v : Subscriptions} (fed : Fed w i name state) (other : action ≠ .subscribe w i name)
    (subscribes : Server.Subscribes v (action.apply state.1)) (listed : v.Listed) (good : known v)
    (grows : Grows w i name (action, state.1) v) :
    unguarded action state ∧ (recording Action.apply action state).Ends
      (fun _ now => Fed w i name now ∧ known now.1.subscriptions)
      fun _ now => Fed w i name now ∧ known now.1.subscriptions :=
  fed.step action known other (Ends.mono subscribes
    (fun _ _ same => same ▸ ⟨⟨listed, good⟩, grows⟩) fun _ _ same => same ▸ ⟨⟨listed, good⟩, grows⟩)

theorem fed_still : Still unguarded (Fed w i name) := by
  intro action quiet state fed
  have step := fed.becomes action (fun _ => True) (quiet_joins quiet w i name)
    (Server.apply_subscribes quiet state.1) fed.listed trivial
    (grows_same (quiet_publishes quiet state.1) (quiet_delivers quiet state.1))
  exact ⟨trivial, Ends.mono step.2 (fun _ _ => And.left) fun _ _ => And.left⟩

theorem attending_still (c : ConnId) : Still unguarded (Attending w i name c) :=
  fed_still.subscriptions (Subscriptions.Open c)

/-- An action on the way of `c` out of its list. -/
theorem Parting.becomes (action : Action) (known : Subscriptions → Prop) {c : ConnId} {state : Traced}
    {v : Subscriptions} (parting : Parting w i name c state) (other : action ≠ .subscribe w i name)
    (subscribes : Server.Subscribes v (action.apply state.1)) (listed : v.Listed) (good : known v)
    (grows : w ≠ c → Grows w i name (action, state.1) v) :
    unguarded action state ∧ (recording Action.apply action state).Ends
      (fun _ now => Parting w i name c now ∧ known now.1.subscriptions)
      fun _ now => Parting w i name c now ∧ known now.1.subscriptions := by
  have after : ∀ t : Server, t.subscriptions = v →
      Parting w i name c (t, state.2 ++ [(action, state.1)]) ∧ known t.subscriptions := by
    intro t same
    subst same
    refine ⟨⟨⟨listed, ?_⟩, fun self => (parting.2 self).append other⟩, good⟩
    by_cases self : w = c
    · exact ((parting.2 self.symm).append other).feed
    · exact parting.1.feed.append (fun same => absurd same other) (grows self)
  exact ⟨trivial, recording_ends (Ends.mono subscribes (fun _ => after) fun _ => after)⟩

theorem parting_still (c : ConnId) : Still unguarded (Parting w i name c) := by
  intro action quiet state parting
  have step := parting.becomes action (fun _ => True) (quiet_joins quiet w i name)
    (Server.apply_subscribes quiet state.1) parting.1.listed trivial
    fun _ => grows_same (quiet_publishes quiet state.1) (quiet_delivers quiet state.1)
  exact ⟨trivial, Ends.mono step.2 (fun _ _ => And.left) fun _ _ => And.left⟩

namespace Routine

variable {env : Env} {c : ConnId}

theorem leaveList_parting (known : Subscriptions → Prop)
    (stays : ∀ v : Subscriptions, known v → known (v.leave c)) :
    Keeps unguarded (fun now => Parting w i name c now ∧ known now.1.subscriptions)
      (perform (.leaveList c)) :=
  leads_perform fun state holds => holds.1.becomes _ known (fun same => by cases same)
    (Server.leaveList_subscriptions state.1 c) (holds.1.1.listed.leave c) (stays _ holds.2) grows_leave

theorem dropDirects_parting (known : Subscriptions → Prop)
    (stays : ∀ v : Subscriptions, known v → known (v.drop c)) :
    Keeps unguarded (fun now => Parting w i name c now ∧ known now.1.subscriptions)
      (perform (.dropDirects c)) :=
  leads_perform fun state holds => holds.1.becomes _ known (fun same => by cases same)
    (Server.dropDirects_subscriptions state.1 c) (holds.1.1.listed.drop c) (stays _ holds.2) grows_drop

theorem shut_parting :
    Leads Action.apply unguarded (Fed w i name) (Parting w i name c) (perform (.shut c) : Routine Unit) := by
  refine leads_perform fun state fed => ⟨trivial, recording_ends ?_⟩
  have after : ∀ t : Server, t.subscriptions = state.1.subscriptions.shut c →
      Parting w i name c (t, state.2 ++ [(.shut c, state.1)]) := by
    intro t same
    have grown : Grows w i name (.shut c, state.1) t.subscriptions := by
      rw [same]
      exact (grows_same rfl rfl).shut c
    refine ⟨⟨same ▸ fed.listed.shut c, fed.feed.append (fun same => by cases same) grown⟩, fun self => ?_⟩
    subst self
    exact over_shut (since_now _ state.1 t state.2)
  exact Ends.mono (Server.shut_subscriptions state.1 c) (fun _ => after) fun _ => after

/-- A connection that is closed has no subscription any more. -/
theorem close_fed : Keeps unguarded (Fed w i name) (close c) := by
  let gone : Subscriptions → Prop := fun v => (v.subscriber c).item = none ∧ (v.subscriber c).pending = []
  have goneStill := (@parting_still w i name c).subscriptions gone
  have disconnected : Tries Action.apply unguarded (Parting w i name c)
      (fun now => Parting w i name c now ∧ gone now.1.subscriptions) (Parting w i name c)
      (onDisconnect c) := by
    have leave : ∀ messages, Tries Action.apply unguarded
        (fun now => Parting w i name c now ∧ (now.1.conns c).directMessage = messages)
        (fun now => (Parting w i name c now ∧ (now.1.subscriptions.subscriber c).item = none) ∧
          (now.1.conns c).directMessage = messages) (Parting w i name c)
        (perform (.leaveList c) : Routine Unit) := by
      refine fun messages => leads_perform fun state holds => ?_
      have left := holds.1.becomes (.leaveList c)
        (fun v => (v.subscriber c).item = none ∧ (v.subscriber c).pending = messages)
        (fun same => by cases same) (Server.leaveList_subscriptions state.1 c) (holds.1.1.listed.leave c)
        ⟨Subscriptions.leave_item _ c, (Subscriptions.leave_field _ fun _ => rfl).trans holds.2⟩ grows_leave
      exact ⟨left.1, Ends.mono left.2 (fun _ _ both => ⟨⟨both.1, both.2.1⟩, both.2.2⟩)
        fun _ _ both => both.1⟩
    refine goneStill.onDisconnect_tries leave (fun now parting free => ⟨parting, free⟩) ?_
      (fun now middle empty => ⟨middle.1, middle.2, empty⟩) fun _ holds => holds.1
    refine leads_perform fun state holds => ?_
    have dropped := holds.1.becomes (.dropDirects c) gone (fun same => by cases same)
      (Server.dropDirects_subscriptions state.1 c) (holds.1.1.listed.drop c)
      ⟨(Subscriptions.drop_field _ fun _ => rfl).trans holds.2, Subscriptions.drop_pending _ c⟩ grows_drop
    exact ⟨dropped.1, Ends.mono dropped.2 (fun _ _ both => both) fun _ _ both => both.1⟩
  refine Leads.bind shut_parting (fun _ => ?_) fun _ parting => parting.1
  refine Tries.bind (disconnected.mono (fun _ holds => holds) (fun _ holds => holds)
    fun _ parting => parting.1) fun _ => leads_perform fun state holds => ?_
  have retired := holds.1.1.step (.retire c) (fun _ => True) (fun same => by cases same) (by
    refine Ends.mono (Server.retire_subscriptions state.1 c) (fun _ t same => ?_) fun _ t same => ?_
    · rw [same]
      refine ⟨⟨holds.1.1.listed.retire holds.2.1 holds.2.2, trivial⟩, ?_⟩
      exact grows_modify rfl rfl (fun _ => rfl) (fun _ => rfl) fun _ => rfl
    · rw [same]
      exact ⟨⟨holds.1.1.listed, trivial⟩, grows_same rfl rfl⟩)
  exact ⟨trivial, Ends.mono retired.2 (fun _ _ => And.left) fun _ _ => And.left⟩

theorem begin_attending (taken line : Bytes) (state : Traced) (attending : Attending w i name c state) :
    unguarded (.begin c taken line) state ∧
      (recording Action.apply (.begin c taken line) state).Ends
        (fun _ now => Attending w i name c now ∨ Fed w i name now ∧ (now.1.conns c).closed = true)
        fun _ => Fed w i name := by
  have begun := attending.1.step (.begin c taken line) (fun v =>
      v.Open c ∨ (v.subscriber c).closed = true) (fun same => by cases same) (by
    have same : Grows w i name (.begin c taken line, state.1) state.1.subscriptions := grows_same rfl rfl
    refine Ends.mono (Server.begin_subscriptions state.1 c taken line) (fun _ t becomes => ?_)
      fun _ t becomes => ?_
    · rcases becomes with becomes | becomes
      · exact becomes ▸ ⟨⟨attending.1.listed, Or.inl attending.2⟩, same⟩
      · exact becomes ▸ ⟨⟨attending.1.listed.shut c, Or.inr (Subscriptions.shut_closed _ c)⟩, same.shut c⟩
    · exact becomes ▸ ⟨⟨attending.1.listed, Or.inl attending.2⟩, same⟩)
  refine ⟨begun.1, Ends.mono begun.2 (fun _ now both => ?_) fun _ _ both => both.1⟩
  exact both.2.imp (fun opened => ⟨both.1, opened⟩) fun closed => ⟨both.1, closed⟩

theorem flush_fed (sent : Option Nat) :
    Leads Action.apply unguarded (Attending w i name c) (Fed w i name)
      (perform (.flush c sent) : Routine Unit) := by
  refine leads_perform fun state attending => ?_
  have listed : (state.1.flushed c).Listed := by
    unfold Server.flushed
    split
    · exact attending.1.listed.take c
    · exact attending.1.listed
  have grows : Grows w i name (.flush c sent, state.1) (state.1.flushed c) := grows_flush state.1 c sent
  have step := attending.1.step (.flush c sent) (fun _ => True) (fun same => by cases same) (by
    refine Ends.mono (Server.flush_subscriptions state.1 c sent) (fun _ t becomes => ?_)
      fun _ t becomes => becomes ▸ ⟨⟨listed, trivial⟩, grows⟩
    rcases becomes with becomes | becomes
    · exact becomes ▸ ⟨⟨listed, trivial⟩, grows⟩
    · exact becomes ▸ ⟨⟨listed.shut c, trivial⟩, grows.shut c⟩)
  exact ⟨trivial, Ends.mono step.2 (fun _ _ => And.left) fun _ _ => And.left⟩

/-- A queue is deleted; if it is `i`, `w` no longer asks for it. -/
theorem deleteQueue_attending (key : Bytes) :
    Keeps unguarded (Attending w i name c) (deleteQueue key) := by
  let emptying : Subscriptions → Prop := fun v => v.Open c ∧ v.Dying
  have remaining := (@fed_still w i name).subscriptions emptying
  refine (attending_still c).deleteQueue_keeps remaining (fun now holds => ⟨holds.1, holds.2.1⟩) ?_ ?_ ?_
  · refine leads_perform fun state attending => ⟨trivial, ?_⟩
    have listed := attending.1.listed
    have effect := Server.unhook_subscriptions state.1 key
    cases applied : (Action.unhook key).apply state.1 with
    | returned t value =>
        rw [show state.1.unhook key = _ from applied] at effect
        refine recording_ends ?_
        rw [applied]
        rcases effect with ⟨j, same, gone⟩ | same
        · have grows : Grows w i name (.unhook key, state.1) t.subscriptions := by
            intro during subscribed asks
            have live : (t.line i).isSome = true := by
              rw [Asks] at asks
              simpa only [applied] using asks
            have other : i ≠ j := by
              intro equal
              rw [equal, gone] at live
              cases live
            exact same ▸ grows_remove other key during subscribed asks
          have feed := attending.1.feed.append (fun same => by cases same) grows
          exact ⟨⟨same ▸ listed.remove j, feed⟩, same ▸ ⟨attending.2, listed.remove_dying j⟩⟩
        · have grows : Grows w i name (.unhook key, state.1) t.subscriptions := by
            intro during subscribed _
            exact subscribed.relisted rfl rfl (same ▸ subscribed.member) (by rw [same])
              (Nat.le_of_eq (congrArg Subscriptions.accepted same).symm)
          have feed := attending.1.feed.append (fun same => by cases same) grows
          have nothing : { state.1.subscriptions with dying := [] }.Dying :=
            ⟨List.nodup_nil, fun d member => by cases member⟩
          exact ⟨⟨same ▸ (listed.setDying []), feed⟩, same ▸ ⟨attending.2, nothing⟩⟩
    | thrown t error =>
        rw [show state.1.unhook key = _ from applied] at effect
        exact effect.elim
    | fault =>
        refine recording_ends ?_
        rw [applied]
        trivial
  · intro state holds
    exact holds.1.becomes _ emptying (fun same => by cases same) (Server.popItem_subscriptions state.1)
      (holds.1.listed.pop holds.2.2) ⟨holds.2.1.pop, holds.2.2.pop⟩ (grows_pop state.1)
  · refine leads_perform fun state holds => ?_
    refine holds.1.becomes _ (Subscriptions.Open c) (fun same => by cases same)
      (Server.bury_subscriptions state.1) (holds.1.listed.setDying []) holds.2.1 ?_
    exact fun during subscribed _ => subscribed.relisted rfl rfl subscribed.member rfl (Nat.le_refl _)

end Routine

/-- The message that `pub` owes to `w` as long as the turn of `w` is to come. -/
def owes (w : ConnId) (i j d : Nat) (rest : List ConnId) (s : Server) : List Nat :=
  if j = i ∧ w ∈ rest ∧ s.hears w then [d] else []

/-- Message `d` is being published to queue `j`, and is still to go to `rest`. -/
structure Announcing (w : ConnId) (i : Nat) (name : Bytes) (c : ConnId) (j d : Nat)
    (rest : List ConnId) (state : Traced) : Prop where
  listed : state.1.subscriptions.Listed
  opened : state.1.subscriptions.Open c
  unique : rest.Nodup
  placed : ∀ x ∈ rest, (state.1.subscriptions.subscriber x).item = some j
  joined : ∀ x ∈ rest, (state.1.subscriptions.subscriber x).connected = true
  feed : Feed w i name (owes w i j d rest state.1) state

/-- A message is created; from then on it is owed to `w`, if `w` is to get it. -/
theorem Subscribed.created {during : List (Action × Server)} {s t : Server} {j : Nat}
    {data source : Bytes} {list : List ConnId}
    (subscribed : Subscribed w i name [] during s.subscriptions)
    (listed : j = i → w ∈ list) (same : t.hears w = s.hears w) :
    Subscribed w i name (owes w i j s.directs list t) (during ++ [(.newDirect j data source, s)])
      (s.subscriptions.publish data source) := by
  refine ⟨subscribed.member, subscribed.known, subscribed.named, subscribed.mode, subscribed.seen_append _, ?_⟩
  have balance := subscribed.balance
  rw [List.append_nil] at balance
  rw [filterMap_delivers rfl, owes, same, ← List.append_assoc]
  change during.filterMap (delivers w) ++ (s.subscriptions.subscriber w).pending ++ _ = _
  rw [balance]
  by_cases queue : j = i
  · have published : publishes i (.newDirect j data source, s) = some s.directs := if_pos queue
    rw [List.filter_append, List.filterMap_append]
    by_cases hears : s.hears w = true
    · have given : ready w i (.newDirect j data source, s) = true := by
        rw [ready, hears, Bool.or_true]
      rw [if_pos ⟨queue, listed queue, hears⟩, List.filter_cons_of_pos given, List.filter_nil,
        List.filterMap_cons_some published, List.filterMap_nil]
    · have missed : ¬ ready w i (.newDirect j data source, s) = true := by
        rw [ready, published]
        exact hears
      rw [if_neg fun whole => hears whole.2.2, List.filter_cons_of_neg missed, List.filter_nil,
        List.filterMap_nil]
  · have published : publishes i (.newDirect j data source, s) = none := if_neg queue
    rw [if_neg fun whole => queue whole.1, List.append_nil, filterMap_ready published]

/-- The turn of another connection, or of `w` when it is passed over. -/
theorem owes_cons {j d : Nat} {x : ConnId} {rest : List ConnId} {s t : Server}
    (same : s.hears w = t.hears w) (passed : x = w → s.hears w = false) :
    owes w i j d (x :: rest) s = owes w i j d rest t := by
  unfold owes
  rw [← same]
  by_cases self : x = w
  · simp [passed self]
  · simp [Ne.symm self]

theorem Announcing.skip {c : ConnId} {j d : Nat} {x : ConnId} {rest : List ConnId} {state : Traced}
    (announcing : Announcing w i name c j d (x :: rest) state) (deaf : state.1.hears x = false) :
    Announcing w i name c j d rest state where
  listed := announcing.listed
  opened := announcing.opened
  unique := (List.nodup_cons.mp announcing.unique).2
  placed := fun y member => announcing.placed y (List.mem_cons_of_mem x member)
  joined := fun y member => announcing.joined y (List.mem_cons_of_mem x member)
  feed := by
    rw [← owes_cons (rfl : state.1.hears w = _) fun self => self ▸ deaf]
    exact announcing.feed

theorem publish_hears {s : Server} {x : ConnId} (other : w ≠ x) (d : Nat) (claim : Bool) :
    (s.publish x d claim).hears w = s.hears w := by
  have same : (s.publish x d claim).conns w = s.conns w := by
    rw [Server.publish, Server.modify_conns, if_neg other]
    rfl
  rw [Server.hears, Server.hears, same]

/-- The turn of a connection that hears the message. -/
theorem Announcing.give {c : ConnId} {j d : Nat} {x : ConnId} {rest : List ConnId} {state : Traced}
    (announcing : Announcing w i name c j d (x :: rest) state) (hears : state.1.hears x = true)
    {action : Action} (claim : Bool) (other : action ≠ .subscribe w i name)
    (published : publishes i (action, state.1) = none) (delivered : delivers w (action, state.1) = none) :
    Announcing w i name c j d rest
      (state.1.publish x d claim, state.2 ++ [(action, state.1)]) := by
  have pushed := Server.publish_subscriptions state.1 x d claim
  have joined := announcing.joined x List.mem_cons_self
  have unique := List.nodup_cons.mp announcing.unique
  refine ⟨?_, ?_, unique.2, fun y member => ?_, fun y member => ?_, ?_⟩
  · exact pushed ▸ announcing.listed.push joined d
  · have same := state.1.subscriptions.push_field x d c
    rw [pushed]
    exact announcing.opened.field same.1 same.2
  · rw [pushed, Subscriptions.push, Subscriptions.modify_field Subscriber.item rfl]
    exact announcing.placed y (List.mem_cons_of_mem x member)
  · rw [pushed, Subscriptions.push, Subscriptions.modify_field Subscriber.connected rfl]
    exact announcing.joined y (List.mem_cons_of_mem x member)
  · refine announcing.feed.append (fun same => absurd same other) fun during subscribed _ => ?_
    rw [pushed]
    by_cases self : x = w
    · subst self
      have item := announcing.listed.item i x subscribed.member
      have queue : some j = some i := (announcing.placed x List.mem_cons_self).symm.trans item
      cases queue
      have owed : owes x i i d (x :: rest) state.1 = [d] :=
        if_pos ⟨rfl, List.mem_cons_self, hears⟩
      have paid : owes x i i d rest (state.1.publish x d claim) = [] :=
        if_neg fun both => unique.1 both.2.1
      refine ⟨subscribed.member, subscribed.known, ?_, ?_, subscribed.seen_append action, ?_⟩
      · refine Eq.trans ?_ subscribed.named
        exact Subscriptions.modify_field Subscriber.name rfl x
      · refine Eq.trans ?_ subscribed.mode
        exact Subscriptions.modify_field Subscriber.mode rfl x
      · have balance := subscribed.balance
        rw [owed] at balance
        rw [filterMap_ready published, filterMap_delivers delivered, paid, ← balance, Subscriptions.push,
          Subscriptions.modify_same, List.append_nil]
    · rw [← owes_cons (publish_hears (Ne.symm self) d claim).symm fun equal => absurd equal self]
      exact subscribed.relisted published delivered subscribed.member
        (Subscriptions.modify_other (Ne.symm self) _) (Nat.le_refl _)

namespace Routine

variable {env : Env} {c : ConnId}

theorem use_leads {first last failed : Traced → Prop} {x : ConnId} {rest : Conn → Routine Unit}
    (later : ∀ s : Server, Tries Action.apply unguarded (fun now => first now ∧ now.1 = s) last failed
      (rest (s.conns x))) : Tries Action.apply unguarded first last failed (use x >>= rest) := by
  intro state holds
  rw [recorded_bind, wp_bind]
  change (if (state.1.conns x).freed = true then _ else _ : Routine Conn).recorded.wp _ _ _ _ state
  by_cases freed : (state.1.conns x).freed = true
  · rw [if_pos freed]
    trivial
  · rw [if_neg freed]
    exact later state.1 state ⟨holds, rfl⟩

theorem publishAll_announcing (j d : Nat) (list : List ConnId) :
    Tries Action.apply unguarded (Announcing w i name c j d list) (Announcing w i name c j d [])
      (fun _ => False) (publishAll j d list) := by
  induction list with
  | nil => exact leads_pure _ fun _ holds => holds
  | cons x rest ih =>
      rw [publishAll]
      refine use_leads fun s => ?_
      extract_lets next
      have later : ∀ u, Tries Action.apply unguarded (Announcing w i name c j d rest)
          (Announcing w i name c j d []) (fun _ => False) (next u) := fun _ => ih
      by_cases waits : (s.conns x).status = .workerWaitJob
      · rw [if_pos waits]
        refine Tries.bind (leads_perform fun state holds => ⟨trivial, ?_⟩) later
        have hears : state.1.hears x = true := by
          rw [holds.2, Server.hears, waits]
          rfl
        exact holds.1.give hears true (fun same => by cases same) rfl rfl
      · rw [if_neg waits]
        by_cases noid : (s.conns x).noid = true
        · rw [if_pos noid]
          refine Tries.bind (leads_perform fun state holds => ⟨trivial, ?_⟩) later
          have hears : state.1.hears x = true := by
            rw [holds.2, Server.hears, noid, Bool.or_true]
          exact holds.1.give hears false (fun same => by cases same) rfl rfl
        · rw [if_neg noid]
          refine (later ()).mono (fun state holds => holds.1.skip ?_) (fun _ holds => holds)
            fun _ holds => holds
          rw [holds.2, Server.hears]
          simp [waits, noid]

/-- `pub`: once it is through the list, nothing is owed. -/
theorem pub_attending (path : Bytes) : Keeps unguarded (Attending w i name c) (pub path c) := by
  refine leads_get fun s => ?_
  split
  · exact stays_fault.mono (fun _ holds => holds) fun _ holds => holds.1
  · exact (stays_throw _).mono (fun _ holds => holds) fun _ holds => holds.1
  · exact (quiet_keeps (attending_still c) rfl).mono (fun _ holds => holds.1) fun _ holds => holds
  · rename_i j _
    cases live : s.line j with
    | none => exact stays_fault.mono (fun _ holds => holds) fun _ holds => holds.1
    | some line =>
        simp only
        have created : Tries Action.apply unguarded
            (fun now => Attending w i name c now ∧ now.1 = s)
            (Announcing w i name c j s.directs line.workers) (Attending w i name c)
            (perform (.newDirect j (published path (s.conns c).http.body) line.name) : Routine Unit) := by
          refine leads_perform fun state holds => ⟨trivial, ?_⟩
          obtain ⟨attending, rfl⟩ := holds
          have listed := attending.1.listed
          have workers : state.1.subscriptions.lists j = line.workers := Server.lists_of_live live
          refine ⟨listed.publish _ _, attending.2, workers ▸ listed.unique j, fun x member => ?_,
            fun x member => ?_, ?_⟩
          · exact listed.item j x (workers ▸ member)
          · exact listed.connected j x (workers ▸ member)
          · refine attending.1.feed.append (fun same => by cases same) fun during subscribed _ => ?_
            exact subscribed.created (fun queue => by rw [← workers, queue]; exact subscribed.member) rfl
        have finished : ∀ state, Announcing w i name c j s.directs [] state → Attending w i name c state := by
          intro state announcing
          have feed := announcing.feed
          rw [owes, if_neg fun both => by cases both.2.1] at feed
          exact ⟨⟨announcing.listed, feed⟩, announcing.opened⟩
        refine Tries.bind created fun _ => Tries.bind ((publishAll_announcing j s.directs line.workers).mono
          (fun _ holds => holds) finished fun _ => False.elim) fun _ => ?_
        refine (quiet_keeps (attending_still c) rfl).bind fun _ => leads_perform fun state attending => ?_
        exact attending.1.becomes _ (Subscriptions.Open c) (fun same => by cases same)
          (Server.unlinkDirect_subscriptions rfl s.directs) (attending.1.listed.release s.directs)
          attending.2 fun during subscribed _ => subscribed.relisted rfl rfl subscribed.member rfl
            (Nat.le_refl _)

end Routine

/-! ### Runs -/

/-- The subscription of `w` begins, or another connection joins a list. -/
theorem subscribe_attending {c : ConnId} (j : Nat) (key : Bytes) :
    Leads Action.apply unguarded
      (fun state => Attending w i name c state ∧ (state.1.conns c).workerItem = none ∧
        (state.1.conns c).directMessage = []) (Attending w i name c)
      (perform (.subscribe c j key) : Routine Unit) := by
  refine leads_perform fun state holds => ⟨trivial, ?_⟩
  obtain ⟨attending, free, empty⟩ := holds
  have effect := Server.subscribe_subscriptions state.1 c j key
  have after : ∀ t : Server, t.subscriptions = state.1.subscriptions.join c j
      (if !(state.1.conns c).workerMode && (state.1.conns c).noid then key
        else (state.1.conns c).workerSubName) →
      Attending w i name c (t, state.2 ++ [(.subscribe c j key, state.1)]) := by
    intro t same
    refine ⟨⟨?_, attending.1.feed.append (fun self plus mode => ?_) ?_⟩, ?_⟩
    · exact same ▸ attending.1.listed.join free attending.2.1 j _
    · cases self
      rw [plus, mode] at same
      rw [same]
      refine ⟨?_, attending.1.listed.known w attending.2.1, ?_, ?_,
        fun m member => (List.not_mem_nil member).elim, ?_⟩
      · simp [Subscriptions.join, Subscriptions.modify, Subscriptions.setList]
      · simp [Subscriptions.join]
      · rw [Subscriptions.join, Subscriptions.modify_same]
        exact mode
      · rw [Subscriptions.join, Subscriptions.modify_same, List.append_nil]
        exact empty
    · rw [same]
      exact grows_join attending.1.listed free j key _
    · exact same ▸ attending.2.join c j _
  exact recording_ends (Ends.mono effect (fun _ => after) fun _ => after)

theorem attending_operation (env : Env) (c : ConnId) :
    SustainsOperation env c unguarded (Attending w i name c) (Fed w i name) where
  still := attending_still c
  mode := fun on state attending => attending.1.becomes _ (Subscriptions.Open c)
    (fun same => by cases same) (Server.workerMode_subscriptions state.1 c on)
    (attending.1.listed.setMode c on) (attending.2.setMode c on) (grows_mode state.1 c on)
  join := subscribe_attending
  away := by
    intro s key _ _ different
    have left := (@Routine.leaveList_parting w i name c (Subscriptions.Open c)
      fun _ opened => opened.leave c).bind fun _ => Routine.dropDirects_parting (Subscriptions.Open c)
        fun _ opened => opened.drop c
    refine left.mono (fun state holds => ⟨⟨holds.1.1, fun self => ?_⟩, holds.1.2⟩)
      fun _ holds => ⟨holds.1.1, holds.2⟩
    subst self
    exact over_away holds.1.1.feed holds.2 different
  stop := by
    intro s worker
    have left := @Routine.leaveList_parting w i name c (Subscriptions.Open c)
      fun _ opened => opened.leave c
    refine left.mono (fun state holds => ⟨⟨holds.1.1, fun self => ?_⟩, holds.1.2⟩)
      fun _ holds => ⟨holds.1.1, holds.2⟩
    subst self
    exact over_stop holds.1.1.feed holds.2 worker
  pub := Routine.pub_attending
  remove := Routine.deleteQueue_attending
  weaker := fun _ attending => attending.1
  calm := fed_still
  start := Routine.begin_attending
  shut := by
    intro state fed
    have parted := @Routine.shut_parting w i name c state fed
    rw [recorded_perform] at parted
    exact ⟨trivial, Ends.mono parted.2 (fun _ _ => And.left) fun _ _ => And.left⟩
  close := Routine.close_fed

/-- Each input, from a state between operations. -/
theorem input_fed {s : Server} {past : List (Action × Server)} {input : Input} (enabled : input.Enabled s)
    (fed : Fed w i name (s, past)) :
    (input.routine s).recorded.wp (recording Action.apply) unguarded (fun _ => Fed w i name)
      (fun _ => Fed w i name) (s, past) := by
  have attending : ∀ c, Input.open? s c → Attending w i name c (s, past) := fun c opened =>
    ⟨fed, opened.2.1, opened.2.2.1⟩
  cases input with
  | accept loop garbage =>
      rw [Input.routine, recorded_perform]
      have accepted := fed.becomes (.accept loop garbage) (fun _ => True) (fun same => by cases same)
        (Server.accept_subscriptions s loop garbage) fed.listed.enter trivial
        (grows_accept fed.listed loop garbage)
      exact ⟨trivial, Ends.mono accepted.2 (fun _ _ => And.left) fun _ _ => And.left⟩
  | recv c chunk env =>
      exact (attending_operation env c).recv_leads _ chunk _ (attending c enabled.1)
  | send c sent =>
      exact (attending_operation atRest c).send_leads _ (Routine.flush_fed sent) _ (attending c enabled.1)
  | hangup c => exact (attending_operation atRest c).hangup_leads _ _ (attending c enabled)
  | checkTimeout now => exact fed_still.pass_keeps (fed_still.checkTimeout_keeps now) _ fed
  | cleanDeadTasks => exact fed_still.cleanDeadTasks_keeps _ fed
  | deleteConnections loop => exact fed_still.pass_keeps (Routine.quiet_keeps fed_still rfl) _ fed

theorem Trail.fed {moments : List (Action × Server)} {s : Server} (trail : Trail moments s) :
    Fed w i name (s, moments) := by
  induction trail with
  | new threads jsonrpc2 version startTime =>
      refine ⟨Server.new_listed threads jsonrpc2 version startTime, ?_⟩
      intro before start during split
      exact absurd split (by simp)
  | @step moments s after input _ enabled returned ih =>
      have ends := outcome_recorded (input_fed enabled ih)
      rw [show (input.routine s).run Action.apply s = input.run s from rfl, returned] at ends
      exact ends

/-- What waits for `w` at a moment at which it asks again. -/
def askedAgain (w : ConnId) (moment : Action × Server) : Option (List Nat) :=
  match moment.1 with
  | .wake c => if c = w then some (moment.2.conns w).directMessage else none
  | _ => none

end

end Ijson
