/-
The counters of the published messages in every run.

Between two operations the owners of a message are its entries; a publication
under way is one more.  The counter has 32 bits, which is enough for one entry
in each connection: a socket is a number of type `int`.
-/

import Ijson.DirectMessages
import Ijson.Sustained

namespace Ijson

open Program

/-! ### The messages in hand -/

/-- The messages that code holds outside the queues, after one more moment. -/
def holds (held : List Nat) (moment : Action × Server) : List Nat :=
  match moment.1 with
  | .newDirect _ _ _ => moment.2.directs :: held
  | .releaseDirect d => held.erase d
  | _ => held

/-- The messages of the publication that is under way after these moments. -/
def publishing (moments : List (Action × Server)) : List Nat := moments.foldl holds []

theorem publishing_append (moments : List (Action × Server)) (moment : Action × Server) :
    publishing (moments ++ [moment]) = holds (publishing moments) moment := by
  rw [publishing, publishing, List.foldl_append]
  rfl

/-- The connections with an open socket. -/
def Subscriptions.connections (v : Subscriptions) : Nat :=
  ((Finset.range v.accepted).filter fun c => (v.subscriber c).connected = true).card

/-- A connection is accepted only while there is a number for its socket. -/
def descriptors : Action → Server → Prop
  | .accept _ _, s => s.subscriptions.connections < 2 ^ 31
  | _, _ => True

namespace Subscriptions

structure Sound (held : List Nat) (v : Subscriptions) : Prop where
  counted : v.Counted held
  listed : v.Listed
  few : v.connections ≤ 2 ^ 31

variable {v : Subscriptions} {held : List Nat}

theorem connections_le {w : Subscriptions} (accepted : w.accepted = v.accepted)
    (connected : ∀ c, (w.subscriber c).connected = true → (v.subscriber c).connected = true) :
    w.connections ≤ v.connections := by
  unfold connections
  rw [accepted]
  exact Finset.card_le_card (Finset.monotone_filter_right _ fun c _ joined => connected c joined)

theorem connections_enter (v : Subscriptions) : v.enter.connections ≤ v.connections + 1 := by
  unfold connections
  refine le_trans (Finset.card_le_card (t := insert v.accepted
    ((Finset.range v.accepted).filter fun c => (v.subscriber c).connected = true)) ?_)
    (Finset.card_insert_le _ _)
  intro c member
  obtain ⟨inside, joined⟩ := Finset.mem_filter.mp member
  by_cases equal : c = v.accepted
  · exact Finset.mem_insert.mpr (Or.inl equal)
  · simp only [enter, Function.update_of_ne equal] at joined
    have bound : c < v.accepted + 1 := Finset.mem_range.mp inside
    refine Finset.mem_insert_of_mem (Finset.mem_filter.mpr ⟨Finset.mem_range.mpr ?_, joined⟩)
    exact Nat.lt_of_le_of_ne (Nat.lt_succ_iff.mp bound) equal

/-- A list is no longer than the number of connections. -/
theorem Listed.length_le (listed : v.Listed) (i : Nat) : (v.lists i).length ≤ v.connections := by
  rw [← List.toFinset_card_of_nodup (listed.unique i)]
  refine Finset.card_le_card fun c member => ?_
  have inside := List.mem_toFinset.mp member
  have connected := listed.connected i c inside
  exact Finset.mem_filter.mpr ⟨Finset.mem_range.mpr (listed.known c connected), connected⟩

theorem modify_connections_le {c : ConnId} {change : Subscriber → Subscriber}
    (connected : (change (v.subscriber c)).connected = true → (v.subscriber c).connected = true) :
    (v.modify c change).connections ≤ v.connections := by
  refine connections_le rfl fun d joined => ?_
  by_cases equal : d = c
  · subst equal
    rw [modify_same] at joined
    exact connected joined
  · rw [modify_other equal] at joined
    exact joined

namespace Sound

theorem shut (sound : v.Sound held) (c : ConnId) : (v.shut c).Sound held :=
  ⟨sound.counted.modify rfl, sound.listed.shut c, le_trans (modify_connections_le id) sound.few⟩

theorem setMode (sound : v.Sound held) (c : ConnId) (on : Bool) : (v.setMode c on).Sound held :=
  ⟨sound.counted.modify rfl, sound.listed.setMode c on, le_trans (modify_connections_le id) sound.few⟩

theorem enter (sound : v.Sound held) (room : v.connections < 2 ^ 31) : v.enter.Sound held :=
  ⟨sound.counted.enter, sound.listed.enter, le_trans (connections_enter v) room⟩

theorem join (sound : v.Sound held) {c : ConnId} (free : (v.subscriber c).item = none)
    (joined : (v.subscriber c).connected = true) (i : Nat) (name : Bytes) :
    (v.join c i name).Sound held where
  counted := Counted.modify (v := v.setList i (c :: v.lists i))
    ⟨sound.counted.counter, sound.counted.small, sound.counted.freed, sound.counted.known⟩ rfl
  listed := sound.listed.join free joined i name
  few := le_trans (modify_connections_le (v := v.setList i (c :: v.lists i)) id) sound.few

theorem leave (sound : v.Sound held) (c : ConnId) : (v.leave c).Sound held := by
  refine ⟨?_, sound.listed.leave c, ?_⟩
  · unfold Subscriptions.leave
    cases (v.subscriber c).item with
    | none => exact sound.counted
    | some i =>
        exact Counted.modify (v := v.setList i ((v.lists i).erase c))
          ⟨sound.counted.counter, sound.counted.small, sound.counted.freed, sound.counted.known⟩ rfl
  · unfold Subscriptions.leave
    cases (v.subscriber c).item with
    | none => exact sound.few
    | some i =>
        exact le_trans (modify_connections_le (v := v.setList i ((v.lists i).erase c)) id) sound.few

theorem drop (sound : v.Sound held) (c : ConnId) : (v.drop c).Sound held := by
  refine ⟨sound.counted.drop sound.listed c, sound.listed.drop c, le_trans ?_ sound.few⟩
  have same := releaseAll_subscriber (v := v.modify c fun subscriber => { subscriber with pending := [] })
    (v.subscriber c).pending
  refine le_trans (connections_le same.2 fun d joined => ?_) (modify_connections_le id)
  rw [Subscriptions.drop, same.1] at joined
  exact joined

theorem take (sound : v.Sound held) (c : ConnId) : (v.take c).Sound held := by
  refine ⟨sound.counted.take sound.listed c, sound.listed.take c, le_trans ?_ sound.few⟩
  unfold Subscriptions.take
  cases (v.subscriber c).pending with
  | nil => exact le_refl _
  | cons d rest =>
      exact @modify_connections_le v c (fun subscriber => { subscriber with pending := rest }) id

theorem retire (sound : v.Sound held) {c : ConnId} (free : (v.subscriber c).item = none)
    (empty : (v.subscriber c).pending = []) : (v.retire c).Sound held :=
  ⟨sound.counted.modify rfl, sound.listed.retire free empty,
    le_trans (modify_connections_le fun joined => by cases joined) sound.few⟩

theorem remove (sound : v.Sound held) (i : Nat) : (v.remove i).Sound held :=
  ⟨⟨sound.counted.counter, sound.counted.small, sound.counted.freed, sound.counted.known⟩,
    sound.listed.remove i, sound.few⟩

theorem setDying (sound : v.Sound held) (dying : List ConnId) :
    { v with dying := dying }.Sound held :=
  ⟨⟨sound.counted.counter, sound.counted.small, sound.counted.freed, sound.counted.known⟩,
    sound.listed.setDying dying, sound.few⟩

theorem pop (sound : v.Sound held) (dying : v.Dying) : v.pop.Sound held := by
  refine ⟨?_, sound.listed.pop dying, ?_⟩
  · unfold Subscriptions.pop
    cases v.dying with
    | nil => exact sound.counted
    | cons c rest => exact (sound.setDying rest).counted.modify rfl
  · unfold Subscriptions.pop
    cases v.dying with
    | nil => exact sound.few
    | cons c rest => exact le_trans (modify_connections_le (v := { v with dying := rest }) id) sound.few

theorem publish (sound : v.Sound held) (data source : Bytes) :
    (v.publish data source).Sound (v.directs :: held) :=
  ⟨sound.counted.publish data source, sound.listed.publish data source, sound.few⟩

theorem push (sound : v.Sound held) {w : ConnId} (joined : (v.subscriber w).connected = true) {d : Nat}
    (member : d ∈ held) (room : v.entries d + held.count d + 1 < 2 ^ 32) : (v.push w d).Sound held :=
  ⟨sound.counted.push (sound.listed.known w joined) member room, sound.listed.push joined d,
    le_trans (modify_connections_le (v := { v with direct := Function.update v.direct d _ }) id)
      sound.few⟩

theorem release (sound : v.Sound held) {d : Nat} (member : d ∈ held) :
    (v.release d).Sound (held.erase d) :=
  ⟨sound.counted.release member, sound.listed.release d, sound.few⟩

end Sound

end Subscriptions

/-! ### What holds during an operation -/

/-- No publication is under way. -/
def Between (state : Traced) : Prop :=
  publishing state.2 = [] ∧ state.1.subscriptions.Sound []

/-- The messages whose counter an action changes by hand. -/
def Action.touches : Action → List Nat
  | .publishClaim _ _ d => [d]
  | .publishPush _ _ d => [d]
  | .releaseDirect d => [d]
  | _ => []

/-- What is known when an action is performed. -/
def Accounted (action : Action) (state : Traced) : Prop :=
  state.1.subscriptions.Sound (publishing state.2) ∧
    ∀ d ∈ action.touches, d ∈ publishing state.2

/-- An operation of the open connection `c` is under way. -/
def Serving (c : ConnId) (state : Traced) : Prop :=
  Between state ∧ state.1.subscriptions.Open c

/-- An action that neither creates nor releases a message by hand. -/
theorem Between.step (action : Action) (known : Subscriptions → Prop) {state : Traced}
    (between : Between state) (plain : ∀ held s, holds held (action, s) = held)
    (untouched : action.touches = [])
    (ends : (action.apply state.1).Ends
      (fun _ t => t.subscriptions.Sound [] ∧ known t.subscriptions)
      fun _ t => t.subscriptions.Sound [] ∧ known t.subscriptions) :
    Accounted action state ∧ (recording Action.apply action state).Ends
      (fun _ now => Between now ∧ known now.1.subscriptions)
      fun _ now => Between now ∧ known now.1.subscriptions := by
  have still : publishing (state.2 ++ [(action, state.1)]) = [] := by
    rw [publishing_append, plain, between.1]
  refine ⟨⟨by rw [between.1]; exact between.2, fun d member => ?_⟩, recording_ends ?_⟩
  · rw [untouched] at member
    cases member
  · exact Ends.mono ends (fun _ t both => ⟨⟨still, both.1⟩, both.2⟩)
      fun _ t both => ⟨⟨still, both.1⟩, both.2⟩

/-- The same when the subscriptions afterwards are known. -/
theorem Between.becomes (action : Action) (known : Subscriptions → Prop) {state : Traced}
    {v : Subscriptions} (between : Between state) (plain : ∀ held s, holds held (action, s) = held)
    (untouched : action.touches = []) (subscribes : Server.Subscribes v (action.apply state.1))
    (sound : v.Sound []) (good : known v) :
    Accounted action state ∧ (recording Action.apply action state).Ends
      (fun _ now => Between now ∧ known now.1.subscriptions)
      fun _ now => Between now ∧ known now.1.subscriptions :=
  between.step action known plain untouched (Ends.mono subscribes
    (fun _ _ same => ⟨same ▸ sound, same ▸ good⟩) fun _ _ same => ⟨same ▸ sound, same ▸ good⟩)

theorem Between.kept {action : Action} {state : Traced} (between : Between state)
    (plain : ∀ held s, holds held (action, s) = held) (untouched : action.touches = [])
    (ends : (action.apply state.1).Ends (fun _ t => t.subscriptions.Sound [])
      fun _ t => t.subscriptions.Sound []) :
    Accounted action state ∧
      (recording Action.apply action state).Ends (fun _ => Between) fun _ => Between := by
  have step := between.step action (fun _ => True) plain untouched
    (Ends.mono ends (fun _ _ sound => ⟨sound, trivial⟩) fun _ _ sound => ⟨sound, trivial⟩)
  exact ⟨step.1, Ends.mono step.2 (fun _ _ => And.left) fun _ _ => And.left⟩

theorem quiet_holds {action : Action} (quiet : action.quiet = true) (held : List Nat) (s : Server) :
    holds held (action, s) = held := by
  cases action <;> first | rfl | cases quiet

theorem quiet_touches {action : Action} (quiet : action.quiet = true) : action.touches = [] := by
  cases action <;> first | rfl | cases quiet

/-- An action whose effect on the subscriptions is known. -/
theorem Server.Subscribes.mono {v : Subscriptions} {result : Result} {known : Subscriptions → Prop}
    (subscribes : Subscribes v result) (good : known v) :
    result.Ends (fun _ t => known t.subscriptions) fun _ t => known t.subscriptions :=
  Ends.mono subscribes (fun _ _ same => same ▸ good) fun _ _ same => same ▸ good

theorem between_still : Still Accounted Between :=
  fun _ quiet state between => between.kept (quiet_holds quiet) (quiet_touches quiet)
    ((Server.apply_subscribes quiet state.1).mono between.2)

theorem serving_still (c : ConnId) : Still Accounted (Serving c) :=
  between_still.subscriptions (Subscriptions.Open c)

namespace Routine

variable (env : Env) (c : ConnId)

theorem leaveList_serving : Keeps Accounted (Serving c) (perform (.leaveList c)) :=
  leads_perform fun state serving => serving.1.becomes _ (Subscriptions.Open c) (fun _ _ => rfl) rfl
    (Server.leaveList_subscriptions state.1 c) (serving.1.2.leave c) (serving.2.leave c)

theorem dropDirects_serving : Keeps Accounted (Serving c) (perform (.dropDirects c)) :=
  leads_perform fun state serving => serving.1.becomes _ (Subscriptions.Open c) (fun _ _ => rfl) rfl
    (Server.dropDirects_subscriptions state.1 c) (serving.1.2.drop c) (serving.2.drop c)

theorem shut_between : Kept Action.apply Accounted Between (.shut c) :=
  fun state between => between.kept (fun _ _ => rfl) rfl
    ((Server.shut_subscriptions state.1 c).mono (between.2.shut c))

/-- A connection that is closed is in no list and has no messages. -/
theorem close_between : Keeps Accounted Between (close c) := by
  let gone : Subscriptions → Prop := fun v => (v.subscriber c).item = none ∧ (v.subscriber c).pending = []
  have goneStill := between_still.subscriptions gone
  have disconnected : Tries Action.apply Accounted Between
      (fun now => Between now ∧ gone now.1.subscriptions) Between (onDisconnect c) := by
    have leave : ∀ messages, Tries Action.apply Accounted
        (fun now => Between now ∧ (now.1.conns c).directMessage = messages)
        (fun now => (Between now ∧ (now.1.subscriptions.subscriber c).item = none) ∧
          (now.1.conns c).directMessage = messages) Between (perform (.leaveList c) : Routine Unit) := by
      refine fun messages => leads_perform fun state holds => ?_
      have left := holds.1.becomes (.leaveList c)
        (fun v => (v.subscriber c).item = none ∧ (v.subscriber c).pending = messages) (fun _ _ => rfl) rfl
        (Server.leaveList_subscriptions state.1 c) (holds.1.2.leave c)
        ⟨Subscriptions.leave_item _ c, (Subscriptions.leave_field _ fun _ => rfl).trans holds.2⟩
      exact ⟨left.1, Ends.mono left.2 (fun _ _ both => ⟨⟨both.1, both.2.1⟩, both.2.2⟩)
        fun _ _ both => both.1⟩
    refine goneStill.onDisconnect_tries leave (fun now between free => ⟨between, free⟩) ?_
      (fun now middle empty => ⟨middle.1, middle.2, empty⟩) fun _ holds => holds.1
    refine leads_perform fun state holds => ?_
    have dropped := holds.1.becomes (.dropDirects c) gone (fun _ _ => rfl) rfl
      (Server.dropDirects_subscriptions state.1 c) (holds.1.2.drop c)
      ⟨(Subscriptions.drop_field _ fun _ => rfl).trans holds.2, Subscriptions.drop_pending _ c⟩
    exact ⟨dropped.1, Ends.mono dropped.2 (fun _ _ both => both) fun _ _ both => both.1⟩
  refine (shut_between c).stays.bind fun _ => Tries.bind disconnected fun _ => ?_
  refine leads_perform fun state holds => holds.1.kept (fun _ _ => rfl) rfl ?_
  exact Ends.mono (Server.retire_subscriptions state.1 c)
    (fun _ _ same => same ▸ holds.1.2.retire holds.2.1 holds.2.2) fun _ _ same => same ▸ holds.1.2

theorem begin_serving (taken line : Bytes) (state : Traced) (serving : Serving c state) :
    Accounted (.begin c taken line) state ∧
      (recording Action.apply (.begin c taken line) state).Ends
        (fun _ now => Serving c now ∨ Between now ∧ (now.1.conns c).closed = true)
        fun _ => Between := by
  have begun := serving.1.step (.begin c taken line) (fun v =>
      v.Open c ∨ (v.subscriber c).closed = true) (fun _ _ => rfl) rfl (by
    refine Ends.mono (Server.begin_subscriptions state.1 c taken line) (fun _ t same => ?_)
      fun _ t same => ?_
    · rcases same with same | same
      · exact ⟨same ▸ serving.1.2, Or.inl (same ▸ serving.2)⟩
      · exact ⟨same ▸ serving.1.2.shut c, Or.inr (same ▸ Subscriptions.shut_closed _ c)⟩
    · exact ⟨same ▸ serving.1.2, Or.inl (same ▸ serving.2)⟩)
  refine ⟨begun.1, Ends.mono begun.2 (fun _ now both => ?_) fun _ _ both => both.1⟩
  exact both.2.imp (fun opened => ⟨both.1, opened⟩) fun closed => ⟨both.1, closed⟩

theorem flush_between (sent : Option Nat) :
    Leads Action.apply Accounted (Serving c) Between (perform (.flush c sent) : Routine Unit) := by
  refine leads_perform fun state serving => serving.1.kept (fun _ _ => rfl) rfl ?_
  have flushed : (state.1.flushed c).Sound [] := by
    unfold Server.flushed
    split
    · exact serving.1.2.take c
    · exact serving.1.2
  refine Ends.mono (Server.flush_subscriptions state.1 c sent) (fun _ t same => ?_)
    fun _ t same => same ▸ flushed
  rcases same with same | same
  · exact same ▸ flushed
  · exact same ▸ flushed.shut c

/-- A queue is deleted; its subscribers are let go one after another. -/
theorem deleteQueue_serving (key : Bytes) : Keeps Accounted (Serving c) (deleteQueue key) := by
  let emptying : Subscriptions → Prop := fun v => v.Open c ∧ v.Dying
  have remaining := between_still.subscriptions emptying
  refine (serving_still c).deleteQueue_keeps remaining (fun now holds => ⟨holds.1, holds.2.1⟩) ?_ ?_ ?_
  · refine leads_perform fun state serving => serving.1.step _ emptying (fun _ _ => rfl) rfl ?_
    refine Ends.mono (Server.unhook_subscriptions state.1 key) (fun _ t same => ?_)
      fun _ _ impossible => impossible.elim
    cases same with
    | inl removed =>
        obtain ⟨i, same, _⟩ := removed
        exact ⟨same ▸ serving.1.2.remove i, same ▸ ⟨serving.2, serving.1.2.listed.remove_dying i⟩⟩
    | inr same =>
        have nothing : { state.1.subscriptions with dying := [] }.Dying :=
          ⟨List.nodup_nil, fun d member => by cases member⟩
        exact ⟨same ▸ serving.1.2.setDying [], same ▸ ⟨serving.2, nothing⟩⟩
  · intro state holds
    refine holds.1.becomes _ emptying (fun _ _ => rfl) rfl (Server.popItem_subscriptions state.1)
      (holds.1.2.pop holds.2.2) ⟨holds.2.1.pop, holds.2.2.pop⟩
  · refine leads_perform fun state holds => ?_
    exact holds.1.becomes _ (Subscriptions.Open c) (fun _ _ => rfl) rfl
      (Server.bury_subscriptions state.1) (holds.1.2.setDying []) holds.2.1

/-- Message `d` is being published, and is still to go to `rest`. -/
structure Publishing (c : ConnId) (d : Nat) (rest : List ConnId) (state : Traced) : Prop where
  held : publishing state.2 = [d]
  sound : state.1.subscriptions.Sound [d]
  opened : state.1.subscriptions.Open c
  connected : ∀ w ∈ rest, (state.1.subscriptions.subscriber w).connected = true
  room : state.1.subscriptions.entries d + rest.length ≤ 2 ^ 31

theorem Publishing.suffix {c : ConnId} {d : Nat} {rest last : List ConnId} {state : Traced}
    (publishing : Publishing c d rest state) (suffix : last <:+ rest) : Publishing c d last state where
  held := publishing.held
  sound := publishing.sound
  opened := publishing.opened
  connected := fun x member => publishing.connected x (suffix.subset member)
  room := by
    have room := publishing.room
    have shorter := suffix.length_le
    omega

theorem publish_leads {d : Nat} {w : ConnId} {rest : List ConnId} {action : Action} {claim : Bool}
    (plain : ∀ held s, holds held (action, s) = held) (touched : action.touches = [d])
    (effect : ∀ s, action.apply s = .returned (s.publish w d claim) ()) :
    Tries Action.apply Accounted (Publishing c d (w :: rest)) (Publishing c d rest) (fun _ => False)
      (perform action : Routine Unit) := by
  refine leads_perform fun state publishing => ?_
  refine ⟨⟨by rw [publishing.held]; exact publishing.sound, fun e member => ?_⟩, recording_ends ?_⟩
  · rw [touched] at member
    rw [publishing.held]
    exact member
  · rw [effect, Ends_returned]
    have pushed := Server.publish_subscriptions state.1 w d claim
    have room := publishing.room
    rw [List.length_cons] at room
    have joined := publishing.connected w List.mem_cons_self
    have entries := Subscriptions.entries_push (publishing.sound.listed.known w joined) d d
    rw [List.count_singleton_self] at entries
    have same : ∀ x, ((state.1.publish w d claim).subscriptions.subscriber x).connected =
        (state.1.subscriptions.subscriber x).connected ∧
        ((state.1.publish w d claim).subscriptions.subscriber x).closed =
          (state.1.subscriptions.subscriber x).closed := by
      intro x
      rw [pushed]
      exact state.1.subscriptions.push_field w d x
    constructor
    · rw [publishing_append, plain, publishing.held]
    · rw [pushed]
      refine publishing.sound.push joined List.mem_cons_self ?_
      rw [List.count_singleton_self]
      omega
    · exact publishing.opened.field (same c).1 (same c).2
    · intro x member
      exact (same x).1.trans (publishing.connected x (List.mem_cons_of_mem w member))
    · rw [pushed, entries]
      omega

theorem publishAll_leads (i d : Nat) (list : List ConnId) :
    Tries Action.apply Accounted (Publishing c d list) (Publishing c d []) (fun _ => False)
      (publishAll i d list) := by
  induction list with
  | nil => exact leads_pure _ fun _ holds => holds
  | cons w rest ih =>
      rw [publishAll]
      refine Tries.bind (use_keeps w) fun worker => ?_
      extract_lets next
      have later : ∀ u, Tries Action.apply Accounted (Publishing c d rest) (Publishing c d [])
          (fun _ => False) (next u) := fun _ => ih
      split
      · exact Tries.bind (publish_leads c (fun _ _ => rfl) rfl fun _ => rfl) later
      · split
        · exact Tries.bind (publish_leads c (fun _ _ => rfl) rfl fun _ => rfl) later
        · exact (later ()).mono (fun _ publishing => publishing.suffix (List.suffix_cons w rest))
            (fun _ holds => holds) fun _ holds => holds

/-- `pub`: the message is let go in any case, as the publisher's connection is
open and can be answered. -/
theorem pub_serving (name : Bytes) : Keeps Accounted (Serving c) (pub name c) := by
  refine leads_get fun s => ?_
  split
  · exact stays_fault.mono (fun _ holds => holds) fun _ holds => holds.1
  · exact (stays_throw _).mono (fun _ holds => holds) fun _ holds => holds.1
  · exact (quiet_keeps (serving_still c) rfl).mono (fun _ holds => holds.1) fun _ holds => holds
  · rename_i i _
    cases live : s.line i with
    | none => exact stays_fault.mono (fun _ holds => holds) fun _ holds => holds.1
    | some line =>
        simp only
        have created : Tries Action.apply Accounted (fun now => Serving c now ∧ now.1 = s)
            (Publishing c s.directs line.workers) (Serving c)
            (perform (.newDirect i (published name (s.conns c).http.body) line.name) : Routine Unit) := by
          refine leads_perform fun state holds => ?_
          obtain ⟨serving, rfl⟩ := holds
          have sound := serving.1.2
          refine ⟨⟨by rw [serving.1.1]; exact sound, fun d member => by cases member⟩, ?_⟩
          have held : publishing (state.2 ++ [(.newDirect i (published name (state.1.conns c).http.body)
              line.name, state.1)]) = [state.1.directs] := by
            rw [publishing_append, serving.1.1]
            rfl
          refine ⟨held, sound.publish _ _, serving.2, fun w member => ?_, ?_⟩
          · exact sound.listed.connected i w (by rw [Server.lists_of_live live]; exact member)
          · have fresh := (sound.counted.known state.1.directs (Nat.le_refl _)).1
            have short := sound.listed.length_le i
            rw [Server.lists_of_live live] at short
            have few := sound.few
            change state.1.subscriptions.entries state.1.directs + line.workers.length ≤ 2 ^ 31
            omega
        have answered : Tries Action.apply Accounted (Publishing c s.directs []) (Publishing c s.directs [])
            (Serving c) (perform (.respond c ⟨"200 OK", [], .code 1⟩) : Routine Unit) := by
          refine leads_perform fun state running => ?_
          have opened : (state.1.conns c).closed = false := running.opened.2
          have same := Server.apply_subscribes
            (show (Action.respond c ⟨"200 OK", [], .code 1⟩).quiet = true from rfl) state.1
          refine ⟨⟨by rw [running.held]; exact running.sound, fun d member => by cases member⟩,
            recording_ends ?_⟩
          rw [Action.apply, Server.send_open opened] at same ⊢
          refine ⟨?_, ?_, ?_, fun w member => (List.not_mem_nil member).elim, ?_⟩
          · rw [publishing_append, running.held]
            rfl
          · exact same ▸ running.sound
          · exact same ▸ running.opened
          · exact same ▸ running.room
        refine Tries.bind created fun _ => Tries.bind ((publishAll_leads c i s.directs line.workers).mono
          (fun _ holds => holds) (fun _ holds => holds) fun _ => False.elim) fun _ => ?_
        refine Tries.bind answered fun _ => leads_perform fun state running => ?_
        have member : s.directs ∈ [s.directs] := List.mem_cons_self
        refine ⟨⟨by rw [running.held]; exact running.sound, fun d touched => ?_⟩, recording_ends ?_⟩
        · rw [running.held]
          exact touched
        · have released := Server.unlinkDirect_subscriptions (rfl : state.1.subscriptions = _) s.directs
          have sound := running.sound.release member
          rw [List.erase_cons_head] at sound
          have nothing : publishing (state.2 ++ [(.releaseDirect s.directs, state.1)]) = [] := by
            rw [publishing_append, running.held]
            exact List.erase_cons_head s.directs []
          exact Ends.mono released (fun _ t same => ⟨⟨nothing, same ▸ sound⟩, same ▸ running.opened⟩)
            fun _ t same => ⟨⟨nothing, same ▸ sound⟩, same ▸ running.opened⟩

end Routine

/-! ### Runs -/

theorem serving_operation (env : Env) (c : ConnId) :
    SustainsOperation env c Accounted (Serving c) Between where
  still := serving_still c
  mode := fun on state serving => serving.1.becomes _ (Subscriptions.Open c) (fun _ _ => rfl) rfl
    (Server.workerMode_subscriptions state.1 c on) (serving.1.2.setMode c on) (serving.2.setMode c on)
  join := fun i name => leads_perform fun state holds =>
    holds.1.1.becomes _ (Subscriptions.Open c) (fun _ _ => rfl) rfl
      (Server.subscribe_subscriptions state.1 c i name) (holds.1.1.2.join holds.2.1 holds.1.2.1 i _)
      (holds.1.2.join c i _)
  away := fun _ _ _ _ _ => ((Routine.leaveList_serving c).bind fun _ =>
    Routine.dropDirects_serving c).mono (fun _ holds => holds.1) fun _ holds => holds
  stop := fun _ _ => (Routine.leaveList_serving c).mono (fun _ holds => holds.1) fun _ holds => holds
  pub := Routine.pub_serving c
  remove := Routine.deleteQueue_serving c
  weaker := fun _ serving => serving.1
  calm := between_still
  start := Routine.begin_serving c
  shut := Routine.shut_between c
  close := Routine.close_between c

/-- Each input, from a state between operations. -/
theorem input_between {s : Server} {input : Input} (enabled : input.Enabled s)
    (assumed : ∀ moment ∈ (input.run s).1, descriptors moment.1 moment.2)
    (sound : s.subscriptions.Sound []) :
    (input.routine s).recorded.wp (recording Action.apply) Accounted (fun _ => Between) (fun _ => Between)
      (s, []) := by
  have between : Between (s, []) := ⟨rfl, sound⟩
  have serving : ∀ c, Input.open? s c → Serving c (s, []) := fun c opened =>
    ⟨between, opened.2.1, opened.2.2.1⟩
  cases input with
  | accept loop garbage =>
      have room : descriptors (.accept loop garbage) s := assumed (.accept loop garbage, s) (by
        rw [Input.run, Input.routine, perform, run]
        exact List.mem_cons_self)
      rw [Input.routine, recorded_perform]
      exact between.kept (fun _ _ => rfl) rfl
        ((Server.accept_subscriptions s loop garbage).mono (sound.enter room))
  | recv c chunk env =>
      exact (serving_operation env c).recv_leads _ chunk _ (serving c enabled.1)
  | send c sent =>
      exact (serving_operation atRest c).send_leads _ (Routine.flush_between c sent) _
        (serving c enabled.1)
  | hangup c => exact (serving_operation atRest c).hangup_leads _ _ (serving c enabled)
  | checkTimeout now => exact between_still.pass_keeps (between_still.checkTimeout_keeps now) _ between
  | cleanDeadTasks => exact between_still.cleanDeadTasks_keeps _ between
  | deleteConnections loop =>
      exact between_still.pass_keeps (Routine.quiet_keeps between_still rfl) _ between

theorem new_sound (threads : Nat) (jsonrpc2 : Bool) (version : Bytes) (startTime : Nat) :
    (Server.new threads jsonrpc2 version startTime).subscriptions.Sound [] where
  counted :=
    { counter := fun d old => by cases old
      small := fun d old => by cases old
      freed := fun d old => by cases old
      known := fun d _ => ⟨rfl, rfl⟩ }
  listed := Server.new_listed threads jsonrpc2 version startTime
  few := Nat.zero_le _

theorem reachable_sound {s : Server} (reachable : Reachable descriptors s) :
    s.subscriptions.Sound [] := by
  induction reachable with
  | new threads jsonrpc2 version startTime => exact new_sound threads jsonrpc2 version startTime
  | @step s after input _ enabled assumed returned ih =>
      have ends := outcome_recorded (input_between enabled assumed ih)
      rw [show (input.routine s).run Action.apply s = input.run s from rfl, returned] at ends
      exact ends.2

/-! ### Deletion -/

/-- The entries for message `d` in the queues of all connections. -/
def Server.entries (s : Server) (d : Nat) : Nat :=
  ∑ c ∈ Finset.range s.accepted, (s.conns c).directMessage.count d

/-- Every message counts its entries and the places in `held`; it is deleted when
there are none, so that no connection has a deleted message. -/
structure Server.Owned (held : List Nat) (s : Server) : Prop where
  counter : ∀ d < s.directs, (s.direct d).counter = s.entries d + held.count d
  freed : ∀ d < s.directs, ((s.direct d).freed = true ↔ s.entries d + held.count d = 0)
  live : ∀ c, ∀ d ∈ (s.conns c).directMessage, d < s.directs ∧ (s.direct d).freed = false

/-- The actions that drop entries or end a publication. -/
def Action.releases : Action → Bool
  | .flush _ _ => true
  | .dropDirects _ => true
  | .releaseDirect _ => true
  | _ => false

theorem Subscriptions.Sound.owned {held : List Nat} {s : Server} (sound : s.subscriptions.Sound held) :
    s.Owned held where
  counter := sound.counted.counter
  freed := by
    intro d old
    have counter := sound.counted.counter d old
    have freed := sound.counted.freed d old
    rw [counter] at freed
    exact freed
  live := fun _ _ member => sound.counted.pending_live sound.listed member

namespace Server

variable {s t : Server} {held : List Nat}

theorem unlinkDirect_returns {d : Nat} (live : (s.direct d).freed = false) :
    s.unlinkDirect d ≠ .fault := by
  unfold unlinkDirect
  simp only
  rw [if_neg (by rw [live]; exact Bool.false_ne_true)]
  intro impossible
  cases impossible

theorem unlinkDirects_returns (messages : List Nat)
    (counted : s.subscriptions.Counted (messages ++ held)) : s.unlinkDirects messages ≠ .fault := by
  induction messages generalizing s with
  | nil =>
      intro impossible
      cases impossible
  | cons d rest ih =>
      have member : d ∈ d :: rest ++ held := List.mem_cons_self
      have live := (counted.held_live member).2
      have effect := unlinkDirect_subscriptions (rfl : s.subscriptions = _) d
      have released := counted.release member
      rw [List.cons_append, List.erase_cons_head] at released
      rw [unlinkDirects]
      cases unlinked : s.unlinkDirect d with
      | returned t value =>
          rw [unlinked] at effect
          exact ih (effect ▸ released)
      | thrown t error =>
          intro impossible
          cases impossible
      | fault => exact absurd unlinked (unlinkDirect_returns live)

theorem andThen_returns {result : Result} {next : Server → Result} (first : result ≠ .fault)
    (later : ∀ t, next t ≠ .fault) : result.andThen next ≠ .fault := by
  cases result with
  | returned t value => exact later t
  | thrown t error =>
      intro impossible
      cases impossible
  | fault => exact absurd rfl first

theorem popDirect_returns (c : ConnId) (sent : Option Nat)
    (live : ∀ d ∈ (s.conns c).directMessage, (s.direct d).freed = false) :
    s.popDirect c sent ≠ .fault := by
  unfold popDirect
  cases pendingEq : (s.conns c).directMessage with
  | nil =>
      intro impossible
      cases impossible
  | cons d rest =>
      have first := live d (by rw [pendingEq]; exact List.mem_cons_self)
      refine andThen_returns (unlinkDirect_returns first) fun t => ?_
      cases sent with
      | none =>
          intro impossible
          cases impossible
      | some sent =>
          intro impossible
          cases impossible

/-- No message is released after it was deleted. -/
theorem releases_return {action : Action} {state : Traced} (accounted : Accounted action state)
    (releases : action.releases = true) : action.apply state.1 ≠ .fault := by
  have sound := accounted.1
  have live : ∀ c, ∀ d ∈ (state.1.conns c).directMessage, (state.1.direct d).freed = false :=
    fun c d member => (sound.counted.pending_live (c := c) sound.listed member).2
  cases action with
  | flush c sent =>
      refine andThen_returns ?_ fun t impossible => by cases impossible
      split
      · exact popDirect_returns c sent (live c)
      · cases sent with
        | none =>
            intro impossible
            cases impossible
        | some sent =>
            intro impossible
            cases impossible
  | dropDirects c =>
      have effect := modify_subscriber (s := state.1) c (fun conn => { conn with directMessage := [] })
        (fun subscriber => { subscriber with pending := [] }) rfl
      by_cases empty : (state.1.conns c).directMessage = []
      · rw [Action.apply, dropDirects, empty]
        intro impossible
        cases impossible
      · refine @unlinkDirects_returns _ (publishing state.2) _ (effect ▸ ?_)
        refine sound.counted.hold (sound.listed.pending_known empty) _ _ fun e => ?_
        rw [List.count_nil, Nat.add_zero]
        rfl
  | releaseDirect d =>
      exact unlinkDirect_returns (sound.counted.held_live (accounted.2 d List.mem_cons_self)).2
  | _ => cases releases

end Server

/-! ### Deleted messages -/

namespace Subscriptions

variable {v : Subscriptions} {held : List Nat} {d : Nat}

theorem release_direct {e : Nat} (other : d ≠ e) : (v.release e).direct d = v.direct d :=
  Function.update_of_ne other _ _

theorem releaseAll_direct (messages : List Nat) (others : d ∉ messages) :
    (messages.foldl release v).direct d = v.direct d := by
  induction messages generalizing v with
  | nil => rfl
  | cons e rest ih =>
      rw [List.mem_cons, not_or] at others
      exact (ih others.2).trans (release_direct others.1)

theorem leave_direct (c : ConnId) : (v.leave c).direct = v.direct := by
  unfold leave
  cases (v.subscriber c).item <;> rfl

theorem pop_direct : v.pop.direct = v.direct := by
  unfold pop
  cases v.dying <;> rfl

theorem Sound.not_pending (sound : v.Sound held) (deleted : (v.direct d).freed = true) (c : ConnId) :
    d ∉ (v.subscriber c).pending := by
  intro member
  have live := (sound.counted.pending_live sound.listed member).2
  rw [deleted] at live
  cases live

theorem Sound.not_held (sound : v.Sound held) (deleted : (v.direct d).freed = true) : d ∉ held := by
  intro member
  have live := (sound.counted.held_live member).2
  rw [deleted] at live
  cases live

theorem Sound.take_direct (sound : v.Sound held) (deleted : (v.direct d).freed = true) (c : ConnId) :
    (v.take c).direct d = v.direct d := by
  unfold Subscriptions.take
  cases pendingEq : (v.subscriber c).pending with
  | nil => rfl
  | cons e rest =>
      have absent := sound.not_pending deleted c
      rw [pendingEq, List.mem_cons, not_or] at absent
      exact release_direct absent.1

end Subscriptions

/-- Nothing touches a message after it was deleted. -/
theorem deleted_stays {action : Action} {state : Traced} (accounted : Accounted action state) {d : Nat}
    (old : d < state.1.directs) (deleted : (state.1.direct d).freed = true) :
    (action.apply state.1).Ends (fun _ t => t.direct d = state.1.direct d)
      fun _ t => t.direct d = state.1.direct d := by
  have sound := accounted.1
  have becomes : ∀ {v : Subscriptions}, Server.Subscribes v (action.apply state.1) →
      v.direct d = state.1.direct d → (action.apply state.1).Ends
        (fun _ t => t.direct d = state.1.direct d) fun _ t => t.direct d = state.1.direct d := by
    intro v subscribes same
    exact @Server.Subscribes.mono _ _ (fun v => v.direct d = state.1.direct d) subscribes same
  by_cases quiet : action.quiet = true
  · exact becomes (Server.apply_subscribes quiet state.1) rfl
  · cases action with
    | accept loop garbage => exact becomes (Server.accept_subscriptions state.1 loop garbage) rfl
    | begin c taken line =>
        refine Ends.mono (Server.begin_subscriptions state.1 c taken line) (fun _ t same => ?_)
          fun _ t same => congrFun (congrArg Subscriptions.direct same) d
        rcases same with same | same
        · exact congrFun (congrArg Subscriptions.direct same) d
        · exact congrFun (congrArg Subscriptions.direct same) d
    | shut c => exact becomes (Server.shut_subscriptions state.1 c) rfl
    | retire c =>
        exact Ends.mono (Server.retire_subscriptions state.1 c)
          (fun _ t same => congrFun (congrArg Subscriptions.direct same) d)
          fun _ t same => congrFun (congrArg Subscriptions.direct same) d
    | flush c sent =>
        have flushed : (state.1.flushed c).direct d = state.1.direct d := by
          unfold Server.flushed
          split
          · exact sound.take_direct deleted c
          · rfl
        refine Ends.mono (Server.flush_subscriptions state.1 c sent) (fun _ t same => ?_)
          fun _ t same => (congrFun (congrArg Subscriptions.direct same) d).trans flushed
        rcases same with same | same
        · exact (congrFun (congrArg Subscriptions.direct same) d).trans flushed
        · exact (congrFun (congrArg Subscriptions.direct same) d).trans flushed
    | workerMode c on => exact becomes (Server.workerMode_subscriptions state.1 c on) rfl
    | leaveList c =>
        exact becomes (Server.leaveList_subscriptions state.1 c)
          (congrFun (Subscriptions.leave_direct c) d)
    | dropDirects c =>
        exact becomes (Server.dropDirects_subscriptions state.1 c)
          (Subscriptions.releaseAll_direct _ (sound.not_pending deleted c))
    | subscribe c i name => exact becomes (Server.subscribe_subscriptions state.1 c i name) rfl
    | newDirect i data source =>
        exact becomes (Server.newDirect_subscriptions state.1 i data source)
          (Function.update_of_ne (Nat.ne_of_lt old) _ _)
    | publishClaim i w e =>
        have other : d ≠ e := fun same =>
          sound.not_held deleted (same ▸ accounted.2 e List.mem_cons_self)
        exact Function.update_of_ne other _ _
    | publishPush i w e =>
        have other : d ≠ e := fun same =>
          sound.not_held deleted (same ▸ accounted.2 e List.mem_cons_self)
        exact Function.update_of_ne other _ _
    | releaseDirect e =>
        have other : d ≠ e := fun same =>
          sound.not_held deleted (same ▸ accounted.2 e List.mem_cons_self)
        exact becomes (Server.unlinkDirect_subscriptions rfl e) (Subscriptions.release_direct other)
    | unhook key =>
        refine Ends.mono (Server.unhook_subscriptions state.1 key) (fun _ t same => ?_)
          fun _ _ impossible => impossible.elim
        rcases same with ⟨i, same, _⟩ | same
        · exact congrFun (congrArg Subscriptions.direct same) d
        · exact congrFun (congrArg Subscriptions.direct same) d
    | popItem =>
        exact becomes (Server.popItem_subscriptions state.1) (congrFun Subscriptions.pop_direct d)
    | bury => exact becomes (Server.bury_subscriptions state.1) rfl
    | _ => exact absurd rfl quiet

/-- In every run the counter of a message is the number of its entries, plus one
for the publication under way; it is deleted once, with its last entry. -/
theorem direct_counters {s : Server} (reachable : Reachable descriptors s) :
    s.Owned [] ∧ ∀ input : Input, input.Enabled s →
      (∀ moment ∈ (input.run s).1, descriptors moment.1 moment.2) →
      ∀ before moment after, (input.run s).1 = before ++ moment :: after →
        moment.2.Owned (publishing before) ∧
        (moment.1.releases = true → moment.1.apply moment.2 ≠ .fault) ∧
        ∀ d < moment.2.directs, (moment.2.direct d).freed = true →
          (moment.1.apply moment.2).Ends (fun _ t => t.direct d = moment.2.direct d)
            fun _ t => t.direct d = moment.2.direct d := by
  have sound := reachable_sound reachable
  refine ⟨sound.owned, fun input enabled assumed before moment after split => ?_⟩
  have accounted := moment_recorded (input_between enabled assumed sound) split
  rw [List.nil_append] at accounted
  exact ⟨accounted.1.owned, Server.releases_return accounted, fun d old => deleted_stays accounted old⟩

instance (action : Action) (s : Server) : Decidable (descriptors action s) := by
  cases action with
  | accept loop garbage => exact inferInstanceAs (Decidable (_ < _))
  | _ => exact instDecidableTrue

/-- Two workers ask the queue `a`; a message is published to them, and the first
one has taken it. -/
def publishedTwice : List Input :=
  [.accept 0 ⟨false, false, false⟩, .accept 0 ⟨false, false, false⟩,
    .accept 0 ⟨false, false, false⟩,
    .recv 0 (ascii "GET /a HTTP/1.1\r\nType: get\r\n\r\n") atRest,
    .recv 1 (ascii "GET /a HTTP/1.1\r\nType: get\r\n\r\n") atRest,
    .recv 2 (ascii "GET /a HTTP/1.1\r\nType: pub\r\n\r\n") atRest,
    .send 0 (some 70)]

theorem direct_counters_two : ∃ s, Reachable descriptors s ∧ s.directs = 1 ∧
    (s.conns 1).directMessage = [0] ∧ (s.direct 0).counter = s.entries 0 := by
  have ran : (afterMeeting descriptors publishedTwice (Server.new 1 false [] 0)).map (fun s =>
      (s.directs, (s.conns 1).directMessage)) = some (1, [0]) := by
    decide +kernel
  obtain ⟨s, sEq, facts⟩ := Option.map_eq_some_iff.mp ran
  rw [Prod.mk.injEq] at facts
  have reachable := reachable_afterMeeting (.new 1 false [] 0) sEq
  have owned := (direct_counters reachable).1
  exact ⟨s, reachable, facts.1, facts.2, owned.counter 0 (by rw [facts.1]; exact Nat.one_pos)⟩

end Ijson
