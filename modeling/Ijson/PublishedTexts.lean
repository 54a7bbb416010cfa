/-
The text of a published message.

It is written once, when `pub` makes the message, and no action changes it: what
waits for a connection is what was published.
-/

import Ijson.GeneratedIds
import Ijson.SubscriberLists
import Ijson.Sustained

namespace Ijson

open Program

namespace Subscriptions

variable {v u : Subscriptions}

/-- The messages are the same ones, and waits for a connection what waited for
it before, or message `d`. -/
structure SameTexts (known : Nat → Prop) (v u : Subscriptions) : Prop where
  directs : u.directs = v.directs
  data : ∀ d, (u.direct d).data = (v.direct d).data
  pending : ∀ x, ∀ d ∈ (u.subscriber x).pending, d ∈ (v.subscriber x).pending ∨ known d

namespace SameTexts

variable {known : Nat → Prop}

theorem refl (v : Subscriptions) : SameTexts known v v := ⟨rfl, fun _ => rfl, fun _ _ member => .inl member⟩

theorem relisted {w : Subscriptions} (same : SameTexts known v u) (directs : w.directs = u.directs)
    (direct : w.direct = u.direct) (subscriber : w.subscriber = u.subscriber) : SameTexts known v w where
  directs := directs.trans same.directs
  data := fun d => by rw [direct, same.data]
  pending := fun x d member => same.pending x d (subscriber ▸ member)

theorem release (same : SameTexts known v u) (d : Nat) : SameTexts known v (u.release d) where
  directs := same.directs
  data := by
    intro e
    rw [← same.data e, Subscriptions.release]
    simp only [Function.update_apply]
    split
    · rename_i equal
      rw [equal]
    · rfl
  pending := same.pending

theorem releaseAll (same : SameTexts known v u) (messages : List Nat) :
    SameTexts known v (messages.foldl Subscriptions.release u) := by
  induction messages generalizing u with
  | nil => exact same
  | cons d rest ih => exact ih (same.release d)

/-- A change of a subscriber for whom nothing new waits. -/
theorem modify (same : SameTexts known v u) (c : ConnId) (change : Subscriber → Subscriber)
    (fewer : ∀ d ∈ (change (u.subscriber c)).pending, d ∈ (u.subscriber c).pending ∨ known d) :
    SameTexts known v (u.modify c change) where
  directs := same.directs
  data := same.data
  pending := by
    intro x d member
    by_cases own : x = c
    · rw [own, modify_same] at member
      rcases fewer d member with before | now
      · exact own ▸ same.pending c d before
      · exact .inr now
    · rw [modify_other own] at member
      exact same.pending x d member

/-- A change of a subscriber beside what waits for it. -/
theorem changed (same : SameTexts known v u) (c : ConnId) (change : Subscriber → Subscriber)
    (keeps : ∀ subscriber, (change subscriber).pending = subscriber.pending) :
    SameTexts known v (u.modify c change) :=
  same.modify c change fun _ member => .inl (keeps _ ▸ member)

theorem leave (v : Subscriptions) (c : ConnId) : SameTexts known v (v.leave c) := by
  unfold Subscriptions.leave
  cases (v.subscriber c).item with
  | none => exact refl v
  | some i =>
      have listed : SameTexts known v (v.setList i ((v.lists i).erase c)) := (refl v).relisted rfl rfl rfl
      exact listed.changed c _ fun _ => rfl

theorem pop (v : Subscriptions) : SameTexts known v v.pop := by
  unfold Subscriptions.pop
  cases v.dying with
  | nil => exact refl v
  | cons c rest =>
      have shorter : SameTexts known v { v with dying := rest } := (refl v).relisted rfl rfl rfl
      exact shorter.changed c _ fun _ => rfl

theorem take (v : Subscriptions) (c : ConnId) : SameTexts known v (v.take c) := by
  unfold Subscriptions.take
  cases pending : (v.subscriber c).pending with
  | nil => exact refl v
  | cons d rest =>
      refine ((refl v).modify c _ fun e member => .inl ?_).release d
      rw [pending]
      exact List.mem_cons_of_mem d member

theorem drop (v : Subscriptions) (c : ConnId) : SameTexts known v (v.drop c) :=
  ((refl v).modify c _ fun _ member => absurd member List.not_mem_nil).releaseAll _

theorem push (v : Subscriptions) (w : ConnId) {d : Nat} (isKnown : known d) : SameTexts known v (v.push w d) := by
  have counted : SameTexts known v { v with
      direct := Function.update v.direct d
        { v.direct d with counter := ((v.direct d).counter + 1) % 2 ^ 32 } } := by
    refine ⟨rfl, fun e => ?_, fun _ _ member => .inl member⟩
    simp only [Function.update_apply]
    split
    · rename_i equal
      rw [equal]
    · rfl
  refine counted.modify w _ fun e member => ?_
  rcases List.mem_append.mp member with before | now
  · exact .inl before
  · exact .inr (List.mem_singleton.mp now ▸ isKnown)

end SameTexts

end Subscriptions

/-! ### One action -/

/-- A message that is handed on has been made. -/
def Action.made : Action → Server → Prop
  | .publishClaim _ _ d, s => d < s.directs
  | .publishPush _ _ d, s => d < s.directs
  | _, _ => True

/-- Whether a message is made. -/
def Action.prints : Action → Bool
  | .newDirect _ _ _ => true
  | _ => false

theorem Server.apply_texts {action : Action} (other : action.prints = false) {s : Server}
    (made : action.made s) :
    (action.apply s).Ends
      (fun _ t => Subscriptions.SameTexts (· < s.directs) s.subscriptions t.subscriptions)
      fun _ t => Subscriptions.SameTexts (· < s.directs) s.subscriptions t.subscriptions := by
  have same := @Subscriptions.SameTexts.refl (· < s.directs) s.subscriptions
  have becomes : ∀ {v : Subscriptions}, Subscribes v (action.apply s) →
      Subscriptions.SameTexts (· < s.directs) s.subscriptions v → (action.apply s).Ends
        (fun _ t => Subscriptions.SameTexts (· < s.directs) s.subscriptions t.subscriptions)
        fun _ t => Subscriptions.SameTexts (· < s.directs) s.subscriptions t.subscriptions := by
    intro v subscribes texts
    exact Ends.mono subscribes (fun _ _ after => after ▸ texts) fun _ _ after => after ▸ texts
  by_cases quiet : action.quiet = true
  · exact becomes (apply_subscribes quiet s) same
  · cases action with
    | accept loop garbage =>
        refine becomes (accept_subscriptions s loop garbage) ⟨rfl, fun _ => rfl, fun x d member => ?_⟩
        by_cases own : x = s.accepted
        · rw [own] at member
          simp [Subscriptions.enter, Server.subscriptions] at member
        · rw [show (s.subscriptions.enter.subscriber x) = s.subscriptions.subscriber x from
            Function.update_of_ne own _ _] at member
          exact .inl member
    | begin c taken line =>
        refine Ends.mono (begin_subscriptions s c taken line) (fun _ t after => ?_) fun _ t after => after ▸ same
        rcases after with after | after
        · exact after ▸ same
        · exact after ▸ same.changed c _ fun _ => rfl
    | shut c => exact becomes (shut_subscriptions s c) (same.changed c _ fun _ => rfl)
    | retire c =>
        exact Ends.mono (retire_subscriptions s c) (fun _ t after => after ▸ same.changed c _ fun _ => rfl)
          fun _ t after => after ▸ same
    | flush c sent =>
        have flushed : Subscriptions.SameTexts (· < s.directs) s.subscriptions (s.flushed c) := by
          unfold Server.flushed
          split
          · exact Subscriptions.SameTexts.take s.subscriptions c
          · exact same
        refine Ends.mono (flush_subscriptions s c sent) (fun _ t after => ?_) fun _ t after => after ▸ flushed
        rcases after with after | after
        · exact after ▸ flushed
        · exact after ▸ flushed.changed c _ fun _ => rfl
    | workerMode c on => exact becomes (workerMode_subscriptions s c on) (same.changed c _ fun _ => rfl)
    | leaveList c => exact becomes (leaveList_subscriptions s c) (.leave s.subscriptions c)
    | dropDirects c => exact becomes (dropDirects_subscriptions s c) (.drop s.subscriptions c)
    | subscribe c i name =>
        have joined : Subscriptions.SameTexts (· < s.directs) s.subscriptions
            (s.subscriptions.setList i (c :: s.subscriptions.lists i)) := same.relisted rfl rfl rfl
        exact becomes (subscribe_subscriptions s c i name) (joined.changed c _ fun _ => rfl)
    | newDirect i data source => cases other
    | publishClaim i w d =>
        change Subscriptions.SameTexts (· < s.directs) s.subscriptions (s.publish w d true).subscriptions
        rw [publish_subscriptions]
        exact .push s.subscriptions w made
    | publishPush i w d =>
        change Subscriptions.SameTexts (· < s.directs) s.subscriptions (s.publish w d false).subscriptions
        rw [publish_subscriptions]
        exact .push s.subscriptions w made
    | releaseDirect d => exact becomes (unlinkDirect_subscriptions rfl d) (same.release d)
    | unhook key =>
        refine Ends.mono (unhook_subscriptions s key) (fun _ t after => ?_) fun _ _ impossible => impossible.elim
        rcases after with ⟨i, after, _⟩ | after
        · exact after ▸ same.relisted rfl rfl rfl
        · exact after ▸ same.relisted rfl rfl rfl
    | popItem => exact becomes (popItem_subscriptions s) (.pop s.subscriptions)
    | bury => exact becomes (bury_subscriptions s) (same.relisted rfl rfl rfl)
    | _ => exact absurd rfl quiet

/-- `pub` has made message `d` with this text. -/
def Prints (d : Nat) (data : Bytes) (moments : List (Action × Server)) : Prop :=
  ∃ i source s, (Action.newDirect i data source, s) ∈ moments ∧ s.directs = d

theorem Prints.append {d : Nat} {data : Bytes} {moments : List (Action × Server)}
    (prints : Prints d data moments) (moment : Action × Server) : Prints d data (moments ++ [moment]) := by
  obtain ⟨i, source, s, member, number⟩ := prints
  exact ⟨i, source, s, List.mem_append_left _ member, number⟩

/-- What waits has been made, and its text is the one it was made with. -/
structure Printed (state : Traced) : Prop where
  waits : ∀ x, ∀ d ∈ (state.1.conns x).directMessage, d < state.1.directs
  texts : ∀ d < state.1.directs, Prints d (state.1.direct d).data state.2

theorem printed_new (threads : Nat) (jsonrpc2 : Bool) (version : Bytes) (startTime : Nat) :
    Printed (Server.new threads jsonrpc2 version startTime, []) :=
  ⟨fun _ _ member => absurd member List.not_mem_nil, fun _ below => absurd below (Nat.not_lt_zero _)⟩

theorem Printed.print {s : Server} {moments : List (Action × Server)} (printed : Printed (s, moments))
    (i : Nat) (data source : Bytes) {t : Server}
    (made : (Action.newDirect i data source).apply s = .returned t ()) :
    Printed (t, moments ++ [(.newDirect i data source, s)]) := by
  cases made
  refine ⟨fun x d member => Nat.lt_succ_of_lt (printed.waits x d member), fun d below => ?_⟩
  change Prints d (Function.update s.direct s.directs
    { data := data, counter := 1, freed := false, source := source } d).data _
  by_cases own : d = s.directs
  · rw [own, Function.update_self]
    exact ⟨i, source, s, List.mem_append_right _ List.mem_cons_self, rfl⟩
  · rw [Function.update_of_ne own]
    exact (printed.texts d (Nat.lt_of_le_of_ne (Nat.le_of_lt_succ below) own)).append _

theorem Printed.step {action : Action} {s : Server} {moments : List (Action × Server)}
    (printed : Printed (s, moments)) (made : action.made s) :
    (action.apply s).Ends (fun _ t => Printed (t, moments ++ [(action, s)]))
      fun _ t => Printed (t, moments ++ [(action, s)]) := by
  have kept : ∀ t : Server, Subscriptions.SameTexts (· < s.directs) s.subscriptions t.subscriptions →
      Printed (t, moments ++ [(action, s)]) := by
    intro t same
    have directs : t.directs = s.directs := same.directs
    refine ⟨fun x d member => ?_, fun d below => ?_⟩
    · rw [directs]
      exact (same.pending x d member).elim (printed.waits x d) id
    · rw [directs] at below
      rw [show (t.direct d).data = (s.direct d).data from same.data d]
      exact (printed.texts d below).append _
  cases prints : action.prints with
  | false => exact Ends.mono (Server.apply_texts prints made) (fun _ => kept) fun _ => kept
  | true =>
      cases action with
      | newDirect i data source => exact printed.print i data source rfl
      | _ => cases prints

/-! ### Runs -/

/-- Whether the action is `on_send`. -/
def Action.flushes : Action → Bool
  | .flush _ _ => true
  | _ => false

section Runs

variable {fact : Traced → Prop}

/-- Neither that nor a message handed on. -/
def Action.plain : Action → Bool
  | .flush _ _ => false
  | .publishClaim _ _ _ => false
  | .publishPush _ _ _ => false
  | _ => true

/-- What is kept by everything but `on_send`. -/
abbrev KeptElsewhere (fact : Traced → Prop) : Prop :=
  ∀ action : Action, action.flushes = false → ∀ state, fact state → action.made state.1 →
    (recording Action.apply action state).Ends (fun _ => fact) fun _ => fact

theorem sustains_kept (env : Env) (c : ConnId) (kept : KeptElsewhere fact) :
    SustainsOperation env c (fun _ _ => True) fact fact := by
  have keeps : ∀ action : Action, action.plain = true → Kept Action.apply (fun _ _ => True) fact action := by
    intro action plain state holds
    refine ⟨trivial, kept action ?_ state holds ?_⟩
    · cases action with
      | flush => cases plain
      | _ => rfl
    · cases action with
      | publishClaim => cases plain
      | publishPush => cases plain
      | _ => trivial
  have still : Still (fun _ _ => True) fact := by
    intro action quiet
    refine keeps action ?_
    cases action with
    | flush => cases quiet
    | publishClaim => cases quiet
    | publishPush => cases quiet
    | _ => rfl
  have performs : ∀ action : Action, action.plain = true →
      Routine.Keeps (fun _ _ => True) fact (perform action) := fun action plain => (keeps action plain).stays
  have publishes : ∀ i d list, Routine.Keeps (fun _ _ => True)
      (fun state => fact state ∧ d < state.1.directs) (Routine.publishAll i d list) := by
    intro i d list
    have given : ∀ w, Kept Action.apply (fun _ _ => True) (fun state => fact state ∧ d < state.1.directs)
        (.publishClaim i w d) ∧ Kept Action.apply (fun _ _ => True)
          (fun state => fact state ∧ d < state.1.directs) (.publishPush i w d) := fun w =>
      ⟨fun state holds => ⟨trivial, kept (.publishClaim i w d) rfl state holds.1 holds.2, holds.2⟩,
        fun state holds => ⟨trivial, kept (.publishPush i w d) rfl state holds.1 holds.2, holds.2⟩⟩
    induction list with
    | nil => exact stays_pure _
    | cons x rest ih =>
        rw [Routine.publishAll]
        refine (Routine.use_keeps x).bind fun worker => ?_
        split
        · exact (given x).1.stays.bind fun _ => ih
        · split
          · exact (given x).2.stays.bind fun _ => ih
          · exact ih
  refine
    { still := still
      mode := fun on => keeps _ rfl
      join := fun i name => (performs _ rfl).mono (fun _ holds => holds.1) fun _ holds => holds
      away := fun s key _ _ _ => ((performs _ rfl).bind fun _ =>
        performs _ rfl).mono (fun _ holds => holds.1) fun _ holds => holds
      stop := fun s _ => (performs _ rfl).mono (fun _ holds => holds.1) fun _ holds => holds
      pub := fun name => ?_
      remove := fun key => still.deleteQueue_keeps still (fun _ holds => holds)
        (performs _ rfl) (keeps _ rfl) (performs _ rfl)
      weaker := fun _ holds => holds
      calm := still
      start := fun taken line state holds => ?_
      shut := keeps _ rfl
      close := ?_ }
  · refine leads_get fun s => ?_
    have alone : ∀ {routine : Routine Unit}, Routine.Keeps (fun _ _ => True) fact routine →
        Leads Action.apply (fun _ _ => True) (fun now => fact now ∧ now.1 = s) fact routine :=
      fun keeps => Leads.mono keeps (fun _ holds => holds.1) fun _ holds => holds
    split
    · exact alone stays_fault
    · exact alone (stays_throw _)
    · exact alone (performs _ rfl)
    · rename_i i _
      cases s.line i with
      | none => exact alone stays_fault
      | some line =>
          have made : Leads Action.apply (fun _ _ => True) (fun now => fact now ∧ now.1 = s)
              (fun state => fact state ∧ s.directs < state.1.directs)
              (perform (.newDirect i (Routine.published name (s.conns c).http.body) line.name) : Routine Unit) := by
            refine leads_perform fun state holds => ⟨trivial, ?_⟩
            have later := kept (.newDirect i (Routine.published name (s.conns c).http.body) line.name) rfl state
              holds.1 trivial
            exact ⟨later, by rw [holds.2]; exact Nat.lt_succ_self _⟩
          refine Leads.bind made (fun _ => ?_) fun _ holds => holds.1
          refine Leads.bind (publishes _ _ _) (fun _ => ?_) fun _ holds => holds.1
          exact ((performs _ rfl).bind fun _ => performs _ rfl).mono
            (fun _ holds => holds.1) fun _ holds => holds
  · exact ⟨trivial, Ends.mono (kept (.begin c taken line) rfl state holds trivial) (fun _ _ => Or.inl)
      fun _ _ after => after⟩
  · have left : ∀ messages state, fact state ∧ (state.1.conns c).directMessage = messages → True ∧
        (recording Action.apply (.leaveList c) state).Ends
          (fun _ now => fact now ∧ (now.1.conns c).directMessage = messages) fun _ => fact := by
      intro messages state holds
      have same : (recording Action.apply (.leaveList c) state).Ends
          (fun _ now => (now.1.conns c).directMessage = messages)
          fun _ now => (now.1.conns c).directMessage = messages := by
        have pending : ((state.1.subscriptions.leave c).subscriber c).pending = messages :=
          (Subscriptions.leave_field _ fun _ => rfl).trans holds.2
        exact recording_ends (Ends.mono (Server.leaveList_subscriptions state.1 c)
          (fun _ t after => (congrArg (fun v => (v.subscriber c).pending) after).trans pending)
          fun _ t after => (congrArg (fun v => (v.subscriber c).pending) after).trans pending)
      have ends := kept (.leaveList c) rfl state holds.1 trivial
      exact ⟨trivial, Ends.mono (Ends.both ends same) (fun _ _ both => both) fun _ _ both => both.1⟩
    have disconnected : Routine.Keeps (fun _ _ => True) fact (Routine.onDisconnect c) :=
      still.onDisconnect_tries
        (fun messages => leads_perform (left messages))
        (fun _ holds _ => holds) (performs _ rfl) (fun _ holds _ => holds) fun _ holds => holds
    exact (performs _ rfl).bind fun _ => disconnected.bind fun _ =>
      performs _ rfl

/-- `on_send` as the loop calls it. -/
def Writable (x : ConnId) (s : Server) : Prop := Input.open? s x ∧ (s.conns x).writing = true

variable (kept : KeptElsewhere fact)
  (sends : ∀ x sent state, fact state → Writable x state.1 →
    (recording Action.apply (.flush x sent) state).Ends (fun _ => fact) fun _ => fact)

include kept sends

/-- Each input, from a state between operations. -/
theorem input_kept {s : Server} {past : List (Action × Server)} {input : Input} (enabled : input.Enabled s)
    (holds : fact (s, past)) :
    (input.routine s).recorded.wp (recording Action.apply) (fun _ _ => True) (fun _ => fact)
      (fun _ => fact) (s, past) := by
  have sustains := fun env x => sustains_kept env x kept
  have still := (sustains atRest 0).still
  cases input with
  | accept loop garbage =>
      rw [Input.routine, recorded_perform]
      exact ⟨trivial, kept (.accept loop garbage) rfl _ holds trivial⟩
  | recv x chunk env => exact (sustains env x).recv_leads _ chunk _ holds
  | hangup x => exact (sustains atRest x).hangup_leads _ _ holds
  | checkTimeout now => exact still.pass_keeps (still.checkTimeout_keeps now) _ holds
  | cleanDeadTasks => exact still.cleanDeadTasks_keeps _ holds
  | deleteConnections loop => exact still.pass_keeps (Routine.quiet_keeps still rfl) _ holds
  | send x sent =>
      have counted : Tries Action.apply (fun _ _ => True) (fun state => fact state ∧ Writable x state.1)
          (fun state => fact state ∧ Writable x state.1) fact
          (perform (.count fun stats => { stats with ioevent := stats.ioevent + 1 }) : Routine Unit) :=
        leads_perform fun state before => ⟨trivial,
          kept (.count fun stats => { stats with ioevent := stats.ioevent + 1 }) rfl state before.1 trivial,
          before.2⟩
      have written : Leads Action.apply (fun _ _ => True) (fun state => fact state ∧ Writable x state.1) fact
          (perform (.flush x sent) : Routine Unit) :=
        leads_perform fun state before => ⟨trivial, sends x sent state before.1 before.2⟩
      have guarded : Leads Action.apply (fun _ _ => True) (fun state => fact state ∧ Writable x state.1) fact
          (Routine.guarded (perform (.flush x sent)) x) := by
        refine Leads.bind (Tries.catching written fun error => ?_) (fun _ => leads_look fun s => ?_)
          fun _ holds => holds
        · exact (Routine.quiet_keeps still rfl).bind fun _ => (sustains atRest x).shut.stays
        · split
          · exact (sustains atRest x).close
          · exact stays_pure _
      exact Tries.catching (Tries.bind counted fun _ => guarded) (fun error => Routine.quiet_keeps still rfl) _
        ⟨holds, enabled.1, enabled.2.1⟩

/-- What is kept by everything but `on_send`, and by `on_send` as it is called. -/
theorem Trail.keeps (start : ∀ threads jsonrpc2 version startTime,
      fact (Server.new threads jsonrpc2 version startTime, []))
    {moments : List (Action × Server)} {s : Server} (trail : Trail moments s) : fact (s, moments) := by
  induction trail with
  | new threads jsonrpc2 version startTime => exact start threads jsonrpc2 version startTime
  | @step moments s after input _ enabled returned ih =>
      have ends := outcome_recorded (input_kept kept sends enabled ih)
      rw [show (input.routine s).run Action.apply s = input.run s from rfl, returned] at ends
      exact ends

end Runs

end Ijson
