/-
A subscriber that asks again while messages wait for it.

It is sent no response: its socket is set to write, and stays so until the next
write, which takes the first message once the bytes of earlier answers are gone.
-/

import Ijson.Publications
import Ijson.QueueNames
import Ijson.Wire

namespace Ijson

open Program

/-! ### The request -/

namespace Routine

variable {env : Env} {w : ConnId} {messages : List Nat}

/-- The routine comes to wake `w`, for which these messages wait. -/
def Wakes (w : ConnId) (messages : List Nat) (routine : Routine Int) (s : Server) : Prop :=
  ∃ t, Reaches Action.apply routine s (perform (.wake w) >>= fun _ => (pure 1 : Routine Int)) t ∧
    (t.conns w).directMessage = messages

theorem Wakes.look {rest : Server → Routine Int} {s : Server} (wakes : Wakes w messages (rest s) s) :
    Wakes w messages (Program.get >>= rest) s := by
  obtain ⟨t, reaches, waits⟩ := wakes
  exact ⟨t, reaches.look, waits⟩

theorem Wakes.perform {action : Action} {rest : Unit → Routine Int} {s t : Server}
    (applied : action.apply s = .returned t ()) (wakes : Wakes w messages (rest ()) t) :
    Wakes w messages (Program.perform action >>= rest) s := by
  obtain ⟨u, reaches, waits⟩ := wakes
  exact ⟨u, reaches.perform applied, waits⟩

end Routine

/-! ### Until the next write -/

section

variable {w : ConnId}

theorem accepted_grows (action : Action) (s : Server) :
    (action.apply s).Ends (fun _ t => s.accepted ≤ t.accepted) fun _ t => s.accepted ≤ t.accepted := by
  by_cases new : ∃ loop garbage, action = .accept loop garbage
  · obtain ⟨loop, garbage, rfl⟩ := new
    exact Nat.le_succ _
  · have grounds := Grounded.apply_grounds s fun loop garbage same => new ⟨loop, garbage, same⟩
    exact Ends.mono grounds (fun _ _ grounded => Nat.le_of_eq grounded.accepted.symm)
      fun _ _ grounded => Nat.le_of_eq grounded.accepted.symm

/-- Only its own write turns off the writing of a connection. -/
theorem writing_stays {action : Action} {s : Server} (other : ∀ sent, action ≠ .flush w sent)
    (known : w < s.accepted) (writes : (s.conns w).writing = true) :
    (action.apply s).Ends (fun _ t => (t.conns w).writing = true) fun _ t => (t.conns w).writing = true := by
  have hushes : Hushes w s (action.apply s) →
      (action.apply s).Ends (fun _ t => (t.conns w).writing = true) fun _ t => (t.conns w).writing = true :=
    fun hushes => Ends.mono hushes (fun _ _ hushed => hushed.writing.trans writes)
      fun _ _ hushed => hushed.writing.trans writes
  cases socket : action.socket with
  | false =>
      exact Ends.mono (Speaks.apply_speaks s socket) (fun _ _ speaks => speaks.writing w writes)
        fun _ _ speaks => speaks.writing w writes
  | true =>
      cases action with
      | accept loop garbage =>
          have same : Function.update s.conns s.accepted (Conn.new loop garbage) w = s.conns w :=
            Function.update_of_ne (Nat.ne_of_lt known) _ _
          exact (congrArg Conn.writing same).trans writes
      | begin x taken line => exact hushes (begin_hushes s x taken line)
      | shut x => exact hushes (shut_hushed s x)
      | retire x => exact hushes (retire_hushes s x)
      | flush x sent =>
          have another : x ≠ w := fun same => other sent (same ▸ rfl)
          exact hushes (flush_hushes another s sent)
      | _ => cases socket

/-- Messages that wait for `w` go on waiting: a write takes the first of them, and only
when it disconnects they are dropped. -/
theorem waits_stay {action : Action} {s : Server} (flushes : ∀ sent, action ≠ .flush w sent)
    (drops : action ≠ .dropDirects w) (known : w < s.accepted) (waits : (s.conns w).directMessage ≠ []) :
    (action.apply s).Ends (fun _ t => (t.conns w).directMessage ≠ [])
      fun _ t => (t.conns w).directMessage ≠ [] := by
  have same : ∀ {v : Subscriptions} {t : Server},
      (v.subscriber w).pending = (s.subscriptions.subscriber w).pending → t.subscriptions = v →
      (t.conns w).directMessage ≠ [] := by
    intro v t pending becomes gone
    have empty : (t.subscriptions.subscriber w).pending = [] := gone
    rw [becomes, pending] at empty
    exact waits empty
  have becomes : ∀ {v : Subscriptions}, (v.subscriber w).pending = (s.subscriptions.subscriber w).pending →
      Server.Subscribes v (action.apply s) →
      (action.apply s).Ends (fun _ t => (t.conns w).directMessage ≠ [])
        fun _ t => (t.conns w).directMessage ≠ [] :=
    fun pending subscribes => Ends.mono subscribes (fun _ _ => same pending) fun _ _ => same pending
  have shut : ∀ c, ((s.subscriptions.shut c).subscriber w).pending = (s.subscriptions.subscriber w).pending :=
    fun c => Subscriptions.modify_field Subscriber.pending rfl w
  have pushed : ∀ c d claim, ((s.publish c d claim).conns w).directMessage ≠ [] := by
    intro c d claim
    have pending : ((s.publish c d claim).subscriptions.subscriber w).pending ≠ [] := by
      rw [Server.publish_subscriptions]
      exact Subscriptions.push_pending waits d
    exact pending
  by_cases quiet : action.quiet = true
  · exact becomes rfl (Server.apply_subscribes quiet s)
  cases action with
  | accept loop garbage =>
      refine becomes ?_ (Server.accept_subscriptions s loop garbage)
      exact congrArg Subscriber.pending (Function.update_of_ne (Nat.ne_of_lt known) _ _)
  | begin c taken line =>
      refine Ends.mono (Server.begin_subscriptions s c taken line) (fun _ t ended => ?_) fun _ _ => same rfl
      exact ended.elim (same rfl) (same (shut c))
  | shut c => exact becomes (shut c) (Server.shut_subscriptions s c)
  | retire c =>
      refine Ends.mono (Server.retire_subscriptions s c) (fun _ _ => same ?_) fun _ _ => same rfl
      exact Subscriptions.modify_field Subscriber.pending rfl w
  | flush c sent =>
      have other : w ≠ c := fun equal => flushes sent (equal ▸ rfl)
      have pending : ((s.flushed c).subscriber w).pending = (s.subscriptions.subscriber w).pending := by
        unfold Server.flushed
        split
        · exact congrArg Subscriber.pending (Subscriptions.take_other other)
        · rfl
      refine Ends.mono (Server.flush_subscriptions s c sent) (fun _ t ended => ?_) fun _ _ => same pending
      refine ended.elim (same pending) (same ?_)
      exact (Subscriptions.modify_field Subscriber.pending rfl w).trans pending
  | workerMode c on =>
      exact becomes (Subscriptions.modify_field Subscriber.pending rfl w) (Server.workerMode_subscriptions s c on)
  | leaveList c => exact becomes (Subscriptions.leave_field _ fun _ => rfl) (Server.leaveList_subscriptions s c)
  | dropDirects c =>
      have other : w ≠ c := fun equal => drops (equal ▸ rfl)
      refine becomes ?_ (Server.dropDirects_subscriptions s c)
      rw [Subscriptions.drop, (Subscriptions.releaseAll_subscriber _).1, Subscriptions.modify_other other]
  | subscribe c i name =>
      refine becomes ?_ (Server.subscribe_subscriptions s c i name)
      exact Subscriptions.modify_field (v := s.subscriptions.setList i _) Subscriber.pending rfl w
  | newDirect i data source =>
      exact becomes (v := s.subscriptions.publish data source) rfl (Server.newDirect_subscriptions s i data source)
  | publishClaim i c d => exact pushed c d true
  | publishPush i c d => exact pushed c d false
  | releaseDirect d =>
      exact becomes (v := s.subscriptions.release d) rfl (Server.unlinkDirect_subscriptions rfl d)
  | unhook key =>
      refine Ends.mono (Server.unhook_subscriptions s key) (fun _ t ended => ?_) fun _ _ => False.elim
      rcases ended with ⟨i, ended, _⟩ | ended
      · exact same (v := s.subscriptions.remove i) rfl ended
      · exact same (v := { s.subscriptions with dying := [] }) rfl ended
  | popItem =>
      refine becomes ?_ (Server.popItem_subscriptions s)
      unfold Subscriptions.pop
      split
      · rfl
      · exact Subscriptions.modify_field Subscriber.pending rfl w
  | bury => exact becomes (v := { s.subscriptions with dying := [] }) rfl (Server.bury_subscriptions s)
  | _ => exact absurd rfl quiet

/-- No write to `w` is among the moments. -/
def Unwritten (w : ConnId) (moments : List (Action × Server)) : Prop :=
  ∀ moment ∈ moments, ∀ sent, moment.1 ≠ .flush w sent

/-- From when it was set to write for the messages that wait for it, the socket of `w`
stays so, and they wait, until the next write to it. -/
def StaysAwake (w : ConnId) (state : Traced) : Prop :=
  ∀ front m back, state.2 = front ++ (.wake w, m) :: back →
    m.accepted ≤ state.1.accepted ∧ (w < m.accepted →
      Unwritten w back → (state.1.conns w).writing = true ∧ ((m.conns w).directMessage ≠ [] →
        (∀ later ∈ back, later.1 ≠ .dropDirects w) → (state.1.conns w).directMessage ≠ []))

/-- What one action does to the writing of `w` and to what waits for it. -/
structure Wakeful (w : ConnId) (action : Action) (s t : Server) : Prop where
  accepted : s.accepted ≤ t.accepted
  woken : action = .wake w → (t.conns w).writing = true
  stays : (∀ sent, action ≠ .flush w sent) → w < s.accepted → (s.conns w).writing = true →
    (t.conns w).writing = true
  waits : (∀ sent, action ≠ .flush w sent) → action ≠ .dropDirects w → w < s.accepted →
    (s.conns w).directMessage ≠ [] → (t.conns w).directMessage ≠ []
theorem apply_wakeful (action : Action) (s : Server) :
    (action.apply s).Ends (fun _ t => Wakeful w action s t) fun _ t => Wakeful w action s t := by
  have woken : (action.apply s).Ends (fun _ t => action = .wake w → (t.conns w).writing = true)
      fun _ t => action = .wake w → (t.conns w).writing = true := by
    by_cases wakes : action = .wake w
    · subst wakes
      exact fun _ => congrArg Conn.writing (Server.modify_self s w fun conn => { conn with writing := true })
    · exact Ends.mono (accepted_grows action s) (fun _ _ _ same => absurd same wakes)
        fun _ _ _ same => absurd same wakes
  have stays : (action.apply s).Ends (fun _ t => (∀ sent, action ≠ .flush w sent) → w < s.accepted →
      (s.conns w).writing = true → (t.conns w).writing = true)
      fun _ t => (∀ sent, action ≠ .flush w sent) → w < s.accepted → (s.conns w).writing = true →
        (t.conns w).writing = true := by
    by_cases writes : (∀ sent, action ≠ .flush w sent) ∧ w < s.accepted ∧ (s.conns w).writing = true
    · exact Ends.mono (writing_stays writes.1 writes.2.1 writes.2.2) (fun _ _ on _ _ _ => on)
        fun _ _ on _ _ _ => on
    · exact Ends.mono (accepted_grows action s)
        (fun _ _ _ other known on => absurd ⟨other, known, on⟩ writes)
        fun _ _ _ other known on => absurd ⟨other, known, on⟩ writes
  have waits : (action.apply s).Ends (fun _ t => (∀ sent, action ≠ .flush w sent) →
      action ≠ .dropDirects w → w < s.accepted → (s.conns w).directMessage ≠ [] →
        (t.conns w).directMessage ≠ [])
      fun _ t => (∀ sent, action ≠ .flush w sent) → action ≠ .dropDirects w → w < s.accepted →
        (s.conns w).directMessage ≠ [] → (t.conns w).directMessage ≠ [] := by
    by_cases waiting : (∀ sent, action ≠ .flush w sent) ∧ action ≠ .dropDirects w ∧ w < s.accepted ∧
        (s.conns w).directMessage ≠ []
    · obtain ⟨flushes, drops, known, waiting⟩ := waiting
      exact Ends.mono (waits_stay flushes drops known waiting) (fun _ _ stay _ _ _ _ => stay)
        fun _ _ stay _ _ _ _ => stay
    · exact Ends.mono (accepted_grows action s)
        (fun _ _ _ flushes drops known waits => absurd ⟨flushes, drops, known, waits⟩ waiting)
        fun _ _ _ flushes drops known waits => absurd ⟨flushes, drops, known, waits⟩ waiting
  refine Ends.mono (Ends.both (Ends.both (accepted_grows action s) woken) (Ends.both stays waits)) ?_ ?_
  · exact fun _ _ whole => ⟨whole.1.1, whole.1.2, whole.2.1, whole.2.2⟩
  · exact fun _ _ whole => ⟨whole.1.1, whole.1.2, whole.2.1, whole.2.2⟩

theorem StaysAwake.step (action : Action) {state : Traced} (awake : StaysAwake w state) :
    (recording Action.apply action state).Ends (fun _ => StaysAwake w) fun _ => StaysAwake w := by
  obtain ⟨s, past⟩ := state
  have after : ∀ t : Server, Wakeful w action s t → StaysAwake w (t, past ++ [(action, s)]) := by
    intro t wakeful front m back split
    rcases split_last split with ⟨rfl, same⟩ | ⟨earlier, rfl, pastEq⟩
    · rw [Prod.mk.injEq] at same
      obtain ⟨rfl, rfl⟩ := same
      refine ⟨wakeful.accepted, fun known _ => ⟨wakeful.woken rfl, fun waiting _ => ?_⟩⟩
      exact wakeful.waits (fun _ same => by cases same) (fun same => by cases same) known waiting
    · obtain ⟨grown, stays⟩ := awake front m earlier pastEq
      refine ⟨Nat.le_trans grown wakeful.accepted, fun known unwritten => ?_⟩
      have others : Unwritten w earlier :=
        fun later member => unwritten later (List.mem_append_left _ member)
      obtain ⟨writes, waits⟩ := stays known others
      have quiet := unwritten (action, s) (List.mem_append_right earlier List.mem_cons_self)
      have there := Nat.lt_of_lt_of_le known grown
      refine ⟨wakeful.stays quiet there writes, fun waiting undropped => ?_⟩
      refine wakeful.waits quiet (undropped (action, s) ?_) there (waits waiting fun later member => ?_)
      · exact List.mem_append_right earlier List.mem_cons_self
      · exact undropped later (List.mem_append_left _ member)
  exact recording_ends (Ends.mono (apply_wakeful action s) (fun _ => after) fun _ => after)

end

end Ijson
