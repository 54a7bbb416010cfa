/-
The steps of publishing.

Each action that touches the subscriptions is one of a few operations on them.
-/

import Mathlib.Logic.Function.Basic
import Ijson.Subscriptions

namespace Ijson

namespace Subscriptions

def modify (v : Subscriptions) (c : ConnId) (change : Subscriber → Subscriber) : Subscriptions :=
  { v with subscriber := Function.update v.subscriber c (change (v.subscriber c)) }

def setList (v : Subscriptions) (i : Nat) (list : List ConnId) : Subscriptions :=
  { v with lists := Function.update v.lists i list }

/-- A new connection. -/
def enter (v : Subscriptions) : Subscriptions :=
  { v with
    accepted := v.accepted + 1
    subscriber := Function.update v.subscriber v.accepted
      { pending := []
        item := none
        name := []
        mode := false
        connected := true
        closed := false } }

def shut (v : Subscriptions) (c : ConnId) : Subscriptions :=
  v.modify c fun subscriber => { subscriber with closed := true }

def retire (v : Subscriptions) (c : ConnId) : Subscriptions :=
  v.modify c fun subscriber => { subscriber with connected := false }

def setMode (v : Subscriptions) (c : ConnId) (on : Bool) : Subscriptions :=
  v.modify c fun subscriber => { subscriber with mode := on }

/-- `c` is put in front of the list of queue `i`. -/
def join (v : Subscriptions) (c : ConnId) (i : Nat) (name : Bytes) : Subscriptions :=
  (v.setList i (c :: v.lists i)).modify c fun subscriber => { subscriber with item := some i, name := name }

def leave (v : Subscriptions) (c : ConnId) : Subscriptions :=
  match (v.subscriber c).item with
  | none => v
  | some i =>
      (v.setList i ((v.lists i).erase c)).modify c
        fun subscriber => { subscriber with item := none }

/-- Queue `i` is deleted; its list is the one to be emptied. -/
def remove (v : Subscriptions) (i : Nat) : Subscriptions :=
  { v.setList i [] with dying := v.lists i }

/-- The next subscriber of the deleted queue is let go. -/
def pop (v : Subscriptions) : Subscriptions :=
  match v.dying with
  | [] => v
  | c :: rest => { v with dying := rest }.modify c fun subscriber => { subscriber with item := none }

/-- A new message, held by the code that publishes it. -/
def publish (v : Subscriptions) (data source : Bytes) : Subscriptions :=
  { v with
    direct := Function.update v.direct v.directs
      { data := data, counter := 1, freed := false, source := source }
    directs := v.directs + 1 }

/-- The message is appended to what waits for `w`. -/
def push (v : Subscriptions) (w : ConnId) (d : Nat) : Subscriptions :=
  { v with
    direct := Function.update v.direct d
      { v.direct d with counter := ((v.direct d).counter + 1) % 2 ^ 32 } }.modify w
    fun subscriber => { subscriber with pending := subscriber.pending ++ [d] }

/-- One owner less; the last one deletes the message. -/
def release (v : Subscriptions) (d : Nat) : Subscriptions :=
  let counter := ((v.direct d).counter + 2 ^ 32 - 1) % 2 ^ 32
  { v with
    direct := Function.update v.direct d
      { v.direct d with counter := counter, freed := counter = 0 } }

/-- The first message that waits for `c` is taken from the queue. -/
def take (v : Subscriptions) (c : ConnId) : Subscriptions :=
  match (v.subscriber c).pending with
  | [] => v
  | d :: rest =>
      (v.modify c fun subscriber => { subscriber with pending := rest }).release d

/-- Everything that waits for `c` is dropped. -/
def drop (v : Subscriptions) (c : ConnId) : Subscriptions :=
  (v.subscriber c).pending.foldl release
    (v.modify c fun subscriber => { subscriber with pending := [] })

end Subscriptions

namespace Server

variable {s t : Server}

theorem modify_subscriber (c : ConnId) (change : Conn → Conn) (seen : Subscriber → Subscriber)
    (same : (change (s.conns c)).subscriber = seen (s.conns c).subscriber) :
    (s.modify c change).subscriptions = s.subscriptions.modify c seen := by
  have subscribers : (fun d => ((s.modify c change).conns d).subscriber) =
      Function.update (fun d => (s.conns d).subscriber) c (seen (s.conns c).subscriber) := by
    funext d
    rw [modify_conns, Function.update_apply]
    by_cases equal : d = c
    · rw [if_pos equal, if_pos equal, same]
    · rw [if_neg equal, if_neg equal]
  exact congrArg (fun subscriber => { s.subscriptions with subscriber := subscriber }) subscribers

/-- A line in the place of another one changes the list. -/
theorem setLine_setList {i : Nat} {line : QueueLine} (live : s.line i = some line)
    (other : QueueLine) : (s.setLine i other).subscriptions = s.subscriptions.setList i other.workers :=
  congrArg (fun lists => { s.subscriptions with lists := lists }) (setLine_list live other)

theorem lists_of_live {i : Nat} {line : QueueLine} (live : s.line i = some line) :
    s.subscriptions.lists i = line.workers := list_of_live live

theorem accept_subscriptions (s : Server) (loop : Nat) (garbage : Garbage) :
    Subscribes s.subscriptions.enter ((Action.accept loop garbage).apply s) := by
  have subscribers : (fun d => (Function.update s.conns s.accepted (Conn.new loop garbage) d).subscriber) =
      Function.update (fun d => (s.conns d).subscriber) s.accepted (Conn.new loop garbage).subscriber := by
    funext d
    rw [Function.update_apply, Function.update_apply]
    split <;> rfl
  exact congrArg
    (fun subscriber => { s.subscriptions with accepted := s.accepted + 1, subscriber := subscriber })
    subscribers

theorem shut_subscriptions (s : Server) (c : ConnId) :
    Subscribes (s.subscriptions.shut c) ((Action.shut c).apply s) := by
  rw [Action.apply, subscribes_returned, enter_subscriptions]
  exact modify_subscriber c _ _ rfl

theorem retire_subscriptions (s : Server) (c : ConnId) :
    ((Action.retire c).apply s).Ends (fun _ t => t.subscriptions = s.subscriptions.retire c)
      fun _ t => t.subscriptions = s.subscriptions := by
  rw [Action.apply, Ends_andThen]
  refine Program.Ends.mono (unlink_subscribes rfl c) (fun _ t same => ?_) fun _ _ same => same
  rw [Ends_returned, enter_subscriptions, ← same]
  exact modify_subscriber c _ _ rfl

theorem workerMode_subscriptions (s : Server) (c : ConnId) (on : Bool) :
    Subscribes (s.subscriptions.setMode c on) ((Action.workerMode c on).apply s) :=
  modify_subscriber c _ (fun subscriber => { subscriber with mode := on }) rfl

theorem begin_subscriptions (s : Server) (c : ConnId) (taken line : Bytes) :
    (s.begin c taken line).Ends
      (fun _ t => t.subscriptions = s.subscriptions ∨ t.subscriptions = s.subscriptions.shut c)
      fun _ t => t.subscriptions = s.subscriptions := by
  have cleared : ((s.note (.taken c taken)).modify c fun conn =>
      { conn with http := conn.http.clearRequest conn.workerMode }).subscriptions = s.subscriptions :=
    modify_subscriptions rfl
  unfold begin
  simp only
  rw [Ends_andThen]
  refine Program.Ends.mono
    (show Subscribes s.subscriptions _ from ?_) (fun _ t same => ?_) fun _ _ same => same
  · split
    · split <;> exact cleared
    · split
      · split <;> exact cleared
      · refine Subscribes.andThen ?_ fun u later => (modify_subscriptions rfl).trans later
        split
        · rw [subscribes_returned, modify_subscriptions rfl, cleared]
        · exact unlink_subscribes (by rw [modify_subscriptions rfl, cleared]) _
  · rw [Ends_returned]
    cases emptyEq : (Http.readMethod line).1.isEmpty with
    | true =>
        right
        rw [← same]
        exact modify_subscriber c _ _ (by simp [Conn.subscriber])
    | false =>
        left
        rw [← same]
        exact modify_subscriptions (by simp [Conn.subscriber])

theorem leaveList_subscriptions (s : Server) (c : ConnId) :
    Subscribes (s.subscriptions.leave c) (s.leaveList c) := by
  unfold leaveList
  cases itemEq : (s.conns c).workerItem with
  | none => trivial
  | some i =>
      simp only
      cases live : s.line i with
      | none => trivial
      | some line =>
          have item : (s.subscriptions.subscriber c).item = some i := itemEq
          rw [Subscriptions.leave, item]
          simp only
          rw [lists_of_live live, Subscribes, Ends_andThen]
          apply Ends_noexcept
          refine Program.Ends.mono (unlink_subscribes (setLine_setList live _) c)
            (fun _ t same => ?_) fun _ _ _ => trivial
          rw [Ends_returned, ← same]
          exact modify_subscriber c _ _ rfl

theorem subscribe_subscriptions (s : Server) (c : ConnId) (i : Nat) (name : Bytes) :
    Subscribes (s.subscriptions.join c i
      (if !(s.conns c).workerMode && (s.conns c).noid then name else (s.conns c).workerSubName))
      (s.subscribe c i name) := by
  unfold subscribe
  cases live : s.line i with
  | none => trivial
  | some line =>
      have linked := (link_subscriptions c).trans
        (setLine_setList live { line with workers := c :: line.workers })
      rw [subscribes_returned, Subscriptions.join, lists_of_live live, ← linked]
      refine modify_subscriber c _ _ ?_
      rw [link_conns]
      rfl

theorem newDirect_subscriptions (s : Server) (i : Nat) (data source : Bytes) :
    Subscribes (s.subscriptions.publish data source) ((Action.newDirect i data source).apply s) := rfl

theorem publish_subscriptions (s : Server) (w : ConnId) (d : Nat) (claim : Bool) :
    (s.publish w d claim).subscriptions = s.subscriptions.push w d := by
  refine (modify_subscriber w _ _ ?_).trans rfl
  cases claim <;> rfl

theorem unlinkDirect_subscriptions {v : Subscriptions} (same : t.subscriptions = v) (d : Nat) :
    Subscribes (v.release d) (t.unlinkDirect d) := by
  subst same
  unfold unlinkDirect
  simp only
  split
  · trivial
  · rfl

theorem unlinkDirects_subscriptions {v : Subscriptions} (same : t.subscriptions = v)
    (messages : List Nat) :
    Subscribes (messages.foldl Subscriptions.release v) (t.unlinkDirects messages) := by
  induction messages generalizing t v with
  | nil => exact same
  | cons d rest ih =>
      rw [unlinkDirects, Subscribes, Ends_andThen]
      have released := unlinkDirect_subscriptions same d
      unfold unlinkDirect at released ⊢
      simp only at released ⊢
      split
      · trivial
      · rename_i live
        rw [if_neg live] at released
        exact ih released

theorem dropDirects_subscriptions (s : Server) (c : ConnId) :
    Subscribes (s.subscriptions.drop c) (s.dropDirects c) :=
  unlinkDirects_subscriptions (modify_subscriber c _ _ rfl) _

theorem popDirect_subscriptions (s : Server) (c : ConnId) (sent : Option Nat) :
    Subscribes (s.subscriptions.take c) (s.popDirect c sent) := by
  unfold popDirect
  cases pendingEq : (s.conns c).directMessage with
  | nil =>
      have pending : (s.subscriptions.subscriber c).pending = [] := pendingEq
      rw [Subscriptions.take, pending]
      rfl
  | cons d rest =>
      have pending : (s.subscriptions.subscriber c).pending = d :: rest := pendingEq
      rw [Subscriptions.take, pending]
      simp only
      have taken : ((s.modify c fun conn => { conn with directMessage := rest }).note
          (.task c (s.direct d).source)).subscriptions =
          s.subscriptions.modify c fun subscriber => { subscriber with pending := rest } := by
        rw [note_subscriptions]
        exact modify_subscriber c _ _ rfl
      refine Subscribes.andThen (unlinkDirect_subscriptions taken d) fun t same => ?_
      cases sent with
      | none => exact same
      | some sent => exact ((note_subscriptions _).trans (modify_subscriptions rfl)).trans same

/-- The subscriptions after a write to `c`, unless it closes `c`. -/
def flushed (s : Server) (c : ConnId) : Subscriptions :=
  if (s.conns c).sendBuffer.isEmpty then s.subscriptions.take c else s.subscriptions

theorem flush_subscriptions (s : Server) (c : ConnId) (sent : Option Nat) :
    (s.flush c sent).Ends
      (fun _ t => t.subscriptions = s.flushed c ∨ t.subscriptions = (s.flushed c).shut c)
      fun _ t => t.subscriptions = s.flushed c := by
  unfold flush flushed
  simp only
  rw [Ends_andThen]
  refine Program.Ends.mono
    (show Subscribes (if (s.conns c).sendBuffer.isEmpty then s.subscriptions.take c
      else s.subscriptions) _ from ?_) (fun _ t same => ?_) fun _ _ same => same
  · by_cases empty : (s.conns c).sendBuffer.isEmpty = true
    · rw [if_pos empty, if_pos empty]
      exact popDirect_subscriptions s c sent
    · rw [if_neg empty, if_neg empty]
      cases sent with
      | none => rfl
      | some sent => exact modify_subscriptions rfl
  · rw [Ends_returned, ← same]
    by_cases rest : (t.conns c).sendBuffer.isEmpty = true ∧ (t.conns c).keepAlive = false
    · right
      refine modify_subscriber c _ _ ?_
      rw [if_pos rest.1, rest.2]
      rfl
    · left
      refine modify_subscriptions ?_
      by_cases empty : (t.conns c).sendBuffer.isEmpty = true
      · have alive : (t.conns c).keepAlive = true := by
          cases aliveEq : (t.conns c).keepAlive with
          | true => rfl
          | false => exact absurd ⟨empty, aliveEq⟩ rest
        rw [if_pos empty, if_pos alive]
        rfl
      · rw [if_neg empty]

theorem popItem_subscriptions (s : Server) : Subscribes s.subscriptions.pop s.popItem := by
  unfold popItem
  cases dyingEq : s.dying with
  | none => trivial
  | some line =>
      cases workersEq : line.workers with
      | nil => simp only [workersEq]; trivial
      | cons c rest =>
          have dying : s.subscriptions.dying = c :: rest := by
            unfold subscriptions
            rw [dyingEq]
            exact workersEq
          simp only [workersEq]
          rw [Subscriptions.pop, dying]
          simp only
          rw [Subscribes, Ends_andThen]
          apply Ends_noexcept
          refine Program.Ends.mono (unlink_subscribes rfl c) (fun _ t same => ?_) fun _ _ _ => trivial
          rw [Ends_returned]
          have same : t.subscriptions = { s.subscriptions with dying := rest } := same
          rw [← same]
          exact modify_subscriber c _ _ rfl

theorem bury_subscriptions (s : Server) :
    Subscribes { s.subscriptions with dying := [] } (Action.bury.apply s) := rfl

/-- A queue is taken out of the registry, or there is none of that name. -/
theorem unhook_subscriptions (s : Server) (key : Bytes) :
    (s.unhook key).Ends
      (fun _ t => (∃ i, t.subscriptions = s.subscriptions.remove i ∧ t.line i = none) ∨
        t.subscriptions = { s.subscriptions with dying := [] })
      fun _ _ => False := by
  unfold unhook Registry.removeQueue
  cases delEq : s.registry.mapper.del key with
  | none => trivial
  | some removed =>
      obtain ⟨mapper, n⟩ := removed
      by_cases zero : n = 0
      · simp only [zero, if_true]
        exact Or.inr rfl
      · simp only [zero, if_false]
        cases slotEq : s.registry.queueList[n - 1]? with
        | none => trivial
        | some slot =>
            cases slot with
            | none => trivial
            | some line =>
                simp only
                split
                · trivial
                · left
                  have inside := (List.getElem?_eq_some_iff.mp slotEq).1
                  refine ⟨n - 1, ?_, by simp [Server.line, note, inside]⟩
                  have live : s.line (n - 1) = some line := by
                    rw [Server.line, slotEq]
                    rfl
                  have lists : workersAt (s.registry.queueList.set (n - 1) none) =
                      Function.update s.list (n - 1) [] := by
                    funext j
                    by_cases equal : j = n - 1
                    · subst equal
                      simp [workersAt, inside]
                    · simp [workersAt, list, Function.update_of_ne equal,
                        List.getElem?_set_ne (Ne.symm equal)]
                  exact congrArg₂ (fun lists dying =>
                    { s.subscriptions with lists := lists, dying := dying }) lists
                    (list_of_live live).symm

end Server

end Ijson
