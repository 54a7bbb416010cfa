/-
Who is subscribed to which queue, and which published messages wait.

`Subscriptions` is the part of the server that publishing works on.  Most
actions do not touch it.
-/

import Ijson.RegistryInvariant
import Ijson.Effects

namespace Ijson

/-- What publishing reads and writes of a connection. -/
structure Subscriber where
  pending : List Nat
  item : Option Nat
  name : Bytes
  mode : Bool
  connected : Bool
  closed : Bool

def Conn.subscriber (conn : Conn) : Subscriber :=
  { pending := conn.directMessage
    item := conn.workerItem
    name := conn.workerSubName
    mode := conn.workerMode
    connected := conn.connected
    closed := conn.closed }

/-- `lists` are the lists of the live queues and `dying` the one of the queue
that is being deleted. -/
structure Subscriptions where
  accepted : Nat
  subscriber : ConnId → Subscriber
  lists : Nat → List ConnId
  dying : List ConnId
  direct : Nat → DirectMessage
  directs : Nat

/-- The subscribers of a slot; a free one has none. -/
def workersAt (slots : List (Option QueueLine)) (i : Nat) : List ConnId :=
  (slots[i]?.join.map QueueLine.workers).getD []

def Server.list (s : Server) (i : Nat) : List ConnId := workersAt s.registry.queueList i

def Server.subscriptions (s : Server) : Subscriptions :=
  { accepted := s.accepted
    subscriber := fun c => (s.conns c).subscriber
    lists := s.list
    dying := (s.dying.map QueueLine.workers).getD []
    direct := s.direct
    directs := s.directs }

/-- Looking up a queue, or creating it, leaves the subscribers as they are: a new
queue has none. -/
theorem Registry.getQueue_workersAt {registry : Registry} (threads : Nat) (key : Bytes) (create : Bool) :
    (registry.getQueue threads key create).Ends
      (fun _ after => workersAt after.queueList = workersAt registry.queueList)
      fun _ after => workersAt after.queueList = workersAt registry.queueList := by
  have same : ∀ after : Registry, Registry.Placed (QueueLine.new threads key) registry.queueList
      after.queueList → workersAt after.queueList = workersAt registry.queueList := by
    intro after placed
    funext j
    unfold workersAt
    rcases placed j with kept | ⟨free, fresh⟩
    · rw [kept]
    · rw [free, fresh]
      rfl
  exact Program.Ends.mono (registry.getQueue_placed threads key create) (fun _ => same) fun _ => same

/-- The actions that leave the subscriptions alone. -/
def Action.quiet : Action → Bool
  | .accept _ _ => false
  | .begin _ _ _ => false
  | .shut _ => false
  | .retire _ => false
  | .flush _ _ => false
  | .workerMode _ _ => false
  | .leaveList _ => false
  | .dropDirects _ => false
  | .subscribe _ _ _ => false
  | .newDirect _ _ _ => false
  | .publishClaim _ _ _ => false
  | .publishPush _ _ _ => false
  | .releaseDirect _ => false
  | .unhook _ => false
  | .popItem => false
  | .bury => false
  | _ => true

namespace Server

/-- The subscriptions end as `v`, thrown or not. -/
abbrev Subscribes (v : Subscriptions) (result : Result) : Prop :=
  result.Ends (fun _ t => t.subscriptions = v) fun _ t => t.subscriptions = v

section

variable {s t : Server} {v : Subscriptions} {result : Result} {next : Server → Result}

theorem subscribes_returned : Subscribes v (.returned t ()) ↔ t.subscriptions = v := Iff.rfl

theorem Subscribes.andThen (first : Subscribes v result)
    (later : ∀ t, t.subscriptions = v → Subscribes v (next t)) :
    Subscribes v (result.andThen next) := by
  rw [Subscribes, Ends_andThen]
  exact Program.Ends.mono first (fun _ t same => later t same) fun _ _ same => same

theorem Subscribes.noexcept (first : Subscribes v result) : Subscribes v result.noexcept := by
  cases result with
  | returned after value => exact first
  | thrown after error => trivial
  | fault => trivial

theorem modify_subscriptions {c : ConnId} {change : Conn → Conn}
    (same : (change (s.conns c)).subscriber = (s.conns c).subscriber) :
    (s.modify c change).subscriptions = s.subscriptions := by
  have subscribers : (fun d => ((s.modify c change).conns d).subscriber) =
      fun d => (s.conns d).subscriber := by
    funext d
    rw [modify_conns]
    by_cases equal : d = c
    · rw [if_pos equal, same, equal]
    · rw [if_neg equal]
  exact congrArg (fun subscriber => { s.subscriptions with subscriber := subscriber }) subscribers

theorem link_subscriptions (c : ConnId) : (s.link c).subscriptions = s.subscriptions :=
  modify_subscriptions rfl

theorem note_subscriptions (event : Event) : (s.note event).subscriptions = s.subscriptions := rfl

theorem enter_subscriptions (stage : Stage) : (s.enter stage).subscriptions = s.subscriptions := rfl

theorem unlinked_subscriptions (c : ConnId) : (s.unlinked c).subscriptions = s.subscriptions :=
  @modify_subscriptions s c (fun conn => { conn with link := (s.conns c).link - 1 }) rfl

theorem unlink_subscribes (same : t.subscriptions = v) (c : ConnId) : Subscribes v (t.unlink c) := by
  apply unlink_ends
  · intro _
    rw [unlinked_subscriptions, same]
  · intro _
    rw [unlinked_subscriptions, same]

theorem send_subscribes (same : t.subscriptions = v) (c : ConnId) (response : Response) :
    Subscribes v (t.send c response) := by
  apply send_ends
  · intro _
    rw [sent, note_subscriptions, modify_subscriptions rfl, same]
  · intro _
    rw [headed, modify_subscriptions rfl, same]

/-- A list is changed by what is put in the place of its line. -/
theorem setLine_list {i : Nat} {line : QueueLine} (live : s.line i = some line) (other : QueueLine) :
    (s.setLine i other).list = Function.update s.list i other.workers := by
  funext j
  have inside : i < s.registry.queueList.length := by
    by_contra outside
    rw [Server.line, List.getElem?_eq_none (by omega)] at live
    cases live
  by_cases equal : j = i
  · subst equal
    simp [list, workersAt, setLine, inside]
  · simp [list, workersAt, setLine, Function.update_of_ne equal, List.getElem?_set_ne (Ne.symm equal)]

theorem list_of_live {i : Nat} {line : QueueLine} (live : s.line i = some line) :
    s.list i = line.workers := by
  rw [Server.line] at live
  rw [list, workersAt, live]
  rfl

theorem setLine_subscriptions {i : Nat} {line other : QueueLine} (live : s.line i = some line)
    (same : other.workers = line.workers) : (s.setLine i other).subscriptions = s.subscriptions := by
  have lists : (s.setLine i other).list = s.list := by
    rw [setLine_list live, same, ← list_of_live live, Function.update_eq_self]
  exact congrArg (fun lists => { s.subscriptions with lists := lists }) lists

theorem setQueue_subscriptions (i j : Nat) (queue : Queue) :
    (s.setQueue i j queue).subscriptions = s.subscriptions := by
  unfold setQueue
  cases live : s.line i with
  | none => rfl
  | some line => exact setLine_subscriptions live rfl

theorem eraseWorker_subscriptions (i j p : Nat) :
    (s.eraseWorker i j p).subscriptions = s.subscriptions := by
  unfold eraseWorker
  cases s.queue i j with
  | none => rfl
  | some queue => exact setQueue_subscriptions i j _

theorem eraseMessage_subscriptions (i j p : Nat) :
    (s.eraseMessage i j p).subscriptions = s.subscriptions := by
  unfold eraseMessage
  cases s.queue i j with
  | none => rfl
  | some queue => exact setQueue_subscriptions i j _

theorem takeMessage_subscriptions (i j p : Nat) (message : Message) :
    (s.takeMessage i j p message).subscriptions = s.subscriptions :=
  eraseMessage_subscriptions i j p

theorem takeId_subscriptions {d : ConnId} {random : Nat} {id : Bytes}
    (taken : s.takeId d random = some (t, id)) : t.subscriptions = s.subscriptions := by
  unfold takeId at taken
  cases idEq : (s.conns d).http.requestId s.generated random with
  | error error =>
      rw [idEq] at taken
      cases taken
  | ok found =>
      rw [idEq] at taken
      cases taken
      exact modify_subscriptions rfl

theorem dropEntry_subscribes (same : t.subscriptions = v) (i j p : Nat) :
    Subscribes v (t.dropEntry i j p) := by
  unfold dropEntry
  cases t.workerAt i j p with
  | none => trivial
  | some w => exact unlink_subscribes (by rw [eraseWorker_subscriptions, same]) w

theorem deleteMessage_subscribes (same : t.subscriptions = v) (message : Message) :
    Subscribes v (t.deleteMessage message) := by
  unfold deleteMessage
  cases message.conn with
  | none => exact same
  | some d => exact (unlink_subscribes same d).noexcept

end

variable {s : Server}

theorem postNoid_subscribes (c : ConnId) : Subscribes s.subscriptions (s.postNoid c) := by
  unfold postNoid
  simp only
  split
  · rfl
  · rename_i d _
    refine (unlink_subscribes ?_ d).andThen fun t same => ?_
    · refine modify_subscriptions ?_
      split <;> rfl
    · split
      · exact same
      · refine (send_subscribes ?_ d _).andThen fun u later => later
        rw [modify_subscriptions rfl, same]

theorem settle_subscribes (id : Bytes) (worker : Option ConnId) :
    Subscribes s.subscriptions (s.settle id worker) := by
  unfold settle
  split
  · trivial
  · rename_i d _
    refine (unlink_subscribes (by rfl) d).andThen fun t same => ?_
    split
    · exact same
    · refine (send_subscribes same d _).andThen fun u later => ?_
      exact (modify_subscriptions rfl).trans later

theorem resolve_subscribes (c : ConnId) (key : Bytes) :
    Subscribes s.subscriptions (s.resolve c key) := by
  have lists := s.registry.getQueue_workersAt s.threads key true
  have found : ∀ registry : Registry, workersAt registry.queueList = workersAt s.registry.queueList →
      { s with registry := registry }.subscriptions = s.subscriptions := by
    intro registry same
    exact congrArg (fun lists => { s.subscriptions with lists := lists }) same
  unfold resolve
  cases foundEq : s.registry.getQueue s.threads key true with
  | returned registry slot =>
      rw [foundEq] at lists
      cases slot with
      | none => trivial
      | some i =>
          simp only
          split
          · trivial
          · exact (modify_subscriptions rfl).trans (found registry lists)
  | thrown registry error =>
      rw [foundEq] at lists
      exact found registry lists
  | fault => trivial

theorem refuseNoId_subscribes (i j p : Nat) : Subscribes s.subscriptions (s.refuseNoId i j p) := by
  unfold refuseNoId
  split
  · trivial
  · split
    · trivial
    · refine send_subscribes ?_ _ _
      rw [modify_subscriptions rfl, takeMessage_subscriptions]

theorem refuseCollision_subscribes (i j p random : Nat) :
    Subscribes s.subscriptions (s.refuseCollision i j p random) := by
  unfold refuseCollision
  split
  · trivial
  · split
    · trivial
    · split
      · trivial
      · rename_i takenEq
        have taken := (takeId_subscriptions takenEq).trans (takeMessage_subscriptions i j p _)
        exact (send_subscribes taken _ _).andThen fun u later => (modify_subscriptions rfl).trans later

theorem giveAsync_subscribes (c : ConnId) (i j p : Nat) :
    Subscribes s.subscriptions (s.giveAsync c i j p) := by
  unfold giveAsync
  split
  · trivial
  · split
    · refine (send_subscribes ?_ _ _).andThen fun t same => same
      rw [modify_subscriptions rfl, takeMessage_subscriptions]
    · trivial

theorem hold_subscriptions {t : Server} {v : Subscriptions} (same : t.subscriptions = v)
    (c d : ConnId) (held : Bool) :
    (if held then (t.modify c fun conn => { conn with client := some d }).link d
      else t).subscriptions = v := by
  cases held with
  | true => exact (link_subscriptions d).trans ((modify_subscriptions rfl).trans same)
  | false => exact same

theorem giveNoid_subscribes (c : ConnId) (i j p : Nat) :
    Subscribes s.subscriptions (s.giveNoid c i j p) := by
  unfold giveNoid
  split
  · trivial
  · split
    · trivial
    · simp only
      refine (send_subscribes ?_ _ _).andThen fun t same => same
      refine (modify_subscriptions rfl).trans (hold_subscriptions ?_ c _ _)
      rw [modify_subscriptions rfl, takeMessage_subscriptions]

theorem giveId_subscribes (c : ConnId) (i j p random : Nat) :
    Subscribes s.subscriptions (s.giveId c i j p random) := by
  unfold giveId
  split
  · trivial
  · split
    · trivial
    · simp only
      split
      · trivial
      · rename_i takenEq
        refine (send_subscribes (hold_subscriptions ?_ c _ _) _ _).andThen fun t same => ?_
        · rw [takeId_subscriptions takenEq, modify_subscriptions rfl, takeMessage_subscriptions]
        · rw [subscribes_returned, enter_subscriptions, note_subscriptions, modify_subscriptions rfl,
            link_subscriptions]
          exact same

theorem register_subscribes (c : ConnId) (i : Nat) :
    Subscribes s.subscriptions (s.register c i) := by
  unfold register
  simp only
  split
  · trivial
  · rw [subscribes_returned, enter_subscriptions, modify_subscriptions rfl, link_subscriptions,
      setQueue_subscriptions]

theorem handAsync_subscribes (c : ConnId) (i j p : Nat) (name : Bytes) :
    Subscribes s.subscriptions (s.handAsync c i j p name) := by
  unfold handAsync
  split
  · trivial
  · refine (dropEntry_subscribes rfl i j p).andThen fun t same => ?_
    refine (send_subscribes ?_ _ _).andThen fun u later => later
    rw [modify_subscriptions rfl, same]

theorem handNoid_subscribes (c : ConnId) (i j p : Nat) (name : Bytes) :
    Subscribes s.subscriptions (s.handNoid c i j p name) := by
  unfold handNoid
  split
  · trivial
  · refine (dropEntry_subscribes rfl i j p).andThen fun t same => ?_
    refine (send_subscribes ?_ _ _).andThen fun u later => later
    rw [modify_subscriptions rfl, modify_subscriptions rfl, link_subscriptions,
      modify_subscriptions rfl, same]

theorem handId_subscribes (c : ConnId) (i j p : Nat) (name : Bytes) (random : Nat) :
    Subscribes s.subscriptions (s.handId c i j p name random) := by
  unfold handId
  split
  · trivial
  · refine (dropEntry_subscribes rfl i j p).andThen fun t same => ?_
    split
    · trivial
    · rename_i takenEq
      refine (send_subscribes (hold_subscriptions ?_ _ c _) _ _).andThen fun u later => ?_
      · exact (takeId_subscriptions takenEq).trans same
      · rw [subscribes_returned, enter_subscriptions, note_subscriptions, modify_subscriptions rfl,
          modify_subscriptions rfl, link_subscriptions]
        exact later

theorem undo_subscribes {v : Subscriptions} (same : s.subscriptions = v) (c : ConnId) (i j p : Nat)
    (refusal : Response) : Subscribes v (s.undo c i j p refusal) := by
  unfold undo
  split
  · trivial
  · refine (dropEntry_subscribes same i j p).andThen fun t later => ?_
    simp only
    split
    · trivial
    · refine (send_subscribes ?_ _ _).andThen fun u last => last
      rw [setQueue_subscriptions, modify_subscriptions rfl, link_subscriptions, later]

theorem enqueue_subscribes (c : ConnId) (i : Nat) (message : Message) :
    Subscribes s.subscriptions (s.enqueue c i message) := by
  unfold enqueue
  simp only
  split
  · trivial
  · exact (modify_subscriptions rfl).trans (setQueue_subscriptions i _ _)

theorem enqueueSync_subscribes (c : ConnId) (i : Nat) (name : Bytes) :
    Subscribes s.subscriptions (s.enqueueSync c i name) := by
  refine (enqueue_subscribes c i _).andThen fun t same => ?_
  rw [subscribes_returned, enter_subscriptions, modify_subscriptions rfl, link_subscriptions, same]

theorem enqueueAsync_subscribes (c : ConnId) (i : Nat) (name : Bytes) :
    Subscribes s.subscriptions (s.enqueueAsync c i name) :=
  (enqueue_subscribes c i _).andThen fun _ same => (modify_subscriptions rfl).trans same

theorem closeMessage_subscribes (j : Nat) : Subscribes s.subscriptions (s.closeMessage j) := by
  unfold closeMessage
  cases dyingEq : s.dying with
  | none => trivial
  | some line =>
      simp only
      split
      · trivial
      · split
        · trivial
        · rename_i queue _ _ message rest _
          have same : { s with
              dying := some { line with queue := line.queue.set j { queue with clients := rest } }
              gc := s.gc ++ [message] }.subscriptions = s.subscriptions := by
            unfold subscriptions
            rw [dyingEq]
            rfl
          split
          · exact same
          · split
            · exact same
            · exact send_subscribes same _ _

theorem closeWorker_subscribes (j : Nat) : Subscribes s.subscriptions (s.closeWorker j) := by
  unfold closeWorker
  cases dyingEq : s.dying with
  | none => trivial
  | some line =>
      simp only
      split
      · trivial
      · split
        · trivial
        · refine (unlink_subscribes ?_ _).andThen fun t same => ?_
          · unfold subscriptions
            rw [dyingEq]
            rfl
          · split
            · exact same
            · exact send_subscribes same _ _

theorem expire_subscribes (i j p now : Nat) : Subscribes s.subscriptions (s.expire i j p now) := by
  unfold expire
  split
  · trivial
  · refine (send_subscribes ?_ _ _).andThen fun t same => ?_
    · exact modify_subscriptions rfl
    · exact (modify_subscriptions rfl).trans same

theorem releaseClient_subscribes {v : Subscriptions} (same : s.subscriptions = v) (c : ConnId) :
    Subscribes v (s.releaseClient c) := by
  unfold releaseClient
  split
  · trivial
  · exact (unlink_subscribes same _).andThen fun t later => (modify_subscriptions rfl).trans later

theorem failNoid_subscribes (c : ConnId) : Subscribes s.subscriptions (s.failNoid c) := by
  unfold failNoid
  split
  · rfl
  · refine Subscribes.andThen ?_ fun t same =>
      releaseClient_subscribes ((modify_subscriptions rfl).trans same) c
    split
    · rfl
    · exact send_subscribes rfl _ _

theorem reapList_subscribes (list : List ConnId) {v : Subscriptions} (same : s.subscriptions = v) :
    Subscribes v (s.reapList list) := by
  induction list generalizing s with
  | nil => exact same
  | cons c rest ih =>
      unfold reapList
      split
      · trivial
      · split
        · exact ih ((modify_subscriptions rfl).trans same)
        · exact ih same

/-- A quiet action leaves the subscriptions as they are. -/
theorem apply_subscribes {action : Action} (quiet : action.quiet = true) (s : Server) :
    Subscribes s.subscriptions (action.apply s) := by
  cases action with
  | accept => cases quiet
  | receive => rfl
  | count => rfl
  | edit => exact modify_subscriptions rfl
  | begin => cases quiet
  | endHead => exact modify_subscriptions rfl
  | complete c =>
      rw [Action.apply, subscribes_returned, complete, enter_subscriptions, note_subscriptions,
        modify_subscriptions rfl]
      rfl
  | rewind =>
      rw [Action.apply, subscribes_returned, enter_subscriptions, modify_subscriptions rfl]
  | shut => cases quiet
  | retire => cases quiet
  | reap loop => exact reapList_subscribes _ rfl
  | caught => rfl
  | died => rfl
  | flush => cases quiet
  | refuseHeader c => exact send_subscribes rfl c _
  | respond c response => exact (send_subscribes rfl c response).andThen fun t same => same
  | conclude c response =>
      refine (send_subscribes rfl c response).andThen fun t same => ?_
      rw [subscribes_returned, enter_subscriptions, modify_subscriptions rfl, same]
  | postNoid c => exact postNoid_subscribes c
  | settle id worker => exact settle_subscribes id worker
  | workerMode => cases quiet
  | noIdMode => exact modify_subscriptions rfl
  | failMode => exact modify_subscriptions rfl
  | beginAdd =>
      rw [Action.apply, subscribes_returned, enter_subscriptions, modify_subscriptions rfl]
  | resolve c key => exact resolve_subscribes c key
  | describe i info =>
      simp only [Action.apply]
      split
      · trivial
      · rename_i live
        exact setLine_subscriptions live rfl
  | visit i now =>
      simp only [Action.apply]
      split
      · trivial
      · rename_i live
        exact setLine_subscriptions live rfl
  | lock i on =>
      simp only [Action.apply]
      split
      · trivial
      · rename_i live
        exact setLine_subscriptions live rfl
  | nameConn => exact modify_subscriptions rfl
  | leaveList => cases quiet
  | dropDirects => cases quiet
  | wake =>
      rw [Action.apply, subscribes_returned, enter_subscriptions, modify_subscriptions rfl]
  | dropMessage i j p =>
      simp only [Action.apply]
      split
      · trivial
      · exact takeMessage_subscriptions i j p _
  | refuseNoId i j p => exact refuseNoId_subscribes i j p
  | refuseCollision i j p random => exact refuseCollision_subscribes i j p random
  | giveAsync c i j p => exact giveAsync_subscribes c i j p
  | giveNoid c i j p => exact giveNoid_subscribes c i j p
  | giveId c i j p random => exact giveId_subscribes c i j p random
  | register c i => exact register_subscribes c i
  | subscribe => cases quiet
  | finish => rfl
  | collect =>
      simp only [Action.apply, collect]
      split
      · trivial
      · exact deleteMessage_subscribes (by rfl) _
  | dropEntry i j p => exact dropEntry_subscribes rfl i j p
  | handAsync c i j p name => exact handAsync_subscribes c i j p name
  | handNoid c i j p name => exact handNoid_subscribes c i j p name
  | handId c i j p name random => exact handId_subscribes c i j p name random
  | undoNoId c i j p => exact undo_subscribes rfl c i j p _
  | undoCollision c i j p random =>
      simp only [Action.apply]
      split
      · trivial
      · rename_i takenEq
        exact undo_subscribes (takeId_subscriptions takenEq) c i j p _
  | enqueueSync c i name => exact enqueueSync_subscribes c i name
  | enqueueAsync c i name => exact enqueueAsync_subscribes c i name
  | newDirect => cases quiet
  | publishClaim => cases quiet
  | publishPush => cases quiet
  | releaseDirect => cases quiet
  | create key =>
      have lists := s.registry.getQueue_workersAt s.threads key true
      simp only [Action.apply]
      cases foundEq : s.registry.getQueue s.threads key true with
      | returned registry slot =>
          rw [foundEq] at lists
          exact congrArg (fun lists => { s.subscriptions with lists := lists }) lists
      | thrown registry error =>
          rw [foundEq] at lists
          exact congrArg (fun lists => { s.subscriptions with lists := lists }) lists
      | fault => trivial
  | unhook => cases quiet
  | closeMessage j => exact closeMessage_subscribes j
  | closeWorker j => exact closeWorker_subscribes j
  | popItem => cases quiet
  | bury => cases quiet
  | expire i j p now => exact expire_subscribes i j p now
  | discard i j p =>
      simp only [Action.apply, discard]
      split
      · trivial
      · exact deleteMessage_subscribes (eraseMessage_subscriptions i j p) _
  | eraseOwn c => exact unlink_subscribes (by rfl) c
  | failNoid c => exact failNoid_subscribes c
  | releaseClient c => exact releaseClient_subscribes rfl c

end Server

end Ijson
