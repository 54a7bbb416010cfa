/-
What an action says to whom.

Most actions of the server leave the sockets as they are, save for the whole
responses they put into the buffers of open connections: each is noted in the
log, and the connection wants to write from then on.
-/

import Ijson.Machine
import Ijson.Effects

namespace Ijson

/-- The text of a response, as `HttpSender` writes it. -/
def Response.text (jsonrpc2 : Bool) (said : Bool × Response) : Bytes :=
  said.2.head said.1 ++ Response.tail jsonrpc2 said.2.payload

/-- The part of a connection the event loops look at. -/
structure Conn.SameSocket (a b : Conn) : Prop where
  closed : b.closed = a.closed
  connected : b.connected = a.connected
  nloop : b.nloop = a.nloop

theorem Conn.SameSocket.trans {a b d : Conn} (first : a.SameSocket b) (second : b.SameSocket d) :
    a.SameSocket d :=
  ⟨second.closed.trans first.closed, second.connected.trans first.connected, second.nloop.trans first.nloop⟩

/-- The responses an open connection was given, each with its `keep_alive`. -/
structure Server.Given (s t : Server) (x : ConnId) (responses : List (Bool × Response)) : Prop where
  buffer : (t.conns x).sendBuffer =
    (s.conns x).sendBuffer ++ responses.flatMap (Response.text s.jsonrpc2)
  wakes : responses ≠ [] → (t.conns x).writing = true
  noted : t.said x = s.said x ++ responses.map fun said => .response said.1 said.2

/-- Nothing but responses has been said. -/
structure Speaks (s t : Server) : Prop where
  accepted : t.accepted = s.accepted
  threads : t.threads = s.threads
  jsonrpc2 : t.jsonrpc2 = s.jsonrpc2
  socket : ∀ x, (s.conns x).SameSocket (t.conns x)
  writing : ∀ x, (s.conns x).writing = true → (t.conns x).writing = true
  given : ∀ x, (s.conns x).closed = false → ∃ responses, s.Given t x responses
  mute : ∀ x, (s.conns x).closed = true → t.said x = s.said x

/-- What is neither a response nor a message. -/
def Event.silent : Event → Bool
  | .response _ _ _ => false
  | .message _ _ _ => false
  | _ => true

theorem said_note_other {s : Server} {event : Event} {x : ConnId} (other : event.said x = none) :
    (s.note event).said x = s.said x := by
  rw [Server.said, Server.note_log, List.filterMap_append, List.filterMap_cons_none other, List.filterMap_nil,
    List.append_nil]
  rfl

theorem said_note {s : Server} {event : Event} {x : ConnId} {said : Said} (tells : event.said x = some said) :
    (s.note event).said x = s.said x ++ [said] := by
  rw [Server.said, Server.note_log, List.filterMap_append, List.filterMap_cons_some tells, List.filterMap_nil]
  rfl

theorem said_silent {event : Event} (silent : event.silent = true) (s : Server) (x : ConnId) :
    (s.note event).said x = s.said x := by
  apply said_note_other
  cases event with
  | response | message => cases silent
  | _ => rfl

namespace Speaks

variable {s t u : Server}

theorem refl (s : Server) : Speaks s s where
  accepted := rfl
  threads := rfl
  jsonrpc2 := rfl
  socket := fun _ => ⟨rfl, rfl, rfl⟩
  writing := fun _ writes => writes
  given := fun _ _ => ⟨[], by simp, fun given => absurd rfl given, (List.append_nil _).symm⟩
  mute := fun _ _ => rfl

theorem trans (first : Speaks s t) (second : Speaks t u) : Speaks s u where
  accepted := second.accepted.trans first.accepted
  threads := second.threads.trans first.threads
  jsonrpc2 := second.jsonrpc2.trans first.jsonrpc2
  socket := fun x => (first.socket x).trans (second.socket x)
  writing := fun x writes => second.writing x (first.writing x writes)
  given := by
    intro x opened
    obtain ⟨early, given⟩ := first.given x opened
    obtain ⟨late, later⟩ := second.given x (by rw [(first.socket x).closed, opened])
    refine ⟨early ++ late, ?_, fun nonempty => ?_, ?_⟩
    · rw [later.buffer, given.buffer, first.jsonrpc2, List.flatMap_append, List.append_assoc]
    · by_cases quiet : late = []
      · rw [quiet, List.append_nil] at nonempty
        exact second.writing x (given.wakes nonempty)
      · exact later.wakes quiet
    · rw [later.noted, given.noted, List.map_append, List.append_assoc]
  mute := by
    intro x closed
    rw [second.mute x (by rw [(first.socket x).closed, closed]), first.mute x closed]

/-- A change of a connection that the loops do not look at, or that sets its socket
to write. -/
theorem modify (speaks : Speaks s t) (c : ConnId) (change : Conn → Conn)
    (socket : ∀ conn, Conn.SameSocket conn (change conn))
    (keeps : ∀ conn, ((change conn).writing = conn.writing ∨ (change conn).writing = true) ∧
      (change conn).sendBuffer = conn.sendBuffer) : Speaks s (t.modify c change) := by
  refine speaks.trans
    { accepted := rfl
      threads := rfl
      jsonrpc2 := rfl
      socket := fun x => ?_
      writing := fun x writes => ?_
      given := fun x _ => ⟨[], ?_, fun given => absurd rfl given, (List.append_nil _).symm⟩
      mute := fun _ _ => rfl }
  · rw [Server.modify_conns]
    split
    · rename_i same
      rw [same]
      exact socket _
    · exact ⟨rfl, rfl, rfl⟩
  · rw [Server.modify_conns]
    split
    · rename_i same
      rw [same] at writes
      rcases (keeps (t.conns c)).1 with kept | now
      · rw [kept, writes]
      · exact now
    · exact writes
  · rw [List.flatMap_nil, List.append_nil, Server.modify_conns]
    split
    · rename_i same
      rw [same, (keeps _).2]
    · rfl

theorem changed {c : ConnId} {change : Conn → Conn} (speaks : Speaks s t)
    (keeps : ∀ conn, ((change conn).closed, (change conn).connected, (change conn).nloop,
        (change conn).writing, (change conn).sendBuffer) =
      (conn.closed, conn.connected, conn.nloop, conn.writing, conn.sendBuffer)) :
    Speaks s (t.modify c change) := by
  refine speaks.modify c change (fun conn => ?_) fun conn => ?_
  · have same := keeps conn
    simp only [Prod.mk.injEq] at same
    exact ⟨same.1, same.2.1, same.2.2.1⟩
  · have same := keeps conn
    simp only [Prod.mk.injEq] at same
    exact ⟨.inl same.2.2.2.1, same.2.2.2.2⟩

theorem beside (speaks : Speaks s t) (accepted : u.accepted = t.accepted) (threads : u.threads = t.threads)
    (jsonrpc2 : u.jsonrpc2 = t.jsonrpc2) (conns : u.conns = t.conns)
    (log : u.log = t.log) : Speaks s u :=
  speaks.trans
    { accepted := accepted
      threads := threads
      jsonrpc2 := jsonrpc2
      socket := fun x => by rw [conns]; exact ⟨rfl, rfl, rfl⟩
      writing := fun x writes => by rw [conns]; exact writes
      given := fun x _ => ⟨[], by rw [conns]; simp, fun given => absurd rfl given, by
        rw [Server.said, log]
        exact (List.append_nil _).symm⟩
      mute := fun x _ => by rw [Server.said, log]; rfl }

theorem note {event : Event} (speaks : Speaks s t) (silent : event.silent = true) : Speaks s (t.note event) :=
  speaks.trans
    { accepted := rfl
      threads := rfl
      jsonrpc2 := rfl
      socket := fun _ => ⟨rfl, rfl, rfl⟩
      writing := fun _ writes => writes
      given := fun x _ => ⟨[], (List.append_nil _).symm, fun given => absurd rfl given,
        (said_silent silent t x).trans (List.append_nil _).symm⟩
      mute := fun x _ => said_silent silent t x }

theorem enter {stage : Stage} (speaks : Speaks s t) : Speaks s (t.enter stage) :=
  speaks.beside rfl rfl rfl rfl rfl

theorem link {c : ConnId} (speaks : Speaks s t) : Speaks s (t.link c) := speaks.changed fun _ => rfl

theorem unlinked {c : ConnId} (speaks : Speaks s t) : Speaks s (t.unlinked c) := by
  have counted : Speaks s (t.modify c fun conn => { conn with link := (t.conns c).link - 1 }) :=
    speaks.changed fun _ => rfl
  exact counted.beside rfl rfl rfl rfl rfl

theorem setQueue {i j : Nat} {queue : Queue} (speaks : Speaks s t) : Speaks s (t.setQueue i j queue) := by
  unfold Server.setQueue
  cases t.line i with
  | none => exact speaks
  | some line => exact speaks.beside rfl rfl rfl rfl rfl

theorem eraseWorker {i j p : Nat} (speaks : Speaks s t) : Speaks s (t.eraseWorker i j p) := by
  unfold Server.eraseWorker
  cases t.queue i j with
  | none => exact speaks
  | some queue => exact speaks.setQueue

theorem eraseMessage {i j p : Nat} (speaks : Speaks s t) : Speaks s (t.eraseMessage i j p) := by
  unfold Server.eraseMessage
  cases t.queue i j with
  | none => exact speaks
  | some queue => exact speaks.setQueue

theorem takeMessage {i j p : Nat} {message : Message} (speaks : Speaks s t) :
    Speaks s (t.takeMessage i j p message) :=
  speaks.eraseMessage.beside rfl rfl rfl rfl rfl

theorem sent {c : ConnId} {response : Response} (speaks : Speaks s t) (opened : (t.conns c).closed = false) :
    Speaks s (t.sent c response) := by
  refine speaks.trans ?_
  have conns : ∀ x, (t.sent c response).conns x = if x = c then
      { t.conns c with
        sendBuffer := (t.conns c).sendBuffer ++ response.head (t.conns c).keepAlive ++
          Response.tail t.jsonrpc2 response.payload
        writing := true } else t.conns x := fun x => by
    unfold Server.sent
    rw [Server.note_conns, Server.modify_conns]
  have other : ∀ x, x ≠ c → (t.sent c response).said x = t.said x := fun x different =>
    said_note_other (if_neg (Ne.symm different))
  refine
    { accepted := rfl
      threads := rfl
      jsonrpc2 := rfl
      socket := fun x => ?_
      writing := fun x writes => ?_
      given := fun x _ => ?_
      mute := fun x closed => other x ?_ }
  · rw [conns]
    split
    · rename_i same
      rw [same]
      exact ⟨rfl, rfl, rfl⟩
    · exact ⟨rfl, rfl, rfl⟩
  · rw [conns]
    split
    · rfl
    · exact writes
  · by_cases same : x = c
    · refine ⟨[((t.conns c).keepAlive, response)], ?_, fun _ => ?_, ?_⟩
      · rw [conns, if_pos same, same]
        simp [Response.text]
      · rw [conns, if_pos same]
      · exact said_note (if_pos same.symm)
    · refine ⟨[], ?_, fun given => absurd rfl given, (other x same).trans (List.append_nil _).symm⟩
      rw [conns, if_neg same]
      simp
  · rintro rfl
    rw [opened] at closed
    cases closed

/-- A response to a closed connection is not noted, and never written. -/
theorem headed {c : ConnId} {response : Response} (speaks : Speaks s t) (closed : (t.conns c).closed = true) :
    Speaks s (t.headed c response) := by
  refine speaks.trans ?_
  have conns : ∀ x, (t.headed c response).conns x = if x = c then
      { t.conns c with sendBuffer := (t.conns c).sendBuffer ++ response.head (t.conns c).keepAlive }
      else t.conns x := fun x => Server.modify_conns t c x _
  refine
    { accepted := rfl
      threads := rfl
      jsonrpc2 := rfl
      socket := fun x => ?_
      writing := fun x writes => ?_
      given := fun x opened => ⟨[], ?_, fun given => absurd rfl given, (List.append_nil _).symm⟩
      mute := fun _ _ => rfl }
  · rw [conns]
    split
    · rename_i same
      rw [same]
      exact ⟨rfl, rfl, rfl⟩
    · exact ⟨rfl, rfl, rfl⟩
  · rw [conns]
    split
    · rename_i same
      rw [same] at writes
      exact writes
    · exact writes
  · rw [conns, if_neg ?_]
    · simp
    · rintro rfl
      rw [closed] at opened
      cases opened

end Speaks

/-- The actions that open, close or write a socket. -/
def Action.socket : Action → Bool
  | .accept _ _ => true
  | .begin _ _ _ => true
  | .shut _ => true
  | .retire _ => true
  | .flush _ _ => true
  | _ => false

/-- The action only speaks. -/
abbrev OnlySpeaks (s : Server) (result : Result) : Prop :=
  result.Ends (fun _ t => Speaks s t) fun _ t => Speaks s t

namespace Speaks

open Server

section

variable {s t : Server} {result : Result} {next : Server → Result}

theorem OnlySpeaks.andThen (speaks : OnlySpeaks s result)
    (later : ∀ t, Speaks s t → OnlySpeaks s (next t)) : OnlySpeaks s (result.andThen next) := by
  rw [OnlySpeaks, Ends_andThen]
  exact Program.Ends.mono speaks (fun _ t after => later t after) fun _ _ after => after

theorem OnlySpeaks.noexcept (speaks : OnlySpeaks s result) : OnlySpeaks s result.noexcept := by
  cases result with
  | returned after value => exact speaks
  | thrown after error => trivial
  | fault => trivial

theorem unlink_speaks {c : ConnId} (speaks : Speaks s t) : OnlySpeaks s (t.unlink c) :=
  unlink_ends (fun _ => speaks.unlinked) fun _ => speaks.unlinked

theorem send_speaks {c : ConnId} {response : Response} (speaks : Speaks s t) :
    OnlySpeaks s (t.send c response) :=
  send_ends (fun opened => speaks.sent opened) fun closed => speaks.headed closed

theorem unlinkDirect_speaks {d : Nat} (speaks : Speaks s t) : OnlySpeaks s (t.unlinkDirect d) := by
  unfold unlinkDirect
  simp only
  split
  · trivial
  · exact beside speaks rfl rfl rfl rfl rfl

theorem unlinkDirects_speaks (messages : List Nat) (speaks : Speaks s t) :
    OnlySpeaks s (t.unlinkDirects messages) := by
  induction messages generalizing t with
  | nil => exact speaks
  | cons d rest ih => exact OnlySpeaks.andThen (unlinkDirect_speaks speaks) fun u after => ih after

theorem dropEntry_speaks {i j p : Nat} (speaks : Speaks s t) : OnlySpeaks s (t.dropEntry i j p) := by
  unfold dropEntry
  cases t.workerAt i j p with
  | none => trivial
  | some w => exact unlink_speaks speaks.eraseWorker

theorem deleteMessage_speaks {message : Message} (speaks : Speaks s t) :
    OnlySpeaks s (t.deleteMessage message) := by
  unfold deleteMessage
  cases message.conn with
  | none => exact speaks
  | some d => exact OnlySpeaks.noexcept (unlink_speaks speaks)

theorem releaseClient_speaks {c : ConnId} (speaks : Speaks s t) :
    OnlySpeaks s (t.releaseClient c) := by
  unfold releaseClient
  cases (t.conns c).client with
  | none => trivial
  | some d => exact OnlySpeaks.andThen (unlink_speaks speaks) fun u after => changed after fun _ => rfl

theorem takeId_speaks {d : ConnId} {random : Nat} {id : Bytes} {u : Server} (speaks : Speaks s t)
    (taken : t.takeId d random = some (u, id)) : Speaks s u := by
  unfold takeId at taken
  cases found : (t.conns d).http.requestId t.generated random with
  | error error =>
      rw [found] at taken
      cases taken
  | ok result =>
      rw [found] at taken
      cases taken
      exact changed (beside speaks rfl rfl rfl rfl rfl) fun _ => rfl

theorem reapList_speaks (list : List ConnId) (speaks : Speaks s t) : OnlySpeaks s (t.reapList list) := by
  induction list generalizing t with
  | nil => exact speaks
  | cons c rest ih =>
      unfold reapList
      split
      · trivial
      · split
        · exact ih (changed speaks fun _ => rfl)
        · exact ih speaks

/-- A worker that fails with its connection holds its client. -/
theorem claimed_speaks {c d : ConnId} (speaks : Speaks s t) :
    Speaks s (if (t.conns c).failOnDisconnect then
      (t.modify c fun conn => { conn with client := some d }).link d else t) := by
  split
  · exact link (changed speaks fun _ => rfl)
  · exact speaks

end

variable (s : Server)

theorem postNoid_speaks (c : ConnId) : OnlySpeaks s (s.postNoid c) := by
  unfold postNoid
  simp only
  have counted : Speaks s { s with stats := { s.stats with result := s.stats.result + 1 } } :=
    (refl s).beside rfl rfl rfl rfl rfl
  cases (s.conns c).client with
  | none => exact counted
  | some d =>
      simp only
      refine OnlySpeaks.andThen (unlink_speaks (changed counted fun conn => ?_)) fun t after => ?_
      · split
        · rfl
        · rfl
      · split
        · exact enter after
        · refine OnlySpeaks.andThen (send_speaks (changed after fun _ => rfl)) fun u later => ?_
          exact enter later

theorem settle_speaks (id : Bytes) (worker : Option ConnId) : OnlySpeaks s (s.settle id worker) := by
  unfold settle
  cases s.waiting id with
  | none => trivial
  | some d =>
      refine OnlySpeaks.andThen (unlink_speaks (beside (refl s) rfl rfl rfl rfl rfl)) fun t after => ?_
      split
      · exact after
      · exact OnlySpeaks.andThen (send_speaks after) fun u later => changed later fun _ => rfl

theorem resolve_speaks (c : ConnId) (key : Bytes) : OnlySpeaks s (s.resolve c key) := by
  have written : ∀ registry : Registry, Speaks s { s with registry := registry } :=
    fun _ => (refl s).beside rfl rfl rfl rfl rfl
  unfold resolve
  split
  · simp only
    split
    · trivial
    · exact changed (written _) fun _ => rfl
  · trivial
  · exact written _
  · trivial

theorem leaveList_speaks (c : ConnId) : OnlySpeaks s (s.leaveList c) := by
  unfold leaveList
  cases (s.conns c).workerItem with
  | none => trivial
  | some i =>
      simp only
      cases s.line i with
      | none => trivial
      | some line =>
          have left : Speaks s (s.setLine i { line with workers := line.workers.erase c }) :=
            (refl s).beside rfl rfl rfl rfl rfl
          exact OnlySpeaks.andThen (OnlySpeaks.noexcept (unlink_speaks left))
            fun t after => changed after fun _ => rfl

theorem refuseNoId_speaks (i j p : Nat) : OnlySpeaks s (s.refuseNoId i j p) := by
  unfold refuseNoId
  split
  · trivial
  · split
    · trivial
    · exact send_speaks (changed (takeMessage (refl s)) fun _ => rfl)

theorem refuseCollision_speaks (i j p random : Nat) : OnlySpeaks s (s.refuseCollision i j p random) := by
  unfold refuseCollision
  split
  · trivial
  · split
    · trivial
    · split
      · trivial
      · rename_i taken
        have speaks := takeId_speaks (takeMessage (refl s)) taken
        exact OnlySpeaks.andThen (send_speaks speaks) fun u later => changed later fun _ => rfl

theorem giveAsync_speaks (c : ConnId) (i j p : Nat) : OnlySpeaks s (s.giveAsync c i j p) := by
  unfold giveAsync
  split
  · trivial
  · split
    · refine OnlySpeaks.andThen (send_speaks (changed (takeMessage (refl s)) fun _ => rfl))
        fun u later => ?_
      exact enter (note (note later rfl) rfl)
    · trivial

theorem giveNoid_speaks (c : ConnId) (i j p : Nat) : OnlySpeaks s (s.giveNoid c i j p) := by
  unfold giveNoid
  split
  · trivial
  · rename_i message _
    split
    · trivial
    · rename_i d _
      have taken : Speaks s (s.takeMessage i j p message) := takeMessage (refl s)
      have busy : Speaks s ((s.takeMessage i j p message).modify d fun conn => { conn with status := .busy }) :=
        changed taken fun _ => rfl
      have claimed := claimed_speaks (c := c) (d := d) busy
      refine OnlySpeaks.andThen (send_speaks (changed claimed fun _ => rfl)) fun u later => ?_
      exact enter (note later rfl)

theorem giveId_speaks (c : ConnId) (i j p random : Nat) : OnlySpeaks s (s.giveId c i j p random) := by
  unfold giveId
  split
  · trivial
  · rename_i message _
    split
    · trivial
    · rename_i d _
      have taken : Speaks s (s.takeMessage i j p message) := takeMessage (refl s)
      have busy : Speaks s ((s.takeMessage i j p message).modify d fun conn => { conn with status := .busy }) :=
        changed taken fun _ => rfl
      simp only
      split
      · trivial
      · rename_i named id takenEq
        have claimed := claimed_speaks (c := c) (d := d) (takeId_speaks busy takenEq)
        refine OnlySpeaks.andThen (send_speaks claimed) fun u later => ?_
        have inserted : Speaks s (u.insertWait id d) := later.beside rfl rfl rfl rfl rfl
        exact enter (note (changed (link inserted) fun _ => rfl) rfl)

theorem register_speaks (c : ConnId) (i : Nat) : OnlySpeaks s (s.register c i) := by
  unfold register
  simp only
  split
  · trivial
  · exact enter (changed (link (setQueue (refl s))) fun _ => rfl)

theorem subscribe_speaks (c : ConnId) (i : Nat) (name : Bytes) : OnlySpeaks s (s.subscribe c i name) := by
  unfold subscribe
  cases s.line i with
  | none => trivial
  | some line =>
      have joined : Speaks s (s.setLine i { line with workers := c :: line.workers }) :=
        (refl s).beside rfl rfl rfl rfl rfl
      exact changed (link joined) fun _ => rfl

theorem handAsync_speaks (c : ConnId) (i j p : Nat) (name : Bytes) :
    OnlySpeaks s (s.handAsync c i j p name) := by
  unfold handAsync
  split
  · trivial
  · refine OnlySpeaks.andThen (dropEntry_speaks (refl s)) fun t after => ?_
    refine OnlySpeaks.andThen (send_speaks (changed after fun _ => rfl)) fun u later => ?_
    exact note (note (note (beside later rfl rfl rfl rfl rfl) rfl) rfl) rfl

theorem handNoid_speaks (c : ConnId) (i j p : Nat) (name : Bytes) :
    OnlySpeaks s (s.handNoid c i j p name) := by
  unfold handNoid
  split
  · trivial
  · rename_i w _
    refine OnlySpeaks.andThen (dropEntry_speaks (refl s)) fun t after => ?_
    have held : Speaks s (t.modify w fun conn => { conn with client := some c }) := changed after fun _ => rfl
    have waits : Speaks s (((t.modify w fun conn => { conn with client := some c }).link c).modify c
        fun conn => { conn with status := .clientWaitResult }) := changed (link held) fun _ => rfl
    refine OnlySpeaks.andThen (send_speaks (changed waits fun _ => rfl)) fun u later => ?_
    exact enter (note later rfl)

theorem handId_speaks (c : ConnId) (i j p : Nat) (name : Bytes) (random : Nat) :
    OnlySpeaks s (s.handId c i j p name random) := by
  unfold handId
  split
  · trivial
  · rename_i w _
    refine OnlySpeaks.andThen (dropEntry_speaks (refl s)) fun t after => ?_
    split
    · trivial
    · rename_i named id taken
      have claimed := claimed_speaks (c := w) (d := c) (takeId_speaks after taken)
      refine OnlySpeaks.andThen (send_speaks claimed) fun u later => ?_
      have inserted : Speaks s (u.insertWait id c) := later.beside rfl rfl rfl rfl rfl
      exact enter (note (changed (changed (link inserted) fun _ => rfl) fun _ => rfl) rfl)

theorem undo_speaks {t : Server} (speaks : Speaks s t) (c : ConnId) (i j p : Nat)
    (refusal : Response) : OnlySpeaks s (t.undo c i j p refusal) := by
  unfold undo
  split
  · trivial
  · rename_i w _
    refine OnlySpeaks.andThen (dropEntry_speaks speaks) fun u after => ?_
    have back : Speaks s ((u.link w).modify w fun conn => { conn with status := .workerWaitJob }) :=
      changed (link after) fun _ => rfl
    simp only
    split
    · trivial
    · exact OnlySpeaks.andThen (send_speaks (setQueue back)) fun v later => enter later

theorem enqueue_speaks (c : ConnId) (i : Nat) (message : Message) :
    OnlySpeaks s (s.enqueue c i message) := by
  unfold enqueue
  simp only
  split
  · trivial
  · exact changed (setQueue (refl s)) fun _ => rfl

theorem enqueueSync_speaks (c : ConnId) (i : Nat) (name : Bytes) :
    OnlySpeaks s (s.enqueueSync c i name) := by
  unfold enqueueSync
  refine OnlySpeaks.andThen (enqueue_speaks s c i _) fun t after => ?_
  exact enter (changed (link after) fun _ => rfl)

theorem enqueueAsync_speaks (c : ConnId) (i : Nat) (name : Bytes) :
    OnlySpeaks s (s.enqueueAsync c i name) := by
  unfold enqueueAsync
  refine OnlySpeaks.andThen (enqueue_speaks s c i _) fun t after => ?_
  exact changed (note (beside after rfl rfl rfl rfl rfl) rfl) fun _ => rfl

theorem unhook_speaks (key : Bytes) : OnlySpeaks s (s.unhook key) := by
  unfold unhook
  split
  · exact (refl s).beside rfl rfl rfl rfl rfl
  · split
    · trivial
    · exact note (beside (refl s) rfl rfl rfl rfl rfl) rfl
  · trivial

theorem closeMessage_speaks (j : Nat) : OnlySpeaks s (s.closeMessage j) := by
  unfold closeMessage
  split
  · trivial
  · split
    · trivial
    · split
      · trivial
      · simp only
        split
        · exact (refl s).beside rfl rfl rfl rfl rfl
        · split
          · exact (refl s).beside rfl rfl rfl rfl rfl
          · exact send_speaks (beside (refl s) rfl rfl rfl rfl rfl)

theorem closeWorker_speaks (j : Nat) : OnlySpeaks s (s.closeWorker j) := by
  unfold closeWorker
  split
  · trivial
  · split
    · trivial
    · split
      · trivial
      · refine OnlySpeaks.andThen (unlink_speaks (beside (refl s) rfl rfl rfl rfl rfl)) fun t after => ?_
        split
        · exact after
        · exact send_speaks after

theorem popItem_speaks : OnlySpeaks s s.popItem := by
  unfold popItem
  split
  · trivial
  · split
    · trivial
    · refine OnlySpeaks.andThen (OnlySpeaks.noexcept (unlink_speaks (beside (refl s) rfl rfl rfl rfl rfl)))
        fun t after => ?_
      exact changed after fun _ => rfl

theorem failNoid_speaks (c : ConnId) : OnlySpeaks s (s.failNoid c) := by
  unfold failNoid
  split
  · exact refl s
  · refine OnlySpeaks.andThen ?_ fun t after => releaseClient_speaks (changed after fun _ => rfl)
    split
    · exact refl s
    · exact send_speaks (refl s)

theorem expire_speaks (i j p now : Nat) : OnlySpeaks s (s.expire i j p now) := by
  unfold expire
  split
  · trivial
  · exact OnlySpeaks.andThen (send_speaks (changed (refl s) fun _ => rfl)) fun t after =>
      changed after fun _ => rfl

/-- All that is left to look at are five actions. -/
theorem apply_speaks {action : Action} (other : action.socket = false) : OnlySpeaks s (action.apply s) := by
  have same := refl s
  cases action with
  | accept | begin | shut | retire | flush => cases other
  | receive => exact same.beside rfl rfl rfl rfl rfl
  | count => exact same.beside rfl rfl rfl rfl rfl
  | edit c taken change => exact changed (note same rfl) fun _ => rfl
  | endHead c taken body => exact changed (note same rfl) fun _ => rfl
  | rewind c => exact enter (changed same fun _ => rfl)
  | complete c => exact enter (note (changed (beside same rfl rfl rfl rfl rfl) fun _ => rfl) rfl)
  | reap loop => exact reapList_speaks _ (beside same rfl rfl rfl rfl rfl)
  | caught => exact note same rfl
  | died => exact enter (note (beside same rfl rfl rfl rfl rfl) rfl)
  | refuseHeader c => exact send_speaks same
  | respond c response => exact OnlySpeaks.andThen (send_speaks same) fun t after => enter after
  | conclude c response =>
      exact OnlySpeaks.andThen (send_speaks same) fun t after => enter (changed after fun _ => rfl)
  | postNoid c => exact postNoid_speaks s c
  | settle id worker => exact settle_speaks s id worker
  | workerMode c on => exact changed same fun _ => rfl
  | noIdMode c => exact changed same fun _ => rfl
  | failMode c => exact changed same fun _ => rfl
  | beginAdd c => exact enter (changed same fun _ => rfl)
  | resolve c key => exact resolve_speaks s c key
  | describe i info =>
      simp only [Action.apply]
      cases s.line i with
      | none => trivial
      | some line => exact same.beside rfl rfl rfl rfl rfl
  | visit i now =>
      simp only [Action.apply]
      cases s.line i with
      | none => trivial
      | some line => exact same.beside rfl rfl rfl rfl rfl
  | lock i on =>
      simp only [Action.apply]
      cases s.line i with
      | none => trivial
      | some line => exact same.beside rfl rfl rfl rfl rfl
  | nameConn c random => exact changed (beside same rfl rfl rfl rfl rfl) fun _ => rfl
  | leaveList c => exact leaveList_speaks s c
  | dropDirects c => exact unlinkDirects_speaks _ (changed same fun _ => rfl)
  | wake c => exact enter (same.modify c _ (fun _ => ⟨rfl, rfl, rfl⟩) fun _ => ⟨.inr rfl, rfl⟩)
  | dropMessage i j p =>
      simp only [Action.apply]
      cases s.messageAt i j p with
      | none => trivial
      | some message => exact takeMessage same
  | refuseNoId i j p => exact refuseNoId_speaks s i j p
  | refuseCollision i j p random => exact refuseCollision_speaks s i j p random
  | giveAsync c i j p => exact giveAsync_speaks s c i j p
  | giveNoid c i j p => exact giveNoid_speaks s c i j p
  | giveId c i j p random => exact giveId_speaks s c i j p random
  | register c i => exact register_speaks s c i
  | subscribe c i name => exact subscribe_speaks s c i name
  | finish c => exact enter same
  | collect =>
      simp only [Action.apply, collect]
      cases s.gc with
      | nil => trivial
      | cons message rest => exact deleteMessage_speaks (beside same rfl rfl rfl rfl rfl)
  | dropEntry i j p => exact dropEntry_speaks same
  | handAsync c i j p name => exact handAsync_speaks s c i j p name
  | handNoid c i j p name => exact handNoid_speaks s c i j p name
  | handId c i j p name random => exact handId_speaks s c i j p name random
  | undoNoId c i j p => exact undo_speaks s same c i j p _
  | undoCollision c i j p random =>
      simp only [Action.apply]
      split
      · trivial
      · rename_i taken
        exact undo_speaks s (takeId_speaks same taken) c i j p _
  | enqueueSync c i name => exact enqueueSync_speaks s c i name
  | enqueueAsync c i name => exact enqueueAsync_speaks s c i name
  | newDirect => exact same.beside rfl rfl rfl rfl rfl
  | publishClaim i w d =>
      have linked : Speaks s (s.linkDirect d) := same.beside rfl rfl rfl rfl rfl
      exact linked.modify w (fun conn =>
        { afterAsync { conn with directMessage := conn.directMessage ++ [d] } with writing := true })
          (fun _ => ⟨rfl, rfl, rfl⟩) fun _ => ⟨.inr rfl, rfl⟩
  | publishPush i w d => exact changed (beside same rfl rfl rfl rfl rfl) fun _ => rfl
  | releaseDirect d => exact unlinkDirect_speaks same
  | create key =>
      simp only [Action.apply]
      cases s.registry.getQueue s.threads key true with
      | returned registry slot => exact same.beside rfl rfl rfl rfl rfl
      | thrown registry error => exact same.beside rfl rfl rfl rfl rfl
      | fault => trivial
  | unhook key => exact unhook_speaks s key
  | closeMessage j => exact closeMessage_speaks s j
  | closeWorker j => exact closeWorker_speaks s j
  | popItem => exact popItem_speaks s
  | bury => exact same.beside rfl rfl rfl rfl rfl
  | expire i j p now => exact expire_speaks s i j p now
  | discard i j p =>
      simp only [Action.apply, Server.discard]
      cases s.messageAt i j p with
      | none => trivial
      | some message => exact deleteMessage_speaks (eraseMessage same)
  | eraseOwn c => exact unlink_speaks (beside same rfl rfl rfl rfl rfl)
  | failNoid c => exact failNoid_speaks s c
  | releaseClient c => exact releaseClient_speaks same

end Speaks

end Ijson
