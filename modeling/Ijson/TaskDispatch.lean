/-
Every dispatch of a task, against what its worker reads.

Six actions hand a task to a worker: three of `client_request` and three of
`_add_worker`.  Each writes the task once, behind what is still to be sent.
-/

import Ijson.TaskMessage
import Ijson.Machine

namespace Ijson

namespace Server

/-- The worker an action hands a task to, and the task. -/
def handed (s : Server) : Action → Option (ConnId × Task)
  | .handAsync c i j p name =>
      (s.workerAt i j p).map fun w => (w, ⟨none, name, true, (s.conns c).http.body⟩)
  | .handNoid c i j p name =>
      (s.workerAt i j p).map fun w => (w, ⟨none, name, false, (s.conns c).http.body⟩)
  | .handId c i j p name random =>
      match s.workerAt i j p, (s.conns c).http.requestId s.generated random with
      | some w, .ok (http, _) => some (w, ⟨some http.id, name, false, (s.conns c).http.body⟩)
      | _, _ => none
  | .giveAsync c i j p _ =>
      match s.messageAt i j p with
      | some message => message.buf.map fun body => (c, ⟨none, message.name, true, body⟩)
      | none => none
  | .giveNoid c i j p =>
      match (s.messageAt i j p).bind Message.conn with
      | some d => some (c, ⟨none, (s.conns d).http.name, false, (s.conns d).http.body⟩)
      | none => none
  | .giveId c i j p random =>
      match (s.messageAt i j p).bind Message.conn with
      | some d =>
          match (s.conns d).http.requestId s.generated random with
          | .ok (http, _) =>
              some (c, ⟨some http.id, (s.conns d).http.name, false, (s.conns d).http.body⟩)
          | .error _ => none
      | none => none
  | _ => none

end Server

/-- Taking an id leaves the body and the name of a request alone. -/
theorem Http.requestId_fields {http named : Http} {index random : Nat} {generated : Bool}
    (idEq : http.requestId index random = .ok (named, generated)) :
    named.body = http.body ∧ named.name = http.name := by
  rw [Http.requestId] at idEq
  split at idEq
  · cases idEq
    exact ⟨rfl, rfl⟩
  · split at idEq
    · cases idEq
    · split at idEq
      · cases idEq
        exact ⟨rfl, rfl⟩
      · cases idEq
        exact ⟨rfl, rfl⟩

/-- What responses are made of is the same in two states. -/
structure Alike (s t : Server) : Prop where
  generated : t.generated = s.generated
  sendBuffer : ∀ c, (t.conns c).sendBuffer = (s.conns c).sendBuffer
  keepAlive : ∀ c, (t.conns c).keepAlive = (s.conns c).keepAlive
  http : ∀ c, (t.conns c).http = (s.conns c).http

namespace Alike

variable {s t : Server}

theorem refl (s : Server) : Alike s s := ⟨rfl, fun _ => rfl, fun _ => rfl, fun _ => rfl⟩

theorem modify (alike : Alike s t) (c : ConnId) (change : Conn → Conn)
    (keeps : ∀ conn, (change conn).sendBuffer = conn.sendBuffer ∧
      (change conn).keepAlive = conn.keepAlive ∧ (change conn).http = conn.http) :
    Alike s (t.modify c change) := by
  have same : ∀ d, ((t.modify c change).conns d).sendBuffer = (t.conns d).sendBuffer ∧
      ((t.modify c change).conns d).keepAlive = (t.conns d).keepAlive ∧
      ((t.modify c change).conns d).http = (t.conns d).http := by
    intro d
    rw [Server.modify_conns]
    by_cases equal : d = c
    · rw [if_pos equal, equal]
      exact keeps _
    · rw [if_neg equal]
      exact ⟨rfl, rfl, rfl⟩
  exact
    { generated := alike.generated
      sendBuffer := fun d => (same d).1.trans (alike.sendBuffer d)
      keepAlive := fun d => (same d).2.1.trans (alike.keepAlive d)
      http := fun d => (same d).2.2.trans (alike.http d) }

theorem link (alike : Alike s t) (c : ConnId) : Alike s (t.link c) :=
  alike.modify c _ fun _ => ⟨rfl, rfl, rfl⟩

theorem unlinked (alike : Alike s t) (c : ConnId) : Alike s (t.unlinked c) := by
  have counted : Alike s (t.modify c fun conn => { conn with link := (t.conns c).link - 1 }) :=
    alike.modify c _ fun _ => ⟨rfl, rfl, rfl⟩
  exact { counted with }

theorem setQueue (alike : Alike s t) (i j : Nat) (queue : Queue) :
    Alike s (t.setQueue i j queue) := by
  unfold Server.setQueue
  cases t.line i with
  | none => exact alike
  | some line => exact { alike with }

theorem eraseWorker (alike : Alike s t) (i j p : Nat) : Alike s (t.eraseWorker i j p) := by
  unfold Server.eraseWorker
  cases t.queue i j with
  | none => exact alike
  | some queue => exact alike.setQueue i j _

theorem takeMessage (alike : Alike s t) (i j p : Nat) (message : Message) :
    Alike s (t.takeMessage i j p message) := by
  unfold Server.takeMessage Server.eraseMessage
  cases t.queue i j with
  | none => exact { alike with }
  | some queue => exact { alike.setQueue i j _ with }

/-- A worker that is claimed for a client to be told of its failure. -/
theorem claimed (alike : Alike s t) (w d : ConnId) :
    Alike s (if (t.conns w).failOnDisconnect then
      (t.modify w fun conn => { conn with client := some d }).link d else t) := by
  split
  · exact (alike.modify w (fun conn => { conn with client := some d })
      fun _ => ⟨rfl, rfl, rfl⟩).link d
  · exact alike

end Alike

/-- The worker has been written the task, and nothing else. -/
def Wrote (s : Server) (w : ConnId) (task : Task) (t : Server) : Prop :=
  (t.conns w).sendBuffer = (s.conns w).sendBuffer ++
    (task.response.head (s.conns w).keepAlive ++ Response.withLength task.body)

namespace Wrote

variable {s t : Server} {w : ConnId} {task : Task}

theorem sent (alike : Alike s t) {response : Response} (responseEq : response = task.response) :
    Wrote s w task (t.sent w response) := by
  rw [Wrote, Server.sent, Server.note_conns, Server.modify_self, responseEq]
  simp only [alike.sendBuffer w, alike.keepAlive w, List.append_assoc]
  rfl

theorem entered (wrote : Wrote s w task t) (event : Event) (stage : Stage) :
    Wrote s w task ((t.note event).enter stage) := wrote

theorem of_conns {u : Server} (wrote : Wrote s w task t) (same : u.conns = t.conns) :
    Wrote s w task u := by
  rw [Wrote, same]
  exact wrote

theorem modify (wrote : Wrote s w task t) (c : ConnId) (change : Conn → Conn)
    (keeps : ∀ conn, (change conn).sendBuffer = conn.sendBuffer) :
    Wrote s w task (t.modify c change) := by
  rw [Wrote, Server.modify_conns]
  by_cases same : w = c
  · rw [if_pos same, keeps, ← same]
    exact wrote
  · rw [if_neg same]
    exact wrote

end Wrote

namespace Server

variable {s : Server} {w : ConnId} {task : Task}

/-- An action that returns has written its task. -/
abbrev Hands (s : Server) (w : ConnId) (task : Task) (result : Result) : Prop :=
  result.Ends (fun _ t => Wrote s w task t) fun _ _ => True

theorem dropEntry_hands {i j p : Nat} (found : s.workerAt i j p = some w) {next : Server → Result}
    (later : ∀ t, Alike s t → s.Hands w task (next t)) :
    s.Hands w task ((s.dropEntry i j p).andThen next) := by
  rw [Hands, Ends_andThen, dropEntry, found]
  apply unlink_ends
  · intro _
    exact later _ (((Alike.refl s).eraseWorker i j p).unlinked w)
  · intro _
    trivial

theorem send_hands {t : Server} (alike : Alike s t) {response : Response}
    (responseEq : response = task.response) {next : Server → Result}
    (later : ∀ u, Wrote s w task u → s.Hands w task (next u)) :
    s.Hands w task ((t.send w response).andThen next) := by
  rw [Hands, Ends_andThen]
  apply send_ends
  · intro _
    exact later _ (Wrote.sent alike responseEq)
  · intro _
    trivial

theorem handAsync_hands (c : ConnId) {i j p : Nat} (name : Bytes)
    (found : s.workerAt i j p = some w) :
    s.Hands w ⟨none, name, true, (s.conns c).http.body⟩ (s.handAsync c i j p name) := by
  rw [handAsync, found]
  apply dropEntry_hands found
  intro t alike
  have async : Alike s (t.modify w afterAsync) := alike.modify w _ fun _ => ⟨rfl, rfl, rfl⟩
  apply send_hands async rfl
  intro u wrote
  exact wrote.of_conns rfl

theorem handNoid_hands (c : ConnId) {i j p : Nat} (name : Bytes)
    (found : s.workerAt i j p = some w) :
    s.Hands w ⟨none, name, false, (s.conns c).http.body⟩ (s.handNoid c i j p name) := by
  rw [handNoid, found]
  apply dropEntry_hands found
  intro t alike
  have linked := (alike.modify w (fun conn => { conn with client := some c })
    fun _ => ⟨rfl, rfl, rfl⟩).link c
  have waits := linked.modify c (fun conn => { conn with status := .clientWaitResult })
    fun _ => ⟨rfl, rfl, rfl⟩
  have works := waits.modify w (fun conn => { conn with status := .workerWaitResult })
    fun _ => ⟨rfl, rfl, rfl⟩
  apply send_hands works (by rw [works.http c]; rfl)
  intro u wrote
  exact wrote.of_conns rfl

/-- Taking an id changes nothing a response is made of. -/
theorem takeId_output {t u : Server} {d : ConnId} {random : Nat} {id : Bytes}
    (taken : t.takeId d random = some (u, id)) :
    (∃ http generated, (t.conns d).http.requestId t.generated random = .ok (http, generated) ∧
      id = http.id) ∧
      ∀ c, (u.conns c).sendBuffer = (t.conns c).sendBuffer ∧
        (u.conns c).keepAlive = (t.conns c).keepAlive ∧
        (u.conns c).http.body = (t.conns c).http.body ∧
        (u.conns c).http.name = (t.conns c).http.name := by
  rw [takeId] at taken
  cases idEq : (t.conns d).http.requestId t.generated random with
  | error error =>
      rw [idEq] at taken
      cases taken
  | ok found =>
      obtain ⟨http, generated⟩ := found
      rw [idEq] at taken
      cases taken
      refine ⟨⟨http, generated, rfl, rfl⟩, fun c => ?_⟩
      obtain ⟨body, name⟩ := Http.requestId_fields idEq
      rw [modify_conns]
      by_cases same : c = d
      · rw [if_pos same, same]
        exact ⟨rfl, rfl, body, name⟩
      · rw [if_neg same]
        exact ⟨rfl, rfl, rfl, rfl⟩

/-- The same with the states in between left out. -/
theorem Hands.rebase {t : Server} {result : Result}
    (sendBuffer : (t.conns w).sendBuffer = (s.conns w).sendBuffer)
    (keepAlive : (t.conns w).keepAlive = (s.conns w).keepAlive) (hands : t.Hands w task result) :
    s.Hands w task result := by
  apply Program.Ends.mono hands _ fun _ _ _ => trivial
  intro _ u wrote
  rw [Wrote, sendBuffer, keepAlive] at wrote
  exact wrote

theorem handId_hands {c : ConnId} {i j p random : Nat} (name : Bytes) {http : Http}
    {generated : Bool} (found : s.workerAt i j p = some w)
    (idEq : (s.conns c).http.requestId s.generated random = .ok (http, generated)) :
    s.Hands w ⟨some http.id, name, false, (s.conns c).http.body⟩
      (s.handId c i j p name random) := by
  rw [handId, found]
  apply dropEntry_hands found
  intro t alike
  simp only
  cases takenEq : t.takeId c random with
  | none => trivial
  | some found =>
      obtain ⟨taken, id⟩ := found
      obtain ⟨⟨http', generated', idEq', id_eq⟩, output⟩ := takeId_output takenEq
      rw [alike.http, alike.generated, idEq] at idEq'
      cases idEq'
      have named : Alike taken _ := (Alike.refl taken).claimed w c
      apply Hands.rebase (t := taken) ((output w).1.trans (alike.sendBuffer w))
        ((output w).2.1.trans (alike.keepAlive w))
      apply send_hands named
      · rw [named.http c, (output c).2.2.1, alike.http c, id_eq]
        rfl
      · intro u wrote
        apply Wrote.entered
        refine Wrote.modify ?_ w _ fun _ => rfl
        refine Wrote.modify ?_ c _ fun _ => rfl
        refine Wrote.modify ?_ c _ fun _ => rfl
        exact wrote.of_conns rfl

theorem giveAsync_hands (c : ConnId) {i j p : Nat} {message : Message} {body : Bytes}
    (found : s.messageAt i j p = some message) (bodyEq : message.buf = some body) :
    s.Hands c ⟨none, message.name, true, body⟩ (s.giveAsync c i j p) := by
  rw [giveAsync, found]
  simp only
  split
  · rename_i asyncBody _ asyncEq
    rw [bodyEq] at asyncEq
    cases asyncEq
    have async : Alike s ((s.takeMessage i j p message).modify c afterAsync) :=
      ((Alike.refl s).takeMessage i j p message).modify c _ fun _ => ⟨rfl, rfl, rfl⟩
    apply send_hands async rfl
    intro u wrote
    exact wrote.of_conns rfl
  · trivial

theorem giveNoid_hands (c : ConnId) {i j p : Nat} {message : Message} {d : ConnId}
    (found : s.messageAt i j p = some message) (connEq : message.conn = some d) :
    s.Hands c ⟨none, (s.conns d).http.name, false, (s.conns d).http.body⟩
      (s.giveNoid c i j p) := by
  rw [giveNoid, found]
  simp only [connEq]
  have busy := ((Alike.refl s).takeMessage i j p message).modify d
    (fun conn => { conn with status := .busy }) fun _ => ⟨rfl, rfl, rfl⟩
  have works := (busy.claimed c d).modify c
    (fun conn => { conn with status := .workerWaitResult }) fun _ => ⟨rfl, rfl, rfl⟩
  apply send_hands works
  · rw [works.http d]
    rfl
  · intro u wrote
    exact wrote.of_conns rfl

theorem giveId_hands {c : ConnId} {i j p random : Nat} {message : Message} {d : ConnId}
    {http : Http} {generated : Bool} (found : s.messageAt i j p = some message)
    (connEq : message.conn = some d)
    (idEq : (s.conns d).http.requestId s.generated random = .ok (http, generated)) :
    s.Hands c ⟨some http.id, (s.conns d).http.name, false, (s.conns d).http.body⟩
      (s.giveId c i j p random) := by
  rw [giveId, found]
  simp only [connEq]
  have busy := ((Alike.refl s).takeMessage i j p message).modify d
    (fun conn => { conn with status := .busy }) fun _ => ⟨rfl, rfl, rfl⟩
  generalize ((s.takeMessage i j p message).modify d fun conn => { conn with status := .busy }) =
    freed at busy
  cases takenEq : freed.takeId d random with
  | none => trivial
  | some found =>
      obtain ⟨taken, id⟩ := found
      obtain ⟨⟨http', generated', idEq', id_eq⟩, output⟩ := takeId_output takenEq
      rw [busy.http, busy.generated, idEq] at idEq'
      cases idEq'
      have named : Alike taken _ := (Alike.refl taken).claimed c d
      apply Hands.rebase (t := taken) ((output c).1.trans (busy.sendBuffer c))
        ((output c).2.1.trans (busy.keepAlive c))
      apply send_hands named
      · rw [named.http d, (output d).2.2.1, (output d).2.2.2, busy.http d, id_eq]
        rfl
      · intro u wrote
        apply Wrote.entered
        refine Wrote.modify ?_ c _ fun _ => rfl
        refine Wrote.modify ?_ d _ fun _ => rfl
        exact wrote.of_conns rfl

/-- Every dispatch that returns has written its task behind the worker's
buffer. -/
theorem handed_hands {action : Action} (handed : s.handed action = some (w, task)) :
    s.Hands w task (action.apply s) := by
  unfold Server.handed at handed
  split at handed
  · obtain ⟨worker, found, same⟩ := Option.map_eq_some_iff.mp handed
    cases same
    exact handAsync_hands _ _ found
  · obtain ⟨worker, found, same⟩ := Option.map_eq_some_iff.mp handed
    cases same
    exact handNoid_hands _ _ found
  · split at handed
    · rename_i found idEq
      cases handed
      exact handId_hands _ found idEq
    · cases handed
  · split at handed
    · rename_i found
      obtain ⟨body, bodyEq, same⟩ := Option.map_eq_some_iff.mp handed
      cases same
      exact giveAsync_hands _ found bodyEq
    · cases handed
  · split at handed
    · rename_i connEq
      obtain ⟨message, found, connEq⟩ := Option.bind_eq_some_iff.mp connEq
      cases handed
      exact giveNoid_hands _ found connEq
    · cases handed
  · split at handed
    · rename_i connEq
      obtain ⟨message, found, connEq⟩ := Option.bind_eq_some_iff.mp connEq
      split at handed
      · rename_i idEq
        cases handed
        exact giveId_hands found connEq idEq
      · cases handed
    · cases handed
  · cases handed

end Server

/-- The task of the first dispatch in an operation. -/
def Input.firstTask (input : Input) (s : Server) : Option (ConnId × Task) :=
  (input.run s).1.findSome? fun moment =>
    match moment.2.handed moment.1, moment.1.apply moment.2 with
    | some found, .returned _ _ => some found
    | _, _ => none

theorem firstTask_delivered {input : Input} {s : Server} {w : ConnId} {task : Task}
    (found : input.firstTask s = some (w, task)) :
    ∃ moment ∈ (input.run s).1, ∃ after, moment.2.handed moment.1 = some (w, task) ∧
      moment.1.apply moment.2 = .returned after () := by
  obtain ⟨moment, member, momentEq⟩ := List.exists_of_findSome?_eq_some found
  refine ⟨moment, member, ?_⟩
  split at momentEq
  · rename_i handed done
    cases momentEq
    exact ⟨_, handed, done⟩
  · cases momentEq

/-- A worker asks the queue `a`. -/
def oneWorker : List Input :=
  [.accept 0 ⟨false, false, false⟩, .accept 0 ⟨false, false, false⟩,
    .recv 0 (ascii "GET /a HTTP/1.1\r\nType: get\r\n\r\n") atRest]

/-- The bytes the worker was sent are one message: the task as it was meant. -/
def Delivers (s : Server) (w : ConnId) (task : Task) (t : Server) : Prop :=
  ∃ written, (t.conns w).sendBuffer = (s.conns w).sendBuffer ++ written ∧
    parseMessage written = some (task.meant (s.conns w).keepAlive)

/-- A dispatched task reaches the worker as one message if and only if its id
and its name have no line feed in them and no blank or carriage return at their
end.  Sizes are `int`, so no body has 2^31 bytes. -/
theorem task_delivered_iff {s after : Server} {action : Action} {w : ConnId} {task : Task}
    (handed : s.handed action = some (w, task)) (done : action.apply s = .returned after ()) :
    Delivers s w task after ↔ task.Plain ∧ task.body.length < 2 ^ 31 := by
  have wrote : Wrote s w task after := by
    have hands := Server.handed_hands handed
    rw [done] at hands
    exact hands
  constructor
  · intro delivers
    obtain ⟨written, writtenEq, parsed⟩ := delivers
    exact ⟨Task.plain_of_parse parsed, Task.small_of_parse parsed⟩
  · intro plain
    exact ⟨_, wrote, Task.parse_plain _ plain.1 plain.2⟩

/-- A client calls the queue `a` with an id. -/
def plainCall : Input := .recv 1 (ascii "GET /a HTTP/1.1\r\nId: 7\r\n\r\n") atRest

theorem task_delivered_call :
    ∃ (s after : Server) (action : Action),
      s.handed action = some (0, ⟨some (ascii "7"), ascii "a", false, []⟩) ∧
        action.apply s = .returned after () ∧
        Delivers s 0 ⟨some (ascii "7"), ascii "a", false, []⟩ after := by
  have ran : ((afterAll oneWorker (Server.new 1 false [] 0)).bind plainCall.firstTask) =
      some (0, ⟨some (ascii "7"), ascii "a", false, []⟩) := by
    decide +kernel
  obtain ⟨s, sEq, found⟩ := Option.bind_eq_some_iff.mp ran
  obtain ⟨moment, _, after, handed, done⟩ := firstTask_delivered found
  refine ⟨moment.2, after, moment.1, handed, done, ?_⟩
  refine (task_delivered_iff handed done).mpr ⟨⟨?_, by decide, 97, by decide⟩, by decide⟩
  intro id idEq
  cases idEq
  exact ⟨by decide, 55, by decide⟩

/-- A client calls the queue `a` with a line feed inside its JSON id. -/
def rawIdCall : Input :=
  .recv 1 (ascii "POST /rpc/call HTTP/1.1\r\nContent-Length: 28\r\n\r\n\x7b\"method\":\"a\",\"id\":\"1\nX: y\"\x7d")
    atRest

/-- The id brings a header line of its own. -/
theorem raw_id_breaks_message :
    ¬ ∀ (s : Server) (input : Input), Reachable anything s → input.Enabled s →
      ∀ moment ∈ (input.run s).1, ∀ w task after, moment.2.handed moment.1 = some (w, task) →
        moment.1.apply moment.2 = .returned after () → Delivers moment.2 w task after := by
  intro always
  have ran : (afterAll oneWorker (Server.new 1 false [] 0)).map
      (fun s => (decide (rawIdCall.Enabled s), rawIdCall.firstTask s)) =
      some (true, some (0, ⟨some (ascii "1\nX: y"), ascii "a", false,
        ascii "\x7b\"method\":\"a\",\"id\":\"1\nX: y\"\x7d"⟩)) := by
    decide +kernel
  obtain ⟨s, sEq, facts⟩ := Option.map_eq_some_iff.mp ran
  rw [Prod.mk.injEq, decide_eq_true_eq] at facts
  obtain ⟨moment, member, after, handed, done⟩ := firstTask_delivered facts.2
  obtain ⟨written, _, parsed⟩ := always s rawIdCall (reachable_afterAll (.new 1 false [] 0) sEq) facts.1
    moment member _ _ after handed done
  have plain := (Task.plain_of_parse parsed).1 _ rfl
  exact absurd plain.1 (by decide)

end Ijson
