/-
The atomic actions of the server.

Each action is a group of statements of the source between which nothing else
looks at what they change.  What an action is applied to (the worker or task at
a position, the client of a worker) is read from the state, so an action can
only be performed where it makes sense; anywhere else it is a fault.
-/

import Ijson.Server

namespace Ijson

inductive Action where
  -- connections and their bytes
  | accept (loop : Nat) (garbage : Garbage)
  | receive (loop : Nat) (chunk : Bytes)
  | count (change : Stats → Stats)
  | edit (c : ConnId) (taken : Bytes) (change : Http → Http)
  | begin (c : ConnId) (taken line : Bytes)
  | endHead (c : ConnId) (taken body : Bytes)
  | complete (c : ConnId)
  | rewind (c : ConnId)
  | shut (c : ConnId)
  | retire (c : ConnId)
  | reap (loop : Nat)
  | caught (error : Exc)
  | died (loop : Nat) (error : Exc)
  | flush (c : ConnId) (sent : Option Nat)
  -- answers to the connection that is being served
  | refuseHeader (c : ConnId)
  | respond (c : ConnId) (response : Response)
  | conclude (c : ConnId) (response : Response)
  -- results
  | postNoid (c : ConnId)
  | settle (id : Bytes) (worker : Option ConnId)
  -- a worker's request
  | workerMode (c : ConnId) (on : Bool)
  | noIdMode (c : ConnId)
  | failMode (c : ConnId)
  | beginAdd (c : ConnId)
  | resolve (c : ConnId) (key : Bytes)
  | describe (i : Nat) (info : Bytes)
  | visit (i now : Nat)
  | lock (i : Nat) (on : Bool)
  | nameConn (c : ConnId) (random : Nat)
  | leaveList (c : ConnId)
  | dropDirects (c : ConnId)
  | wake (c : ConnId)
  | dropMessage (i j p : Nat)
  | refuseNoId (i j p : Nat)
  | refuseCollision (i j p random : Nat)
  | giveAsync (c : ConnId) (i j p : Nat) (more : Bool)
  | giveNoid (c : ConnId) (i j p : Nat)
  | giveId (c : ConnId) (i j p random : Nat)
  | register (c : ConnId) (i : Nat)
  | subscribe (c : ConnId) (i : Nat) (name : Bytes)
  | finish (c : ConnId)
  | collect
  -- a client's request
  | dropEntry (i j p : Nat)
  | handAsync (c : ConnId) (i j p : Nat) (name : Bytes)
  | handNoid (c : ConnId) (i j p : Nat) (name : Bytes)
  | handId (c : ConnId) (i j p : Nat) (name : Bytes) (random : Nat)
  | undoNoId (c : ConnId) (i j p : Nat)
  | undoCollision (c : ConnId) (i j p random : Nat)
  | enqueueSync (c : ConnId) (i : Nat) (name : Bytes)
  | enqueueAsync (c : ConnId) (i : Nat) (name : Bytes)
  -- pub, create, delete
  | newDirect (i : Nat) (data source : Bytes)
  | publishClaim (i : Nat) (w : ConnId) (d : Nat)
  | publishPush (i : Nat) (w : ConnId) (d : Nat)
  | releaseDirect (d : Nat)
  | create (key : Bytes)
  | unhook (key : Bytes)
  | closeMessage (j : Nat)
  | closeWorker (j : Nat)
  | popItem
  | bury
  -- timeouts, cleaning, disconnects
  | expire (i j p now : Nat)
  | discard (i j p : Nat)
  | eraseOwn (c : ConnId)
  | failNoid (c : ConnId)
  | releaseClient (c : ConnId)

/-- `Loop::client_request`: the place behind the last task that is not less
urgent, searched from the back. -/
def insertMessage (message : Message) (clients : List Message) : List Message :=
  let less := fun other : Message => decide (¬ message.priority ≤ other.priority)
  (clients.reverse.dropWhile less).reverse ++
    message :: (clients.reverse.takeWhile less).reverse

namespace Server

/-- The block at `HTTP_START`. -/
def begin (s : Server) (c : ConnId) (taken line : Bytes) : Result :=
  let s := (s.note (.taken c taken)).modify c fun conn =>
    { conn with http := conn.http.clearRequest conn.workerMode }
  let conn := s.conns c
  let reset : Result :=
    if conn.status = .workerWaitResult then
      if conn.noid then .returned s () else .thrown s (.exception "noid is false")
    else if conn.workerMode then
      if conn.status = .workerModeAsync then .returned s ()
      else .thrown s (.exception "Wrong status for worker")
    else
      let s := s.modify c fun conn => { conn with failOnDisconnect := false }
      let released : Result :=
        match conn.client with
        | none => .returned s ()
        | some d => s.unlink d
      released.andThen fun s =>
        .returned (s.modify c fun conn => { conn with client := none, noid := false }) ()
  reset.andThen fun s =>
    let method := Http.readMethod line
    .returned (s.modify c fun conn =>
      { conn with
        http := { conn.http with
          path := method.1
          httpVersion := method.2
          step := if method.1.isEmpty then conn.http.step else .header }
        closed := conn.closed || method.1.isEmpty }) ()

/-- The end of the header lines; `body` is what has arrived of the body. -/
def endHead (s : Server) (c : ConnId) (taken body : Bytes) : Server :=
  (s.note (.taken c taken)).modify c fun conn =>
    let http := conn.http
    { conn with http := { http with
      body := if http.contentLength ≠ 0 then body else http.body
      step := if http.contentLength ≠ 0 ∧ body.length < http.contentLength then .readBody
        else .requestCompleted
      buffer := http.buffer.clear } }

/-- The first statements of `header_completed`. -/
def complete (s : Server) (c : ConnId) : Server :=
  let conn := s.conns c
  let stage :=
    if conn.workerMode then
      if conn.status = .workerModeAsync then .asking c else .serving c
    else if conn.noid then .serving c
    else .asking c
  ({ s with stats := { s.stats with request := s.stats.request + 1 } }.modify c fun conn =>
    { conn with keepAlive := conn.http.httpVersion = 11 }).note (.request c conn.http.request)
    |>.enter stage

/-- `delete` of the dead connections of a loop. -/
def reapList (s : Server) : List ConnId → Result
  | [] => .returned s ()
  | c :: rest =>
      if (s.conns c).freed then .fault
      else if (s.conns c).link = 0 then
        (s.modify c fun conn => { conn with freed := true }).reapList rest
      else s.reapList rest

/-- What is left of the direct message after a write goes to the buffer. -/
def popDirect (s : Server) (c : ConnId) (sent : Option Nat) : Result :=
  match (s.conns c).directMessage with
  | [] => .returned s ()
  | d :: rest =>
      let dm := s.direct d
      let s := (s.modify c fun conn => { conn with directMessage := rest }).note (.task c dm.source)
      (s.unlinkDirect d).andThen fun s =>
        match sent with
        | none => .thrown (s.enter (.leaving c)) (.exception "Not implemented: sent < 0")
        | some sent =>
            .returned (({ s with stats := { s.stats with send := s.stats.send + sent } }.modify c
              fun conn => { conn with sendBuffer := conn.sendBuffer ++ dm.data.drop sent }).note
                (.message c d dm.data)) ()

/-- `on_send`; `sent` is the result of `::send`, `none` when it is negative. -/
def flush (s : Server) (c : ConnId) (sent : Option Nat) : Result :=
  let conn := s.conns c
  let written : Result :=
    if conn.sendBuffer.isEmpty then s.popDirect c sent
    else
      match sent with
      | none => .thrown s (.exception "Not implemented: sent < 0")
      | some sent =>
          .returned ({ s with stats := { s.stats with send := s.stats.send + sent } }.modify c
            fun conn => { conn with sendBuffer := conn.sendBuffer.drop sent }) ()
  written.andThen fun s =>
    .returned (s.modify c fun conn =>
      if conn.sendBuffer.isEmpty then
        if conn.keepAlive then { conn with writing := false } else { conn with closed := true }
      else conn) ()

/-- `Loop::worker_result_noid`. -/
def postNoid (s : Server) (c : ConnId) : Result :=
  let s := { s with stats := { s.stats with result := s.stats.result + 1 } }
  match (s.conns c).client with
  | none => .thrown s (.exception "No connected client for noid")
  | some d =>
      let body := (s.conns c).http.body
      let s := s.modify c fun conn =>
        if conn.workerMode then { conn with client := none }
        else { conn with client := none, noid := false, failOnDisconnect := false }
      (s.unlink d).andThen fun s =>
        if (s.conns d).closed then .returned (s.enter (.asking c)) ()
        else
          ((s.modify d fun conn => { conn with status := .net }).send d
            ⟨"200 OK", [], .bytes body⟩).andThen fun s => .returned (s.enter (.asking c)) ()

/-- `Loop::worker_result` behind its lookup; without a worker it is the answer
503 of `on_disconnect`. -/
def settle (s : Server) (id : Bytes) (worker : Option ConnId) : Result :=
  match s.waiting id with
  | none => .fault
  | some d =>
      ((s.eraseWait id).unlink d).andThen fun s =>
        if (s.conns d).closed then .returned s ()
        else
          let response : Response :=
            match worker with
            | some c => ⟨"200 OK", [("Id", id)], .bytes (s.conns c).http.body⟩
            | none => ⟨"503 Service Unavailable", [("Id", id)], .code (-1)⟩
          (s.send d response).andThen fun s =>
            .returned (s.modify d fun conn => { conn with status := .net }) ()

/-- `get_queue(name, true)` for a worker. -/
def resolve (s : Server) (c : ConnId) (key : Bytes) : Result :=
  match s.registry.getQueue s.threads key true with
  | .returned registry (some i) =>
      let s := { s with registry := registry }
      match s.line i with
      | none => .fault
      | some line => .returned (s.modify c fun conn => { conn with asked := line.name :: conn.asked }) ()
  | .returned _ none => .fault
  | .thrown registry error => .thrown { s with registry := registry } error
  | .fault => .fault

/-- `WorkerItem::pop`. -/
def leaveList (s : Server) (c : ConnId) : Result :=
  match (s.conns c).workerItem with
  | none => .fault
  | some i =>
      match s.line i with
      | none => .fault
      | some line =>
          ((s.setLine i { line with workers := line.workers.erase c }).unlink c).noexcept.andThen
            fun s => .returned (s.modify c fun conn => { conn with workerItem := none }) ()

def dropDirects (s : Server) (c : ConnId) : Result :=
  let messages := (s.conns c).directMessage
  (s.modify c fun conn => { conn with directMessage := [] }).unlinkDirects messages

/-- The id of a client as a dispatch finds it, with what that leaves behind. -/
def takeId (s : Server) (d : ConnId) (random : Nat) : Option (Server × Bytes) :=
  match (s.conns d).http.requestId s.generated random with
  | .error _ => none
  | .ok (http, generated) =>
      some ({ s with generated := if generated then s.generated + 1 else s.generated }.modify d
        fun conn => { conn with http := http }, http.id)

/-- A live client is dropped: its JSON cannot be read. -/
def refuseNoId (s : Server) (i j p : Nat) : Result :=
  match s.messageAt i j p with
  | none => .fault
  | some message =>
      match message.conn with
      | none => .fault
      | some d =>
          ((s.takeMessage i j p message).modify d fun conn => { conn with status := .busy }).send d
            ⟨"400 No Id", [], .code (-1)⟩

/-- A live client is dropped: its id is in use. -/
def refuseCollision (s : Server) (i j p random : Nat) : Result :=
  match s.messageAt i j p with
  | none => .fault
  | some message =>
      match message.conn with
      | none => .fault
      | some d =>
          match (s.takeMessage i j p message).takeId d random with
          | none => .fault
          | some (s, _) =>
              (s.send d ⟨"400 Collision Id", [], .code (-1)⟩).andThen fun s =>
                .returned (s.modify d fun conn => { conn with status := .net }) ()

def queueName (s : Server) (i : Nat) : Bytes :=
  match s.line i with
  | none => []
  | some line => line.name

def giveAsync (s : Server) (c : ConnId) (i j p : Nat) : Result :=
  match s.messageAt i j p with
  | none => .fault
  | some message =>
      match message.conn, message.buf with
      | none, some body =>
          let name := s.queueName i
          (((s.takeMessage i j p message).modify c afterAsync).send c
            ⟨"200 OK", [("Name", message.name), ("Async", ascii "true")], .bytes body⟩).andThen
            fun s => .returned (((s.note (.handed message.ticket c message.name body)).note
              (.task c name)).enter (.adding c .taken)) ()
      | _, _ => .fault

/-- A synchronous task for a worker that answers on the same connection. -/
def giveNoid (s : Server) (c : ConnId) (i j p : Nat) : Result :=
  match s.messageAt i j p with
  | none => .fault
  | some message =>
      match message.conn with
      | none => .fault
      | some d =>
          let name := s.queueName i
          let s := (s.takeMessage i j p message).modify d fun conn => { conn with status := .busy }
          let s :=
            if (s.conns c).failOnDisconnect then
              (s.modify c fun conn => { conn with client := some d }).link d
            else s
          let s := s.modify c fun conn => { conn with status := .workerWaitResult }
          (s.send c ⟨"200 OK", [("Name", (s.conns d).http.name)], .bytes (s.conns d).http.body⟩).andThen
            fun s => .returned ((s.note (.task c name)).enter (.adding c .taken)) ()

/-- A synchronous task for a worker that posts its result by id. -/
def giveId (s : Server) (c : ConnId) (i j p random : Nat) : Result :=
  match s.messageAt i j p with
  | none => .fault
  | some message =>
      match message.conn with
      | none => .fault
      | some d =>
          let name := s.queueName i
          let s := (s.takeMessage i j p message).modify d fun conn => { conn with status := .busy }
          match s.takeId d random with
          | none => .fault
          | some (s, id) =>
              let s :=
                if (s.conns c).failOnDisconnect then
                  (s.modify c fun conn => { conn with client := some d }).link d
                else s
              let http := (s.conns d).http
              (s.send c ⟨"200 OK", [("Id", id), ("Name", http.name)], .bytes http.body⟩).andThen fun s =>
                .returned (((((s.insertWait id d).link d).modify c fun conn =>
                  { conn with status := .net }).note (.task c name)).enter (.adding c .taken)) ()

def register (s : Server) (c : ConnId) (i : Nat) : Result :=
  let j := (s.conns c).nloop
  match s.queue i j with
  | none => .fault
  | some queue =>
      .returned ((((s.setQueue i j { queue with workers := queue.workers ++ [c] }).link c).modify c
        fun conn => { conn with status := .workerWaitJob }).enter (.adding c .waiting)) ()

/-- `WorkerList::push`, and the name a `get+` worker is subscribed under. -/
def subscribe (s : Server) (c : ConnId) (i : Nat) (name : Bytes) : Result :=
  match s.line i with
  | none => .fault
  | some line =>
      .returned (((s.setLine i { line with workers := c :: line.workers }).link c).modify c
        fun conn => { conn with
          workerItem := some i
          workerSubName := if !conn.workerMode && conn.noid then name else conn.workerSubName }) ()

def collect (s : Server) : Result :=
  match s.gc with
  | [] => .fault
  | message :: rest => { s with gc := rest }.deleteMessage message

/-- `it = workers.erase(it); worker->unlink()`. -/
def dropEntry (s : Server) (i j p : Nat) : Result :=
  match s.workerAt i j p with
  | none => .fault
  | some w => (s.eraseWorker i j p).unlink w

def handAsync (s : Server) (c : ConnId) (i j p : Nat) (name : Bytes) : Result :=
  match s.workerAt i j p with
  | none => .fault
  | some w =>
      let body := (s.conns c).http.body
      let queue := s.queueName i
      (s.dropEntry i j p).andThen fun s =>
        ((s.modify w afterAsync).send w
          ⟨"200 OK", [("Name", name), ("Async", ascii "true")], .bytes body⟩).andThen fun s =>
          .returned ((({ s with tickets := s.tickets + 1 }.note (.accepted s.tickets i name body)).note
            (.handed s.tickets w name body)).note (.task w queue)) ()

def handNoid (s : Server) (c : ConnId) (i j p : Nat) (name : Bytes) : Result :=
  match s.workerAt i j p with
  | none => .fault
  | some w =>
      let queue := s.queueName i
      (s.dropEntry i j p).andThen fun s =>
        let s := (s.modify w fun conn => { conn with client := some c }).link c
        let s := s.modify c fun conn => { conn with status := .clientWaitResult }
        let s := s.modify w fun conn => { conn with status := .workerWaitResult }
        (s.send w ⟨"200 OK", [("Name", name)], .bytes (s.conns c).http.body⟩).andThen fun s =>
          .returned ((s.note (.task w queue)).enter (.answered c)) ()

def handId (s : Server) (c : ConnId) (i j p : Nat) (name : Bytes) (random : Nat) : Result :=
  match s.workerAt i j p with
  | none => .fault
  | some w =>
      let queue := s.queueName i
      (s.dropEntry i j p).andThen fun s =>
        match s.takeId c random with
        | none => .fault
        | some (s, id) =>
            let s :=
              if (s.conns w).failOnDisconnect then
                (s.modify w fun conn => { conn with client := some c }).link c
              else s
            (s.send w ⟨"200 OK", [("Id", id), ("Name", name)], .bytes (s.conns c).http.body⟩).andThen
              fun s =>
                let s := (s.insertWait id c).link c
                let s := s.modify c fun conn => { conn with status := .clientWaitResult }
                let s := s.modify w fun conn => { conn with status := .net }
                .returned ((s.note (.task w queue)).enter (.answered c)) ()

/-- The claim of a worker is taken back and the client refused. -/
def undo (s : Server) (c : ConnId) (i j p : Nat) (refusal : Response) : Result :=
  match s.workerAt i j p with
  | none => .fault
  | some w =>
      (s.dropEntry i j p).andThen fun s =>
        let s := (s.link w).modify w fun conn => { conn with status := .workerWaitJob }
        let own := (s.conns w).nloop
        match s.queue i own with
        | none => .fault
        | some queue =>
            ((s.setQueue i own { queue with workers := w :: queue.workers }).send c refusal).andThen
              fun s => .returned (s.enter (.answered c)) ()

def enqueue (s : Server) (c : ConnId) (i : Nat) (message : Message) : Result :=
  let j := (s.conns c).nloop
  match s.queue i j with
  | none => .fault
  | some queue =>
      .returned ((s.setQueue i j { queue with clients := insertMessage message queue.clients }).modify c
        fun conn => { conn with http := { conn.http with requiredWorker := [] } }) ()

def enqueueSync (s : Server) (c : ConnId) (i : Nat) (name : Bytes) : Result :=
  let http := (s.conns c).http
  let message := { Message.empty with
    priority := http.priority
    requiredWorker := http.requiredWorker
    conn := some c }
  (s.enqueue c i message).andThen fun s =>
    .returned (((s.link c).modify c fun conn =>
      { conn with
        http := { conn.http with name := name }
        status := .clientWaitResult }).enter (.answered c)) ()

def enqueueAsync (s : Server) (c : ConnId) (i : Nat) (name : Bytes) : Result :=
  let http := (s.conns c).http
  let message := { Message.empty with
    priority := http.priority
    requiredWorker := http.requiredWorker
    buf := some http.body
    name := name
    ticket := s.tickets }
  (s.enqueue c i message).andThen fun s =>
    .returned (({ s with tickets := s.tickets + 1 }.note
      (.accepted s.tickets i name http.body)).modify c fun conn =>
        { conn with http := { conn.http with body := [] } }) ()

/-- A subscriber gets the message; one that waits for a job is released by it
and its socket set to write. -/
def publish (s : Server) (w : ConnId) (d : Nat) (claim : Bool) : Server :=
  (s.linkDirect d).modify w fun conn =>
    let conn := { conn with directMessage := conn.directMessage ++ [d] }
    if claim then { afterAsync conn with writing := true } else conn

/-- `delete_queue` up to its loops. -/
def unhook (s : Server) (key : Bytes) : Result :=
  match s.registry.mapper.del key, s.registry.removeQueue key with
  | some _, some (registry, none) => .returned { s with registry := registry, dying := none } ()
  | some (_, n), some (registry, some line) =>
      if line.locked then .fault
      else .returned ({ s with registry := registry, dying := some line }.note (.deleted (n - 1))) ()
  | _, _ => .fault

def closeMessage (s : Server) (j : Nat) : Result :=
  match s.dying with
  | none => .fault
  | some line =>
      match line.queue[j]? with
      | none => .fault
      | some queue =>
          match queue.clients with
          | [] => .fault
          | message :: rest =>
              let s := { s with
                dying := some { line with queue := line.queue.set j { queue with clients := rest } }
                gc := s.gc ++ [message] }
              match message.conn with
              | none => .returned s ()
              | some d =>
                  if (s.conns d).closed then .returned s ()
                  else s.send d ⟨"400 Closed", [], .code (-1)⟩

def closeWorker (s : Server) (j : Nat) : Result :=
  match s.dying with
  | none => .fault
  | some line =>
      match line.queue[j]? with
      | none => .fault
      | some queue =>
          match queue.workers with
          | [] => .fault
          | w :: rest =>
              let s := { s with
                dying := some { line with queue := line.queue.set j { queue with workers := rest } } }
              (s.unlink w).andThen fun s =>
                if (s.conns w).closed then .returned s ()
                else s.send w ⟨"400 Closed", [], .code (-1)⟩

/-- One step of `WorkerList::~WorkerList`. -/
def popItem (s : Server) : Result :=
  match s.dying with
  | none => .fault
  | some line =>
      match line.workers with
      | [] => .fault
      | c :: rest =>
          ({ s with dying := some { line with workers := rest } }.unlink c).noexcept.andThen fun s =>
            .returned (s.modify c fun conn => { conn with workerItem := none }) ()

def expire (s : Server) (i j p now : Nat) : Result :=
  match s.workerAt i j p with
  | none => .fault
  | some w =>
      ((s.modify w afterAsync).send w ⟨"408 Timeout", [], .nothing⟩).andThen fun s =>
        .returned (s.modify w fun conn => { conn with http := { conn.http with
          pingTimeout := u32 (now + conn.http.ping) } }) ()

def discard (s : Server) (i j p : Nat) : Result :=
  match s.messageAt i j p with
  | none => .fault
  | some message => (s.eraseMessage i j p).deleteMessage message

/-- `on_disconnect`: the entry under the connection's id is erased and the
connection unlinked. -/
def eraseOwn (s : Server) (c : ConnId) : Result :=
  (s.eraseWait (s.conns c).http.id).unlink c

/-- `conn->client->unlink(); conn->client = NULL`. -/
def releaseClient (s : Server) (c : ConnId) : Result :=
  match (s.conns c).client with
  | none => .fault
  | some d =>
      (s.unlink d).andThen fun s =>
        .returned (s.modify c fun conn => { conn with client := none }) ()

/-- `on_disconnect` of a worker that holds a client. -/
def failNoid (s : Server) (c : ConnId) : Result :=
  match (s.conns c).client with
  | none => .thrown s (.exception "No client")
  | some d =>
      let answered : Result :=
        if (s.conns d).closed then .returned s ()
        else s.send d ⟨"503 Service Unavailable", [], .code (-1)⟩
      answered.andThen fun s =>
        (s.modify d fun conn => { conn with status := .net }).releaseClient c

end Server

/-- The effect of an action. -/
def Action.apply (action : Action) (s : Server) : Result :=
  match action with
  | .accept loop garbage =>
      .returned ({ s with
        accepted := s.accepted + 1
        stats := { s.stats with connect := s.stats.connect + 1 } }.set s.accepted
          (Conn.new loop garbage)) ()
  | .receive loop chunk =>
      .returned { s with
        stats := { s.stats with recv := s.stats.recv + chunk.length }
        arrays := Function.update s.arrays loop (chunk ++ (s.arrays loop).drop chunk.length) } ()
  | .count change => .returned { s with stats := change s.stats } ()
  | .edit c taken change =>
      .returned ((s.note (.taken c taken)).modify c fun conn => { conn with http := change conn.http }) ()
  | .begin c taken line => s.begin c taken line
  | .endHead c taken body => .returned (s.endHead c taken body) ()
  | .complete c => .returned (s.complete c) ()
  | .rewind c =>
      .returned ((s.modify c fun conn => { conn with http := { conn.http with step := .start } }).enter
        .idle) ()
  | .shut c => .returned ((s.modify c fun conn => { conn with closed := true }).enter (.leaving c)) ()
  | .retire c =>
      (s.unlink c).andThen fun s =>
        .returned ((s.modify c fun conn => { conn with connected := false }).enter .idle) ()
  | .reap loop =>
      ({ s with dead := s.dead.filter fun c => (s.conns c).nloop ≠ loop }).reapList
        (s.dead.filter fun c => (s.conns c).nloop = loop)
  | .caught error => .returned (s.note (.caught error)) ()
  | .died loop error =>
      .returned (({ s with stopped := loop :: s.stopped }.note (.died loop error)).enter .idle) ()
  | .flush c sent => s.flush c sent
  | .refuseHeader c => s.send c ⟨"400 Invalid data", [], .code (-32700)⟩
  | .respond c response =>
      (s.send c response).andThen fun s => .returned (s.enter (.answered c)) ()
  | .conclude c response =>
      (s.send c response).andThen fun s =>
        .returned ((s.modify c fun conn => { conn with status := .net }).enter (.answered c)) ()
  | .postNoid c => s.postNoid c
  | .settle id worker => s.settle id worker
  | .workerMode c on => .returned (s.modify c fun conn => { conn with workerMode := on }) ()
  | .noIdMode c =>
      .returned (s.modify c fun conn => { conn with noid := true, failOnDisconnect := true }) ()
  | .failMode c => .returned (s.modify c fun conn => { conn with failOnDisconnect := true }) ()
  | .beginAdd c =>
      .returned ((s.modify c fun conn => { conn with asked := [] }).enter (.adding c .fresh)) ()
  | .resolve c key => s.resolve c key
  | .describe i info =>
      match s.line i with
      | none => .fault
      | some line =>
          let text := Json.unescape info
          .returned (s.setLine i { line with info := if text.2.isNone then text.1 else [] }) ()
  | .visit i now =>
      match s.line i with
      | none => .fault
      | some line => .returned (s.setLine i { line with lastWorker := now }) ()
  | .lock i on =>
      match s.line i with
      | none => .fault
      | some line => .returned (s.setLine i { line with locked := on }) ()
  | .nameConn c random =>
      .returned ({ s with generated := s.generated + 1 }.modify c fun conn =>
        { conn with http := { conn.http with connectionId := generateId s.generated random } }) ()
  | .leaveList c => s.leaveList c
  | .dropDirects c => s.dropDirects c
  | .wake c =>
      .returned ((s.modify c fun conn => { conn with writing := true }).enter (.adding c .taken)) ()
  | .dropMessage i j p =>
      match s.messageAt i j p with
      | none => .fault
      | some message => .returned (s.takeMessage i j p message) ()
  | .refuseNoId i j p => s.refuseNoId i j p
  | .refuseCollision i j p random => s.refuseCollision i j p random
  | .giveAsync c i j p _ => s.giveAsync c i j p
  | .giveNoid c i j p => s.giveNoid c i j p
  | .giveId c i j p random => s.giveId c i j p random
  | .register c i => s.register c i
  | .subscribe c i name => s.subscribe c i name
  | .finish c => .returned (s.enter (.answered c)) ()
  | .collect => s.collect
  | .dropEntry i j p => s.dropEntry i j p
  | .handAsync c i j p name => s.handAsync c i j p name
  | .handNoid c i j p name => s.handNoid c i j p name
  | .handId c i j p name random => s.handId c i j p name random
  | .undoNoId c i j p => s.undo c i j p ⟨"400 No Id", [], .code (-1)⟩
  | .undoCollision c i j p random =>
      match s.takeId c random with
      | none => .fault
      | some (s, _) => s.undo c i j p ⟨"400 Collision Id", [], .code (-1)⟩
  | .enqueueSync c i name => s.enqueueSync c i name
  | .enqueueAsync c i name => s.enqueueAsync c i name
  | .newDirect _ data source =>
      .returned { s with
        direct := Function.update s.direct s.directs
          { data := data, counter := 1, freed := false, source := source }
        directs := s.directs + 1 } ()
  | .publishClaim _ w d => .returned (s.publish w d true) ()
  | .publishPush _ w d => .returned (s.publish w d false) ()
  | .releaseDirect d => s.unlinkDirect d
  | .create key =>
      match s.registry.getQueue s.threads key true with
      | .returned registry _ => .returned { s with registry := registry } ()
      | .thrown registry error => .thrown { s with registry := registry } error
      | .fault => .fault
  | .unhook key => s.unhook key
  | .closeMessage j => s.closeMessage j
  | .closeWorker j => s.closeWorker j
  | .popItem => s.popItem
  | .bury => .returned { s with dying := none } ()
  | .expire i j p now => s.expire i j p now
  | .discard i j p => s.discard i j p
  | .eraseOwn c => s.eraseOwn c
  | .failNoid c => s.failNoid c
  | .releaseClient c => s.releaseClient c

end Ijson
