/-
The state all loops share, and the helpers that change one part of it.

`stage` and `log` are not in the source.  `stage` tells how far the handling of
the current request is, and `log` keeps what has happened: bytes taken, requests
completed, responses given, messages taken up, tasks accepted and handed over.
-/

import Mathlib.Logic.Function.Basic
import Ijson.Connect
import Ijson.Registry

namespace Ijson

/-- `source` is not in the source: the name of the queue it was published to. -/
structure DirectMessage where
  data : Bytes
  counter : Nat
  freed : Bool
  source : Bytes

/-- What `header_completed` reads of a request. -/
structure Request where
  path : Bytes
  name : Bytes
  id : Bytes
  type : RequestType
  priority : Int
  requiredWorker : Bytes
  body : Bytes
  deriving DecidableEq

def Http.request (http : Http) : Request :=
  { path := http.path
    name := http.name
    id := http.id
    type := http.type
    priority := http.priority
    requiredWorker := http.requiredWorker
    body := http.body }

/-- A message on its way to a client. -/
inductive Said where
  | response (keepAlive : Bool) (response : Response)
  | published (d : Nat) (data : Bytes)
  deriving DecidableEq

inductive Event where
  | taken (c : ConnId) (bytes : Bytes)
  | request (c : ConnId) (request : Request)
  | response (c : ConnId) (keepAlive : Bool) (given : Response)
  | message (c : ConnId) (d : Nat) (data : Bytes)
  | accepted (ticket slot : Nat) (name body : Bytes)
  | handed (ticket : Nat) (worker : ConnId) (name body : Bytes)
  | deleted (slot : Nat)
  | task (worker : ConnId) (queue : Bytes)
  | caught (error : Exc)
  | died (loop : Nat) (error : Exc)
  deriving DecidableEq

/-- What the connection is told: a response it is given, or a message that is taken up. -/
def Event.said (c : ConnId) : Event → Option Said
  | .response d keepAlive given => if d = c then some (.response keepAlive given) else none
  | .message d number data => if d = c then some (.published number data) else none
  | _ => none

/-- A response for the connection. -/
def Event.tells (c : ConnId) : Event → Bool
  | .response d _ _ => d = c
  | _ => false

/-- How far `add_worker` is: no name looked up yet, registered in the queues
so far, or given a task. -/
inductive Phase where
  | fresh
  | waiting
  | taken
  deriving DecidableEq

/-- `serving`: the request is complete and not answered.  `asking`: the same,
and the connection holds no client.  `adding`: it is being registered as a
worker.  `answered`: the request has had its effect.  `leaving`: the connection
is closed, or about to be, and gives up what it holds. -/
inductive Stage where
  | idle
  | serving (c : ConnId)
  | asking (c : ConnId)
  | adding (c : ConnId) (phase : Phase)
  | answered (c : ConnId)
  | leaving (c : ConnId)
  deriving DecidableEq

structure Stats where
  connect : Nat
  request : Nat
  call : Nat
  result : Nat
  recv : Nat
  send : Nat
  ioevent : Nat

/-- `arrays` are the receive arrays of the loops and `stopped` the loops an
exception has ended.  `gc` holds the messages taken out of a deque whose `GC`
has not run, `dying` the queue that `delete_queue` is emptying. -/
structure Server where
  threads : Nat
  jsonrpc2 : Bool
  version : Bytes
  startTime : Nat
  stats : Stats
  accepted : Nat
  conns : ConnId → Conn
  registry : Registry
  waitResponse : List (Bytes × ConnId)
  direct : Nat → DirectMessage
  directs : Nat
  dead : List ConnId
  generated : Nat
  arrays : Nat → Bytes
  stopped : List Nat
  gc : List Message
  dying : Option QueueLine
  stage : Stage
  tickets : Nat
  log : List Event

/-- What a run takes from outside: the clock and the values of `std::rand()`
and of an uninitialised `int`, by the moment they are read. -/
structure Env where
  now : Nat → Nat
  random : Nat → Nat
  garbage : Nat → Int

/-- An environment in which nothing happens. -/
def atRest : Env :=
  { now := fun _ => 0
    random := fun _ => 0
    garbage := fun _ => 0 }

/-- A result of one action on the server. -/
abbrev Result := Outcome Server Exc Unit

def Result.andThen (result : Result) (next : Server → Result) : Result :=
  match result with
  | .returned server _ => next server
  | .thrown server error => .thrown server error
  | .fault => .fault

/-- A destructor that throws ends the process. -/
def Result.noexcept (result : Result) : Result :=
  match result with
  | .returned server _ => .returned server ()
  | _ => .fault

def Message.empty : Message :=
  { priority := 0
    requiredWorker := []
    conn := none
    buf := none
    name := []
    ticket := 0 }

/-- What `_socket_status` and the members without initialiser may hold in a
new connection. -/
structure Garbage where
  keepAlive : Bool
  failOnDisconnect : Bool
  noid : Bool

def Conn.new (loop : Nat) (garbage : Garbage) : Conn :=
  { http := Http.new
    status := .net
    failOnDisconnect := garbage.failOnDisconnect
    noid := garbage.noid
    workerMode := false
    client := none
    workerItem := none
    workerSubName := []
    directMessage := []
    closed := false
    writing := false
    link := 1
    connected := true
    freed := false
    keepAlive := garbage.keepAlive
    sendBuffer := []
    nloop := loop
    asked := [] }

namespace Server

def new (threads : Nat) (jsonrpc2 : Bool) (version : Bytes) (startTime : Nat) : Server :=
  { threads := threads
    jsonrpc2 := jsonrpc2
    version := version
    startTime := startTime
    stats := { connect := 0, request := 0, call := 0, result := 0, recv := 0, send := 0, ioevent := 0 }
    accepted := 0
    conns := fun _ => { Conn.new 0 ⟨false, false, false⟩ with link := 0, connected := false, closed := true }
    registry := Registry.new
    waitResponse := []
    direct := fun _ => { data := [], counter := 0, freed := true, source := [] }
    directs := 0
    dead := []
    generated := 0
    arrays := fun _ => []
    stopped := []
    gc := []
    dying := none
    stage := .idle
    tickets := 0
    log := [] }

def set (s : Server) (c : ConnId) (conn : Conn) : Server :=
  { s with conns := Function.update s.conns c conn }

def modify (s : Server) (c : ConnId) (change : Conn → Conn) : Server :=
  s.set c (change (s.conns c))

def enter (s : Server) (stage : Stage) : Server := { s with stage := stage }

def note (s : Server) (event : Event) : Server := { s with log := s.log ++ [event] }

/-- What a connection has been told, in this order. -/
def said (s : Server) (c : ConnId) : List Said := s.log.filterMap (Event.said c)

def line (s : Server) (i : Nat) : Option QueueLine := (s.registry.queueList[i]?).join

def setLine (s : Server) (i : Nat) (line : QueueLine) : Server :=
  { s with registry := { s.registry with queueList := s.registry.queueList.set i (some line) } }

/-- The deques of loop `j` in queue `i`. -/
def queue (s : Server) (i j : Nat) : Option Queue := (s.line i).bind fun line => line.queue[j]?

def setQueue (s : Server) (i j : Nat) (queue : Queue) : Server :=
  match s.line i with
  | none => s
  | some line => s.setLine i { line with queue := line.queue.set j queue }

def workerAt (s : Server) (i j p : Nat) : Option ConnId :=
  (s.queue i j).bind fun queue => queue.workers[p]?

def messageAt (s : Server) (i j p : Nat) : Option Message :=
  (s.queue i j).bind fun queue => queue.clients[p]?

/-- `Connect::link`. -/
def link (s : Server) (c : ConnId) : Server := s.modify c fun conn => { conn with link := conn.link + 1 }

/-- `Connect::unlink`. -/
def unlink (s : Server) (c : ConnId) : Result :=
  let link := (s.conns c).link - 1
  let after := s.modify c fun conn => { conn with link := link }
  if link = 0 then .returned { after with dead := after.dead ++ [c] } ()
  else if link < 0 then .thrown after (.exception "Wrong link count")
  else .returned after ()

/-- `conn->send`: the whole of a response.  `done` throws when the connection
is closed; the lines before it are in the buffer by then. -/
def send (s : Server) (c : ConnId) (response : Response) : Result :=
  let conn := s.conns c
  let head := s.modify c fun conn =>
    { conn with sendBuffer := conn.sendBuffer ++ response.head conn.keepAlive }
  if conn.closed then .thrown head (.exception "Trying to send to closed socket")
  else
    .returned ((head.modify c fun conn =>
      { conn with
        sendBuffer := conn.sendBuffer ++ Response.tail s.jsonrpc2 response.payload
        writing := true }).note (.response c conn.keepAlive response)) ()

/-- `wait_response[id] = client`. -/
def insertWait (s : Server) (id : Bytes) (client : ConnId) : Server :=
  { s with waitResponse := (id, client) :: s.waitResponse.filter (·.1 ≠ id) }

def eraseWait (s : Server) (id : Bytes) : Server :=
  { s with waitResponse := s.waitResponse.filter (·.1 ≠ id) }

def waiting (s : Server) (id : Bytes) : Option ConnId := s.waitResponse.lookup id

/-- Take the worker entry at a position out of its deque. -/
def eraseWorker (s : Server) (i j p : Nat) : Server :=
  match s.queue i j with
  | none => s
  | some queue => s.setQueue i j { queue with workers := queue.workers.eraseIdx p }

def eraseMessage (s : Server) (i j p : Nat) : Server :=
  match s.queue i j with
  | none => s
  | some queue => s.setQueue i j { queue with clients := queue.clients.eraseIdx p }

/-- `it = clients.erase(it); gc.add(msg)`. -/
def takeMessage (s : Server) (i j p : Nat) (message : Message) : Server :=
  { s.eraseMessage i j p with gc := s.gc ++ [message] }

/-- `worker->status` after an asynchronous task or a direct message. -/
def afterAsync (conn : Conn) : Conn :=
  { conn with status := if conn.workerMode then .workerModeAsync else .net }

/-- `Message::~Message`. -/
def deleteMessage (s : Server) (message : Message) : Result :=
  match message.conn with
  | none => .returned s ()
  | some client => (s.unlink client).noexcept

/-- `DirectMessage::unlink` and the delete at zero. -/
def unlinkDirect (s : Server) (d : Nat) : Result :=
  let dm := s.direct d
  if dm.freed then .fault
  else
    let counter := (dm.counter + 2 ^ 32 - 1) % 2 ^ 32
    .returned { s with
      direct := Function.update s.direct d { dm with counter := counter, freed := counter = 0 } } ()

def linkDirect (s : Server) (d : Nat) : Server :=
  let dm := s.direct d
  { s with direct := Function.update s.direct d { dm with counter := (dm.counter + 1) % 2 ^ 32 } }

/-- Release the direct messages of a connection. -/
def unlinkDirects (s : Server) : List Nat → Result
  | [] => .returned s ()
  | d :: rest => (s.unlinkDirect d).andThen fun s => s.unlinkDirects rest

/-! ### What the helpers change -/

section Projections

variable (s : Server) (c d : ConnId) (change : Conn → Conn) (event : Event) (stage : Stage)

@[simp] theorem modify_self : (s.modify c change).conns c = change (s.conns c) := by
  simp [modify, set]

theorem modify_conns :
    (s.modify c change).conns d = if d = c then change (s.conns c) else s.conns d := by
  simp [modify, set, Function.update_apply]

@[simp] theorem modify_log : (s.modify c change).log = s.log := rfl

@[simp] theorem modify_stage : (s.modify c change).stage = s.stage := rfl

@[simp] theorem modify_registry : (s.modify c change).registry = s.registry := rfl

@[simp] theorem modify_waitResponse : (s.modify c change).waitResponse = s.waitResponse := rfl

@[simp] theorem modify_gc : (s.modify c change).gc = s.gc := rfl

@[simp] theorem modify_dying : (s.modify c change).dying = s.dying := rfl

@[simp] theorem modify_accepted : (s.modify c change).accepted = s.accepted := rfl

@[simp] theorem note_log : (s.note event).log = s.log ++ [event] := rfl

@[simp] theorem note_conns : (s.note event).conns = s.conns := rfl

@[simp] theorem note_stage : (s.note event).stage = s.stage := rfl

@[simp] theorem enter_stage : (s.enter stage).stage = stage := rfl

@[simp] theorem enter_conns : (s.enter stage).conns = s.conns := rfl

@[simp] theorem enter_log : (s.enter stage).log = s.log := rfl

end Projections

/-- The number of the moment: what is read from outside may differ each time. -/
def tick (s : Server) : Nat := s.log.length

end Server

end Ijson
