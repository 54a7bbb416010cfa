/-
The requests a connection can make: the rest of `connect.cpp` behind the parser,
and the passes that belong to no request.
-/

import Ijson.Dispatch

namespace Ijson

namespace Routine

open Program

/-! ### Queues -/

/-- The rest of `delete_queue` for the deques of loop `j`. -/
def closeMessages (j : Nat) : Nat → Routine Unit
  | 0 => return
  | fuel + 1 => do
      let s ← get
      match (s.dying.bind fun line => line.queue[j]?).bind fun queue => queue.clients.head? with
      | none => return
      | some message =>
          match message.conn with
          | none => pure ()
          | some d => let _ ← use d
          perform (.closeMessage j)
          closeMessages j fuel

def closeWorkers (j : Nat) : Nat → Routine Unit
  | 0 => return
  | fuel + 1 => do
      let s ← get
      match (s.dying.bind fun line => line.queue[j]?).bind fun queue => queue.workers.head? with
      | none => return
      | some w =>
          let _ ← use w
          perform (.closeWorker j)
          closeWorkers j fuel

def popItems : Nat → Routine Unit
  | 0 => return
  | fuel + 1 => do
      perform .popItem
      popItems fuel

def closeLoops (line : QueueLine) : List Nat → Routine Unit
  | [] => return
  | j :: loops => do
      match line.queue[j]? with
      | none => fault
      | some queue =>
          closeMessages j queue.clients.length
          closeWorkers j queue.workers.length
          closeLoops line loops

/-- `Server::delete_queue`. -/
def deleteQueue (key : Bytes) : Routine Unit := do
  perform (.unhook key)
  let s ← get
  match s.dying with
  | none => return
  | some line =>
      (closeLoops line (List.range s.threads)).catching fun error => do
        release
        throw error
      popItems line.workers.length
      perform .bury
      release

/-- One leading slash of a queue name is cut off; an empty name is refused. -/
def withQueueName (c : ConnId) (path : Bytes) (change : Bytes → Routine Unit) : Routine Unit :=
  if path.isEmpty then perform (.respond c ⟨"400 Wrong queue", [], .code (-32600)⟩)
  else do
    change (match path with
      | 47 :: name => name
      | name => name)
    perform (.respond c ⟨"200 OK", [], .code 1⟩)

/-- `Connect::create_queue`. -/
def createQueue (c : ConnId) (path : Bytes) : Routine Unit :=
  withQueueName c path fun name => perform (.create name)

/-- `Connect::delete_queue`. -/
def removeQueue (c : ConnId) (path : Bytes) : Routine Unit := withQueueName c path deleteQueue

/-- The bytes of a published message. -/
def published (name body : Bytes) : Bytes :=
  ascii "HTTP/1.1 200 OK\r\nConnection: keep-alive\r\nName: " ++ name ++ ascii "\r\nAsync: true\r\n" ++
    Response.withLength body

/-- The loop of `pub` over the subscribers. -/
def publishAll (i d : Nat) : List ConnId → Routine Unit
  | [] => return
  | w :: rest => do
      let worker ← use w
      if worker.status = .workerWaitJob then perform (.publishClaim i w d)
      else if worker.noid then perform (.publishPush i w d)
      publishAll i d rest

/-- `Connect::pub`. -/
def pub (name : Bytes) (c : ConnId) : Routine Unit := do
  let s ← get
  match s.registry.getQueue s.threads name false with
  | .fault => fault
  | .thrown _ error => throw error
  | .returned _ none => perform (.respond c ⟨"404 Not Found", [], .code (-32601)⟩)
  | .returned _ (some i) =>
      match s.line i with
      | none => fault
      | some line =>
          perform (.newDirect i (published name (s.conns c).http.body) line.name)
          publishAll i s.directs line.workers
          perform (.respond c ⟨"200 OK", [], .code 1⟩)
          perform (.releaseDirect s.directs)

/-! ### Details -/

/-- `json::escape` on a text. -/
def escape (text : Bytes) : Bytes :=
  text.flatMap fun a => if a = Json.quote then [Json.backslash, Json.quote] else [a]

def liveLines (s : Server) : List QueueLine := s.registry.queueList.filterMap id

def joined (separator : Bytes) : List Bytes → Bytes
  | [] => []
  | [text] => text
  | text :: rest => text ++ separator ++ joined separator rest

/-- One queue of `send_details`. -/
def lineDetails (s : Server) (line : QueueLine) : Bytes :=
  let queues := line.queue.take s.threads
  let workers := queues.flatMap fun queue => queue.workers
  let quoted := fun w => ascii "\"" ++ escape (s.conns w).http.connectionId ++ ascii "\""
  ascii "\"" ++ line.name ++ ascii "\":\x7b\"last_worker\":" ++ addNumber (i64 line.lastWorker) ++
    ascii ",\"worker_ids\":[" ++ joined (ascii ",") (workers.map quoted) ++
    ascii "],\"workers\":" ++ addNumber (i32 workers.length) ++
    ascii ",\"clients\":" ++ addNumber (i32 (queues.flatMap fun queue => queue.clients).length) ++
    (if line.info.isEmpty then []
      else ascii ",\"info\":\"" ++ escape line.info ++ ascii "\"") ++
    ascii "\x7d,\n"

/-- The body of `send_details`: the last comma and line feed are cut off. -/
def details (s : Server) (now : Nat) : Bytes :=
  let all := ascii "\x7b\"$info\":\x7b\"version\":\"" ++ s.version ++
    ascii "\",\"uptime\":" ++ addNumber (i64 (now - s.startTime)) ++
    ascii ",\"connect\":" ++ addNumber (i64 s.stats.connect) ++
    ascii ",\"request\":" ++ addNumber (i64 s.stats.request) ++
    ascii ",\"call\":" ++ addNumber (i64 s.stats.call) ++
    ascii ",\"result\":" ++ addNumber (i64 s.stats.result) ++
    ascii ",\"recv\":" ++ addNumber (i64 s.stats.recv) ++
    ascii ",\"send\":" ++ addNumber (i64 s.stats.send) ++
    ascii ",\"io_event\":" ++ addNumber (i64 s.stats.ioevent) ++ ascii "\x7d,\n" ++
    (liveLines s).flatMap (lineDetails s)
  all.take (all.length - 2) ++ ascii "\x7d"

/-- The worker entries `send_details` goes through. -/
def listedWorkers (s : Server) : List ConnId :=
  (liveLines s).flatMap fun line => (line.queue.take s.threads).flatMap fun queue => queue.workers

def useAll : List ConnId → Routine Unit
  | [] => return
  | w :: rest => do
      let _ ← use w
      useAll rest

/-- `Connect::send_details`: the id of each entry is read through its pointer. -/
def answerDetails (env : Env) (c : ConnId) : Routine Unit := do
  let s ← get
  useAll (listedWorkers s)
  perform (.respond c ⟨"200 OK", [], .bytes (details s (env.now s.tick))⟩)

def helpMessage : Bytes := ascii
  "\n\nType of request (header type/x-type):\n  \"type: get\" - get a task\n  \"type: get+\" - get a task with keep-alive\n  \"type: worker\" - worker mode\n  \"type: async\" - send a command async\n  \"type: pub\" - publish a message (send message to all workers)\n  \"type: result\" - result from worker to client\n  \"type: create\" - create a queue\n  \"type: delete\" - delete a queue\n\nAnother options (header):\n  \"priority: 15\" - set priority for request\n  \"set-id: 15\" - set id for worker\n  \"worker-id: 15\" - call worker with specific id\n  \"timeout: 60\" - timeout for worker in sec\n\nrpc/details  - get details in json\n\n"

/-- `ISlice::compare` on signed characters. -/
def nameLess : Bytes → Bytes → Bool
  | _, [] => false
  | [], _ :: _ => true
  | a :: left, b :: right =>
      if a = b then nameLess left right
      else decide ((a.toNat + 128) % 256 < (b.toNat + 128) % 256)

def lineHelp (s : Server) (line : QueueLine) : Bytes :=
  let queues := line.queue.take s.threads
  line.name ++ List.replicate (20 - line.name.length) blank ++ [blank] ++
    addNumber (i32 (queues.flatMap fun queue => queue.clients).length) ++ ascii "/" ++
    addNumber (queues.flatMap fun queue => queue.workers).length ++
    (if line.info.isEmpty then [] else ascii "  " ++ line.info) ++ ascii "\n"

/-- The body of `send_help`. -/
def help (s : Server) : Bytes :=
  ascii "ijson " ++ s.version ++ helpMessage ++
    ((liveLines s).mergeSort fun left right => !nameLess right.name left.name).flatMap (lineHelp s)

/-! ### header_completed -/

/-- The members of the body in `rpc_add`. -/
def rpcAddLoop (c : ConnId) : Nat → Routine Unit
  | 0 => return
  | fuel + 1 => do
      let s ← get
      match (s.conns c).http.json.scan with
      | .error error => throw error
      | .ok (json, more) =>
          perform (.edit c [] fun http => { http with json := json })
          if !more then return
          if json.key = ascii "name" then
            let name := Json.unescape json.value
            perform (.edit c [] fun http => { http with name := name.1 })
            match name.2 with
            | some error => throw error
            | none => pure ()
          else if json.key = ascii "info" then
            perform (.edit c [] fun http => { http with info := json.value })
          else if json.key = ascii "option" then
            if json.value = ascii "no_id" then perform (.noIdMode c)
            else if json.value = ascii "fail_on_disconnect" then perform (.failMode c)
          rpcAddLoop c fuel

def rpcAdd (env : Env) (c : ConnId) : Routine Unit := do
  let s ← get
  rpcAddLoop c ((s.conns c).http.json.data.length + 1)
  let s ← get
  let conn := s.conns c
  if conn.http.name.isEmpty then
    perform (.workerMode c false)
    perform (.respond c ⟨"400 No name", [], .code (-32602)⟩)
  else
    if conn.workerMode then perform (.noIdMode c)
    addWorker env conn.http.name c

/-- `rpc_result` with the id from the request line, the header or the call. -/
def rpcResult (c : ConnId) (id : Bytes) : Routine Unit := do
  let s ← get
  let json := (s.conns c).http.json
  let found : Except Exc (Json × Option Bytes) :=
    if id.isEmpty && json.level = 0 then Http.scanFor (ascii "id") (json.data.length + 1) json
    else .ok (json, none)
  match found with
  | .error error => throw error
  | .ok (json, value) =>
      perform (.edit c [] fun http => { http with json := json })
      let id := value.getD id
      if id.isEmpty then perform (.conclude c ⟨"400 No id", [], .code (-1)⟩)
      else
        perform (.count fun stats => { stats with result := stats.result + 1 })
        let result ← workerResult id (some c)
        if result = 0 then perform (.conclude c ⟨"200 OK", [], .code 1⟩)
        else if result = -2 then perform (.conclude c ⟨"499 Closed", [], .code (-1)⟩)
        else perform (.conclude c ⟨"400 Wrong id", [], .code (-1)⟩)

/-- The members `method`, `id` and `params` of `rpc/call`. -/
def rpcCallLoop (c : ConnId) : Nat → Bytes → Bytes → Bytes → Routine (Bytes × Bytes × Bytes)
  | 0, method, id, params => return (method, id, params)
  | fuel + 1, method, id, params => do
      let s ← get
      match (s.conns c).http.json.scan with
      | .error error => throw error
      | .ok (json, more) =>
          perform (.edit c [] fun http => { http with json := json })
          if !more then return (method, id, params)
          if json.key = ascii "method" then rpcCallLoop c fuel json.value id params
          else if json.key = ascii "id" && id.isEmpty then
            perform (.edit c [] fun http => { http with id := json.value })
            rpcCallLoop c fuel method json.value params
          else if json.key = ascii "params" then rpcCallLoop c fuel method id json.value
          else rpcCallLoop c fuel method id params

/-- The path, or the method of an `rpc/call`, decides what is asked for. -/
def callMethod (env : Env) (c : ConnId) (method id : Bytes) : Routine Unit := do
  if method = ascii "rpc/worker" then
    perform (.workerMode c true)
    rpcAdd env c
  else if method = ascii "rpc/add" then rpcAdd env c
  else if method = ascii "rpc/result" then rpcResult c id
  else if method = ascii "rpc/details" then answerDetails env c
  else if method = ascii "/" || method = ascii "rpc/help" then
    let s ← get
    perform (.respond c ⟨"200 OK", [], .bytes (help s)⟩)
  else
    let option ← option c
    perform (.edit c [] fun http => { http with noResponse := option = ascii "async" })
    clientRequest env method c

/-- A request without a type. -/
def untyped (env : Env) (c : ConnId) : Routine Unit := do
  let s ← get
  let http := (s.conns c).http
  if http.path = ascii "rpc/call" then
    let (method, id, params) ← rpcCallLoop c (http.json.data.length + 1) [] http.id []
    if !params.isEmpty then perform (.edit c [] fun http => { http with json := Json.load params 1 })
    let method := match method with
      | 47 :: rest => rest
      | method => method
    if method.isEmpty then perform (.respond c ⟨"400 No method", [], .code (-32601)⟩)
    else callMethod env c method id
  else callMethod env c http.path http.id

def typed (env : Env) (c : ConnId) (http : Http) : Routine Unit := do
  perform (.edit c [] fun http => { http with name := http.path })
  let name := http.path
  match http.type with
  | .async =>
      perform (.edit c [] fun http => { http with noResponse := true })
      clientRequest env name c
  | .getPlus =>
      perform (.noIdMode c)
      rpcAdd env c
  | .get => rpcAdd env c
  | .worker =>
      perform (.workerMode c true)
      rpcAdd env c
  | .pub => pub name c
  | .result => rpcResult c (if http.id.isEmpty && http.path ≠ ascii "/" then http.path else http.id)
  | .create => createQueue c http.path
  | .del => removeQueue c http.path
  | .none => perform (.respond c ⟨"400 Wrong type", [], .code (-32602)⟩)

/-- `header_completed`. -/
def headerCompleted (env : Env) (c : ConnId) : Routine Unit := do
  perform (.complete c)
  let s ← get
  let conn := s.conns c
  if conn.http.path = ascii "echo" then perform (.respond c ⟨"200 OK", [], .bytes (ascii "ok")⟩)
  else if conn.workerMode then
    if conn.status ≠ .workerModeAsync then let _ ← workerResultNoid c
    let option ← option c
    if option = ascii "stop" then
      if conn.workerItem.isSome then perform (.leaveList c)
      perform (.workerMode c false)
      perform (.conclude c ⟨"200 OK", [], .code 1⟩)
    else rpcAdd env c
  else if conn.noid then
    if conn.http.path ≠ ascii "rpc/result" && conn.http.type ≠ .result then
      perform (.respond c ⟨"400 Result expected", [], .code (-1)⟩)
    else
      let result ← workerResultNoid c
      if result = 0 then perform (.conclude c ⟨"200 OK", [], .code 1⟩)
      else perform (.conclude c ⟨"499 Closed", [], .code (-1)⟩)
  else
    perform (.edit c [] fun http => { http with json := Json.load http.body 0 })
    if conn.http.type ≠ .none then typed env c conn.http else untyped env c

/-! ### Passes -/

/-- `_check_timeout` over one deque. -/
def expireDeque (i j now : Nat) : Nat → Nat → Routine Unit
  | 0, _ => return
  | fuel + 1, p => do
      let s ← get
      match s.workerAt i j p with
      | none => return
      | some w =>
          let worker ← use w
          if worker.http.ping ≠ 0 && worker.http.pingTimeout ≤ now && !worker.closed &&
              worker.status = .workerWaitJob then
            perform (.expire i j p now)
          expireDeque i j now fuel (p + 1)

/-- `_clean_dead_tasks` over the workers of one deque. -/
def cleanWorkers (i j : Nat) : Nat → Nat → Routine Unit
  | 0, _ => return
  | fuel + 1, p => do
      let s ← get
      match s.workerAt i j p with
      | none => return
      | some w =>
          let worker ← use w
          if worker.closed || worker.status ≠ .workerWaitJob then
            perform (.dropEntry i j p)
            cleanWorkers i j fuel p
          else cleanWorkers i j fuel (p + 1)

/-- `_clean_dead_tasks` over the tasks of one deque. -/
def cleanClients (i j : Nat) : Nat → Nat → Routine Unit
  | 0, _ => return
  | fuel + 1, p => do
      let s ← get
      match s.messageAt i j p with
      | none => return
      | some message =>
          match message.conn with
          | none => cleanClients i j fuel (p + 1)
          | some d =>
              let client ← use d
              if client.closed || client.status ≠ .clientWaitResult then
                perform (.discard i j p)
                cleanClients i j fuel p
              else cleanClients i j fuel (p + 1)

/-- A pass over the deques of all live queues. -/
def eachDeque (visit : Nat → Nat → Queue → Routine Unit) : List (Nat × Nat) → Routine Unit
  | [] => return
  | (i, j) :: rest => do
      let s ← get
      match s.queue i j with
      | none => pure ()
      | some queue => visit i j queue
      eachDeque visit rest

def dequesOf (s : Server) : List (Nat × Nat) :=
  (List.range s.registry.queueList.length).flatMap fun i => (List.range s.threads).map fun j => (i, j)

/-- `Loop::_check_timeout`. -/
def checkTimeout (now : Nat) : Routine Unit := do
  let s ← get
  eachDeque (fun i j queue => do
    guardLine i
    expireDeque i j now queue.workers.length 0) (dequesOf s)

/-- `Service::_clean_dead_tasks`.  A queue whose mutex is held is left out; an
exception in the service thread ends the process. -/
def cleanDeadTasks : Routine Unit := do
  let s ← get
  (eachDeque (fun i j queue => do
    let s ← get
    match s.line i with
    | none => fault
    | some line =>
        if line.locked then return
        cleanWorkers i j queue.workers.length 0
        cleanClients i j queue.clients.length 0) (dequesOf s)).catching fun _ => fault

end Routine

end Ijson
