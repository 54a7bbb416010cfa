/-
The connection: its fields, the HTTP lines it reads and the ones it writes.

`Http` holds what `on_recv` and `read_header` write, `Conn` the rest.  Most
header values are copied into buffers; `header_option` stays a view into the
memory the line was read from.
-/

import Ijson.Buffer
import Ijson.Json
import Ijson.QueueLine

namespace Ijson

inductive Status where
  | net
  | workerWaitJob
  | workerWaitResult
  | migration
  | clientWaitResult
  | busy
  | workerModeAsync
  deriving DecidableEq, Repr

inductive RequestType where
  | none
  | get
  | getPlus
  | worker
  | async
  | pub
  | result
  | create
  | del
  deriving DecidableEq, Repr

inductive HttpStep where
  | start
  | header
  | readBody
  | requestCompleted
  deriving DecidableEq, Repr

/-- The memory a line was read from: the receive array of the loop, or the
given block of the connection's own buffer. -/
inductive Place where
  | array
  | block (number : Nat)
  deriving DecidableEq

structure View where
  place : Place
  start : Nat
  length : Nat
  deriving DecidableEq

structure Http where
  step : HttpStep
  contentLength : Int
  httpVersion : Nat
  buffer : Buffer
  path : Bytes
  headerOption : Option View
  name : Bytes
  type : RequestType
  body : Bytes
  id : Bytes
  noResponse : Bool
  priority : Int
  ping : Nat
  pingTimeout : Nat
  connectionId : Bytes
  requiredWorker : Bytes
  json : Json
  info : Bytes
  deriving DecidableEq

/-- `connected` says that `connections[fd]` is this connection and `freed` that
it was deleted; `closed` and `writing` are `_socket_status`.  `asked` is not in
the source: the names of the queues its latest worker request resolved to. -/
structure Conn where
  http : Http
  status : Status
  failOnDisconnect : Bool
  noid : Bool
  workerMode : Bool
  client : Option ConnId
  workerItem : Option Nat
  workerSubName : Bytes
  directMessage : List Nat
  closed : Bool
  writing : Bool
  link : Int
  connected : Bool
  freed : Bool
  keepAlive : Bool
  sendBuffer : Bytes
  nloop : Nat
  asked : List Bytes

namespace Http

def new : Http :=
  { step := .start
    contentLength := 0
    httpVersion := 0
    buffer := Buffer.empty
    path := []
    headerOption := none
    name := []
    type := .none
    body := []
    id := []
    noResponse := false
    priority := 0
    ping := 0
    pingTimeout := 0
    connectionId := []
    requiredWorker := []
    json := Json.empty
    info := [] }

/-- `read_method`: the path is what stands between the first two blanks, less
a leading slash that is not all of it; an empty path is the error -1. -/
def readMethod (line : Bytes) : Bytes × Nat :=
  let rest := (line.dropWhile (· ≠ blank)).drop 1
  let path :=
    if blank ∈ rest then
      match rest.takeWhile (· ≠ blank) with
      | 47 :: b :: more => b :: more
      | path => path
    else []
  (path, if line.getLast? = some 49 then 11 else 10)

/-- `_set_type`. -/
def setType (name : Bytes) : Except Exc RequestType :=
  if name = ascii "get" then .ok .get
  else if name = ascii "get+" then .ok .getPlus
  else if name = ascii "worker" then .ok .worker
  else if name = ascii "async" then .ok .async
  else if name = ascii "pub" then .ok .pub
  else if name = ascii "result" then .ok .result
  else if name = ascii "create" then .ok .create
  else if name = ascii "delete" then .ok .del
  else .error .invalidData

/-- The header lines `read_header` knows. -/
inductive Header where
  | contentLength (value : Int)
  | type (type : RequestType)
  | name (value : Bytes)
  | id (value : Bytes)
  | option (length : Nat)
  | priority (value : Int)
  | workerId (value : Bytes)
  | setId (value : Bytes)
  | timeout (value : Int)
  | other

/-- The comparisons of `read_header`, in their order. -/
def Header.read (data : Bytes) : Except Exc Header :=
  if startsWithLc data (ascii "content-length: ") then (atoi (data.drop 16)).map .contentLength
  else if startsWithLc data (ascii "type: ") then (setType (data.drop 6)).map .type
  else if startsWithLc data (ascii "x-type: ") then (setType (data.drop 8)).map .type
  else if startsWithLc data (ascii "name: ") then .ok (.name (data.drop 6))
  else if startsWithLc data (ascii "id: ") then .ok (.id (data.drop 4))
  else if startsWithLc data (ascii "option: ") then .ok (.option (data.length - 8))
  else if startsWithLc data (ascii "priority: ") then (atoi (data.drop 10)).map .priority
  else if startsWithLc data (ascii "worker-id: ") then .ok (.workerId (data.drop 11))
  else if startsWithLc data (ascii "set-id: ") then .ok (.setId (data.drop 8))
  else if startsWithLc data (ascii "timeout: ") then (atoi (data.drop 9)).map .timeout
  else .ok .other

/-- What a header line that was read from `place` at `start` changes. -/
def store (now : Nat) (place : Place) (start : Nat) (header : Header) (http : Http) : Http :=
  match header with
  | .contentLength value => { http with contentLength := i32 value }
  | .type type => { http with type := type }
  | .name value => { http with name := value }
  | .id value => { http with id := value }
  | .option length =>
      { http with headerOption := some { place := place, start := start + 8, length := length } }
  | .priority value => { http with priority := i32 value }
  | .workerId value => { http with requiredWorker := value }
  | .setId value => { http with connectionId := value }
  | .timeout value => { http with ping := u32 value, pingTimeout := u32 (now + u32 value) }
  | .other => http

/-- `read_header`. -/
def readHeader (now : Nat) (place : Place) (start : Nat) (data : Bytes) (http : Http) :
    Except Exc Http :=
  (Header.read data).map fun header => http.store now place start header

/-- The clearing at `HTTP_START`. -/
def clearRequest (workerMode : Bool) (http : Http) : Http :=
  { http with
    body := []
    id := []
    headerOption := none
    info := []
    json := http.json.reset
    name := if workerMode then http.name else []
    contentLength := 0
    priority := 0
    requiredWorker := []
    noResponse := false
    type := .none }

/-- The members up to the one with the key, or up to the end.  A member takes
at least one byte, which bounds the fuel. -/
def scanFor (key : Bytes) : Nat → Json → Except Exc (Json × Option Bytes)
  | 0, json => .ok (json, none)
  | fuel + 1, json =>
      match json.scan with
      | .error error => .error error
      | .ok (json, false) => .ok (json, none)
      | .ok (json, true) => if json.key = key then .ok (json, some json.value) else scanFor key fuel json

end Http

/-- `r.add_hex((++index << 16) + (std::rand() & 0xffff))`. -/
def generateId (index random : Nat) : Bytes :=
  addHex (((index + 1) * 65536 + random % 65536) % 2 ^ 32)

/-- The id a dispatch uses for a client: its own, else a member `id` of its
JSON, else a generated one.  The last component tells whether one was
generated. -/
def Http.requestId (http : Http) (index random : Nat) : Except Exc (Http × Bool) :=
  if !http.id.isEmpty then .ok (http, false)
  else
    match Http.scanFor (ascii "id") (http.json.data.length + 1) http.json with
    | .error error => .error error
    | .ok (json, found) =>
        match found with
        | some (a :: rest) => .ok ({ http with json := json, id := a :: rest }, false)
        | _ => .ok ({ http with json := json, id := generateId index random }, true)

/-! ### HttpSender -/

inductive Payload where
  | bytes (body : Bytes)
  | code (error : Int)
  | nothing
  deriving DecidableEq

structure Response where
  status : String
  headers : List (String × Bytes)
  payload : Payload
  deriving DecidableEq

namespace Response

/-- `status` and the calls of `header`. -/
def head (keepAlive : Bool) (response : Response) : Bytes :=
  ascii "HTTP/1.1 " ++ ascii response.status ++ ascii "\r\n" ++
    (if keepAlive then ascii "Connection: keep-alive\r\n" else []) ++
    response.headers.flatMap fun header =>
      ascii header.1 ++ ascii ": " ++ header.2 ++ ascii "\r\n"

/-- The body `done(int error)` sends with `--jsonrpc2`. -/
def errorBody (error : Int) : Bytes :=
  if error = -32700 then
    ascii "\x7b\"jsonrpc\": \"2.0\", \"error\": \x7b\"code\": -32700, \"message\": \"Parse error\"\x7d, \"id\": null\x7d"
  else if error = -32600 then
    ascii "\x7b\"jsonrpc\": \"2.0\", \"error\": \x7b\"code\": -32600, \"message\": \"Invalid Request\"\x7d, \"id\": null\x7d"
  else if error = -32601 then
    ascii "\x7b\"jsonrpc\": \"2.0\", \"error\": \x7b\"code\": -32601, \"message\": \"Method not found\"\x7d, \"id\": null\x7d"
  else if error = -32602 then
    ascii "\x7b\"jsonrpc\": \"2.0\", \"error\": \x7b\"code\": -32602, \"message\": \"Invalid params\"\x7d, \"id\": null\x7d"
  else if error = -1 then
    ascii "\x7b\"jsonrpc\": \"2.0\", \"error\": \x7b\"code\": -32001, \"message\": \"Error, see http code\"\x7d, \"id\": null\x7d"
  else if error = 1 then ascii "\x7b\"jsonrpc\": \"2.0\", \"result\": true, \"id\": null\x7d"
  else
    ascii "\x7b\"jsonrpc\": \"2.0\", \"error\": \x7b\"code\": -32603, \"message\": \"Internal error\"\x7d, \"id\": null\x7d"

/-- `done(ISlice &body)`, which writes no body after `Content-Length: 0`. -/
def withLength (body : Bytes) : Bytes :=
  ascii "Content-Length: " ++ addNumber body.length ++ ascii "\r\n\r\n" ++ body

def tail (jsonrpc2 : Bool) : Payload → Bytes
  | .bytes body => withLength body
  | .code error => if jsonrpc2 then withLength (errorBody error) else withLength []
  | .nothing => withLength []

end Response

end Ijson
