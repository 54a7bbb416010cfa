/-
Handing tasks to workers: `client_request`, `add_worker`, `worker_result`,
`worker_result_noid` and `on_disconnect` of `server.cpp`.

A search through a deque stops at the first position that fits; entries and
tasks that are dead on the way are dropped.  Its fuel is the length of the
deque, which each step shortens or leaves one position behind.
-/

import Ijson.Program
import Ijson.Action

namespace Ijson

/-- Code of the server. -/
abbrev Routine := Program Server Action Exc

namespace Routine

open Program

/-- Access to a connection through a pointer. -/
def use (c : ConnId) : Routine Conn := do
  let s ← get
  if (s.conns c).freed then fault
  return s.conns c

/-- `ql->mutex.lock()` in a scope that always unlocks: it never returns when
the mutex was left locked. -/
def guardLine (i : Nat) : Routine Unit := do
  let s ← get
  match s.line i with
  | none => fault
  | some line => if line.locked then fault

/-- The loops in the order they are searched: the own one first. -/
def loopOrder (own threads : Nat) : List Nat := own :: (List.range threads).filter (· ≠ own)

/-! ### A client's request -/

/-- The first worker of the deque that waits for a job, by its position. -/
def findWorker (i j : Nat) (required : Bytes) : Nat → Nat → Routine (Option Nat)
  | 0, _ => return none
  | fuel + 1, p => do
      let s ← get
      match s.workerAt i j p with
      | none => return none
      | some w =>
          let worker ← use w
          if !required.isEmpty && required ≠ worker.http.connectionId then
            findWorker i j required fuel (p + 1)
          else if worker.closed || worker.status ≠ .workerWaitJob then
            perform (.dropEntry i j p)
            findWorker i j required fuel p
          else return some p

def findWorkerIn (i : Nat) (required : Bytes) : List Nat → Routine (Option (Nat × Nat))
  | [] => return none
  | j :: loops => do
      let s ← get
      match s.queue i j with
      | none => fault
      | some queue =>
          match ← findWorker i j required queue.workers.length 0 with
          | some p => return some (j, p)
          | none => findWorkerIn i required loops

/-- The position of `header_option` in memory, read now. -/
def option (c : ConnId) : Routine Bytes := do
  let s ← get
  let conn := s.conns c
  match conn.http.headerOption with
  | none => return []
  | some view =>
      match view.place with
      | .array => return ((s.arrays conn.nloop).drop view.start).take view.length
      | .block number =>
          if number = conn.http.buffer.block then
            return (conn.http.buffer.mem.drop view.start).take view.length
          else fault

/-- The worker at a position is handed the synchronous request of `c`. -/
def handSync (env : Env) (c : ConnId) (i j p : Nat) (name : Bytes) : Routine Unit := do
  let s ← get
  match s.workerAt i j p with
  | none => fault
  | some w =>
      if (s.conns w).noid then perform (.handNoid c i j p name)
      else
        let random := env.random s.generated
        match s.takeId c random with
        | none => perform (.undoNoId c i j p)
        | some (_, id) =>
            if (s.waiting id).isSome then perform (.undoCollision c i j p random)
            else perform (.handId c i j p name random)

def clientRequest (env : Env) (name : Bytes) (c : ConnId) : Routine Unit := do
  perform (.count fun stats => { stats with call := stats.call + 1 })
  let s ← get
  match s.registry.getQueue s.threads name false with
  | .fault => fault
  | .thrown _ error => throw error
  | .returned _ none => perform (.respond c ⟨"404 Not Found", [], .code (-32601)⟩)
  | .returned _ (some i) =>
      guardLine i
      let client := s.conns c
      match ← findWorkerIn i client.http.requiredWorker (loopOrder client.nloop s.threads) with
      | some (j, p) =>
          if client.http.noResponse then
            perform (.handAsync c i j p name)
            perform (.respond c ⟨"200 OK", [], .code 1⟩)
          else handSync env c i j p name
      | none =>
          let option ← option c
          let s ← get
          match s.line i with
          | none => fault
          | some line =>
              if option = ascii "if present" && line.workers.isEmpty then
                perform (.respond c ⟨"204 No Content", [], .code 1⟩)
              else if client.http.noResponse then
                perform (.enqueueAsync c i name)
                perform (.respond c ⟨"200 OK", [], .code 1⟩)
              else perform (.enqueueSync c i name)

/-! ### A worker's request -/

/-- The first task of the deque for worker `c`, by its position.  Tasks whose
client is gone are dropped, and clients whose id cannot be used are refused. -/
def findMessage (env : Env) (c : ConnId) (i j : Nat) : Nat → Nat → Routine (Option Nat)
  | 0, _ => return none
  | fuel + 1, p => do
      let s ← get
      match s.messageAt i j p with
      | none => return none
      | some message =>
          let worker := s.conns c
          if !message.requiredWorker.isEmpty &&
              message.requiredWorker ≠ worker.http.connectionId then
            findMessage env c i j fuel (p + 1)
          else
            match message.conn with
            | none => return some p
            | some d =>
                let client ← use d
                if client.closed || client.status ≠ .clientWaitResult then
                  perform (.dropMessage i j p)
                  findMessage env c i j fuel p
                else if worker.noid then return some p
                else
                  let random := env.random s.generated
                  match s.takeId d random with
                  | none =>
                      perform (.refuseNoId i j p)
                      findMessage env c i j fuel p
                  | some (_, id) =>
                      if (s.waiting id).isSome then
                        perform (.refuseCollision i j p random)
                        findMessage env c i j fuel p
                      else return some p

def findMessageIn (env : Env) (c : ConnId) (i : Nat) : List Nat → Routine (Option (Nat × Nat))
  | [] => return none
  | j :: loops => do
      let s ← get
      match s.queue i j with
      | none => fault
      | some queue =>
          match ← findMessage env c i j queue.clients.length 0 with
          | some p => return some (j, p)
          | none => findMessageIn env c i loops

/-- The `GC` of `_add_worker` goes out of scope. -/
def collectAll : Nat → Routine Unit
  | 0 => return
  | fuel + 1 => do
      perform .collect
      collectAll fuel

def release : Routine Unit := do
  let s ← get
  collectAll s.gc.length

/-- Entries of closed connections and of `c` itself leave the deque. -/
def cleanDeque (c : ConnId) (i j : Nat) : Nat → Nat → Routine Unit
  | 0, _ => return
  | fuel + 1, p => do
      let s ← get
      match s.workerAt i j p with
      | none => return
      | some w =>
          let conn ← use w
          if conn.closed || w = c then
            perform (.dropEntry i j p)
            cleanDeque c i j fuel p
          else cleanDeque c i j fuel (p + 1)

/-- The task at a position is handed to worker `c`; the result is the value of
`result`, which an asynchronous task leaves unset. -/
def give (env : Env) (c : ConnId) (i j p : Nat) (last : Bool) : Routine Int := do
  let s ← get
  match s.messageAt i j p with
  | none => fault
  | some message =>
      if message.conn.isNone then
        let result := env.garbage s.tick
        perform (.giveAsync c i j p (!last && result ≠ 1))
        return result
      else if (s.conns c).noid then
        perform (.giveNoid c i j p)
        return 1
      else
        perform (.giveId c i j p (env.random s.generated))
        return 1

def registerIn (c : ConnId) (i : Nat) : Routine Int := do
  let s ← get
  let j := (s.conns c).nloop
  match s.queue i j with
  | none => fault
  | some queue =>
      cleanDeque c i j queue.workers.length 0
      perform (.register c i)
      return 0

/-- The part of `_add_worker` under the mutex of the queue. -/
def serve (env : Env) (name : Bytes) (c : ConnId) (i : Nat) (last : Bool) : Routine Int := do
  let s ← get
  let result ←
    match ← findMessageIn env c i (loopOrder (s.conns c).nloop s.threads) with
    | some (j, p) => give env c i j p last
    | none => registerIn c i
  let s ← get
  let worker := s.conns c
  if worker.workerItem.isNone &&
      (worker.workerMode || worker.noid || worker.status = .workerWaitJob) then
    perform (.subscribe c i name)
  return result

/-- `_add_worker`; `last` tells that no name follows. -/
def addWorkerTo (env : Env) (piece : Bytes) (c : ConnId) (last : Bool) : Routine Int := do
  let name := match piece with
    | 47 :: rest => rest
    | name => name
  let s ← get
  let found := s.registry.getQueue s.threads name true
  perform (.resolve c name)
  match found with
  | .returned _ (some i) =>
      let worker := s.conns c
      if !worker.http.info.isEmpty then perform (.describe i worker.http.info)
      if worker.http.connectionId.isEmpty then perform (.nameConn c (env.random s.generated))
      if !worker.workerMode && worker.workerItem.isSome && worker.workerSubName ≠ name then
        perform (.leaveList c)
        perform (.dropDirects c)
      let s ← get
      if !(s.conns c).directMessage.isEmpty then
        perform (.wake c)
        return 1
      perform (.visit i (env.now s.tick))
      guardLine i
      perform (.lock i true)
      -- an exception leaves the mutex locked; the `GC` runs in any case
      let result ← (serve env name c i last).catching fun error => do
        release
        throw error
      perform (.lock i false)
      release
      return result
  | _ => fault

/-- The pieces `add_worker` cuts a list of names into: one before each comma or
blank, and what follows the last of them unless it is empty. -/
def pieces : Bytes → Bytes → List Bytes
  | [], piece => if piece.isEmpty then [] else [piece]
  | a :: rest, piece =>
      if a = Json.comma || a = blank then piece :: pieces rest []
      else pieces rest (piece ++ [a])

def addWorkerLoop (env : Env) (c : ConnId) : List Bytes → Routine Unit
  | [] => perform (.finish c)
  | piece :: rest => do
      let result ← addWorkerTo env piece c rest.isEmpty
      if result = 1 then perform (.finish c) else addWorkerLoop env c rest

def addWorker (env : Env) (name : Bytes) (c : ConnId) : Routine Unit := do
  perform (.beginAdd c)
  addWorkerLoop env c (pieces name [])

/-! ### Results and disconnects -/

/-- `worker_result` of a worker: 0, -1 for an unknown id, -2 for a client that
is gone. -/
def workerResult (id : Bytes) (worker : Option ConnId) : Routine Int := do
  let s ← get
  match s.waiting id with
  | none => return -1
  | some d =>
      let client ← use d
      perform (.settle id worker)
      return if client.closed then -2 else 0

/-- 0, or -2 when the client is gone. -/
def workerResultNoid (c : ConnId) : Routine Int := do
  let s ← get
  match (s.conns c).client with
  | none =>
      perform (.postNoid c)
      return 0
  | some d =>
      let client ← use d
      perform (.postNoid c)
      return if client.closed then -2 else 0

def onDisconnect (c : ConnId) : Routine Unit := do
  let s ← get
  let conn := s.conns c
  if conn.workerItem.isSome then perform (.leaveList c)
  if !conn.directMessage.isEmpty then perform (.dropDirects c)
  if conn.status = .clientWaitResult && !conn.http.id.isEmpty && (s.waiting conn.http.id).isSome then
    perform (.eraseOwn c)
  if !conn.failOnDisconnect then return
  if conn.noid then
    if conn.status = .workerWaitResult then
      match conn.client with
      | none => perform (.failNoid c)
      | some d =>
          let _ ← use d
          perform (.failNoid c)
    else if conn.client.isSome then throw (.exception "Client is linked to pending worker")
  else
    match conn.client with
    | none => return
    | some d =>
        let client ← use d
        let _ ← workerResult client.http.id none
        perform (.releaseClient c)

end Routine

end Ijson
