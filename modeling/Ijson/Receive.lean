/-
`Connect::on_recv` and `Connect::on_send`.

The parser works on a cursor: the bytes it has not taken yet and where in
memory they stand.  `completed` is what is done with a complete request.
-/

import Ijson.Requests

namespace Ijson

structure Cursor where
  place : Place
  start : Nat
  data : Bytes

def Conn.ready (conn : Conn) : Bool :=
  conn.status = .net || (conn.status = .workerWaitResult && conn.noid) ||
    (conn.status = .workerModeAsync && conn.workerMode)

namespace Routine

open Program

/-- `header_completed` with the handler of `error::InvalidData` around it. -/
def answering (completed : Routine Unit) (c : ConnId) : Routine Unit :=
  completed.catching fun error =>
    if error = .invalidData then perform (.respond c ⟨"400 Invalid data", [], .code (-32700)⟩)
    else throw error

/-- `buffer.add(data)` at the end: what is left may be part of that buffer. -/
def keepRest (c : ConnId) (cursor : Cursor) : Routine Unit := do
  let s ← get
  match cursor.place with
  | .array => perform (.edit c [] fun http => { http with buffer := http.buffer.add cursor.data })
  | .block _ =>
      match (s.conns c).http.buffer.addOwn cursor.data with
      | none => fault
      | some buffer => perform (.edit c [] fun http => { http with buffer := buffer })

/-- The loop over the lines.  A line takes at least one byte of the data. -/
def readLines (env : Env) (completed : Routine Unit) (c : ConnId) : Nat → Cursor → Routine Unit
  | 0, _ => fault
  | fuel + 1, cursor => do
      match popLine cursor.data with
      | none =>
          let s ← get
          if (s.conns c).http.step = .start ∨ (s.conns c).http.step = .header then
            keepRest c cursor
      | some (raw, rest) =>
          let line := rstrip raw
          let after : Cursor :=
            { cursor with start := cursor.start + raw.length, data := rest }
          let s ← get
          let http := (s.conns c).http
          if line.isEmpty then
            if http.step ≠ .header then throw .invalidData
            if http.contentLength < 0 then fault
            let length := min http.contentLength.toNat rest.length
            perform (.endHead c (raw ++ rest.take length) (rest.take length))
            let after : Cursor :=
              { after with start := after.start + length, data := rest.drop length }
            let s ← get
            if (s.conns c).http.step = .requestCompleted then
              answering completed c
              if !after.data.isEmpty then
                let s ← get
                if (s.conns c).status = .net then
                  perform (.rewind c)
                  readLines env completed c fuel after
                else throw (.exception "previous request is not finished")
              else perform (.rewind c)
          else if http.step = .start then
            perform (.begin c raw line)
            let s ← get
            if (s.conns c).closed then return
            readLines env completed c fuel after
          else if http.step = .header then
            match http.readHeader (env.now s.tick) cursor.place cursor.start line with
            | .ok read =>
                perform (.edit c raw fun _ => read)
                readLines env completed c fuel after
            | .error error =>
                perform (.edit c raw id)
                if error = .invalidData then perform (.refuseHeader c)
                else throw error
                readLines env completed c fuel after
          else
            -- `HTTP_READ_BODY` and `HTTP_REQUEST_COMPLETED` do not read lines
            perform (.edit c raw id)
            readLines env completed c fuel after

/-- `on_recv` behind the test of the status. -/
def parse (env : Env) (completed : Routine Unit) (c : ConnId) (cursor : Cursor) : Routine Unit := do
  let s ← get
  let http := (s.conns c).http
  if http.step = .readBody then
    let missing := http.contentLength - http.body.length
    if missing < 0 then fault
    let missing := missing.toNat
    if missing > cursor.data.length then
      perform (.edit c cursor.data fun http =>
        { http with body := http.body ++ cursor.data, buffer := http.buffer.clear })
    else
      perform (.edit c (cursor.data.take missing) fun http =>
        { http with body := http.body ++ cursor.data.take missing })
      answering completed c
      perform (.rewind c)
      let rest := cursor.data.drop missing
      if !rest.isEmpty then
        readLines env completed c (rest.length + 1)
          { cursor with start := cursor.start + missing, data := rest }
  else readLines env completed c (cursor.data.length + 1) cursor

def storeOrParse (env : Env) (completed : Routine Unit) (c : ConnId) (chunk : Bytes) :
    Routine Unit := do
  let s ← get
  let conn := s.conns c
  if !conn.ready then
    perform (.edit c [] fun http => { http with buffer := http.buffer.add chunk })
  else if conn.http.buffer.size ≠ 0 then
    perform (.edit c [] fun http => { http with buffer := http.buffer.add chunk })
    let s ← get
    let buffer := (s.conns c).http.buffer
    parse env completed c { place := .block buffer.block, start := 0, data := buffer.contents }
  else parse env completed c { place := .array, start := 0, data := chunk }

/-- `on_recv` on a chunk in the receive array of the loop. -/
def onRecvWith (env : Env) (completed : Routine Unit) (c : ConnId) (chunk : Bytes) :
    Routine Unit := do
  let s ← get
  let ping := (s.conns c).http.ping
  if ping ≠ 0 then
    perform (.edit c [] fun http => { http with pingTimeout := u32 (env.now s.tick + ping) })
  storeOrParse env completed c chunk

def onRecv (env : Env) (c : ConnId) (chunk : Bytes) : Routine Unit :=
  onRecvWith env (headerCompleted env c) c chunk

def close (c : ConnId) : Routine Unit := do
  perform (.shut c)
  onDisconnect c
  perform (.retire c)

/-- An exception of `on_recv` or `on_send` closes the connection. -/
def guarded (routine : Routine Unit) (c : ConnId) : Routine Unit := do
  routine.catching fun error => do
    perform (.caught error)
    perform (.shut c)
  let s ← get
  if (s.conns c).closed then close c

end Routine

end Ijson
