/-
Queues and the tasks that wait in them.

Connections are referred to by number.  A number is never used for a second
connection, so it plays the role of the pointer.
-/

import Ijson.Slice

namespace Ijson

abbrev ConnId := Nat

/-- A waiting task.  `conn` is the client of a synchronous task, `buf` the body
of an asynchronous one.  `ticket` is not in the source: it numbers the accepted
asynchronous tasks, and nothing reads it. -/
structure Message where
  priority : Int
  requiredWorker : Bytes
  conn : Option ConnId
  buf : Option Bytes
  name : Bytes
  ticket : Nat
  deriving DecidableEq

/-- The two deques of one loop. -/
structure Queue where
  workers : List ConnId
  clients : List Message
  deriving DecidableEq

/-- `workers` is the linked list of `WorkerItem`s, newest first; `locked` is the
mutex between two operations, which is held then only after an exception. -/
structure QueueLine where
  name : Bytes
  lastWorker : Nat
  locked : Bool
  queue : List Queue
  info : Bytes
  workers : List ConnId
  deriving DecidableEq

/-- `new QueueLine(threads)` with its name set. -/
def QueueLine.new (threads : Nat) (name : Bytes) : QueueLine :=
  { name := name
    lastWorker := 0
    locked := false
    queue := List.replicate threads { workers := [], clients := [] }
    info := []
    workers := [] }

end Ijson
