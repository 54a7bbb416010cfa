/-
The queue registry: `Server::get_queue` and the first half of
`Server::delete_queue`.

The trie maps a name to a slot number plus one; the slots of deleted queues are
NULL and are used again.
-/

import Ijson.MapperHistory
import Ijson.QueueLine

namespace Ijson

structure Registry where
  mapper : Mapper
  queueList : List (Option QueueLine)

namespace Registry

def new : Registry :=
  { mapper := Mapper.new
    queueList := [] }

/-- `_queue_list[n-1]`: reading past the vector is undefined, a NULL slot is
the inner `none`. -/
def slot (registry : Registry) (n : Nat) : Option (Option Nat) :=
  match registry.queueList[n - 1]? with
  | none => none
  | some none => some none
  | some (some _) => some (some (n - 1))

/-- The first NULL slot that the `u16` counter of the search reaches. -/
def freeSlot (registry : Registry) : Option Nat :=
  (registry.queueList.take 65536).findIdx? Option.isNone

/-- Put the new queue into a NULL slot or at the end.  The result is its
position in the vector and the number passed to the trie.  The search loop
does not end when its counter cannot reach the size of the vector. -/
def place (registry : Registry) (line : QueueLine) :
    Option (List (Option QueueLine) × Nat × Nat) :=
  match registry.freeSlot with
  | some i =>
      let slots := registry.queueList.set i (some line)
      if u16 (i + 1) = 0 then some (slots ++ [some line], i, u16 (slots.length + 1))
      else some (slots, i, u16 (i + 1))
  | none =>
      if registry.queueList.length ≥ 65536 then none
      else some (registry.queueList ++ [some line], registry.queueList.length,
        u16 (registry.queueList.length + 1))

/-- The part of `get_queue` under `global_lock`. -/
def createQueue (threads : Nat) (registry : Registry) (key : Bytes) :
    Outcome Registry Exc (Option Nat) :=
  match registry.place (QueueLine.new threads key) with
  | none => .fault
  | some (slots, position, n) =>
      match registry.mapper.add key n with
      | .returned mapper _ => .returned { mapper := mapper, queueList := slots } (some position)
      | .thrown mapper error => .thrown { mapper := mapper, queueList := slots } error
      | .fault => .fault

/-- `get_queue`; the result is the slot of the queue, `none` for NULL. -/
def getQueue (threads : Nat) (registry : Registry) (key : Bytes) (create : Bool) :
    Outcome Registry Exc (Option Nat) :=
  match registry.mapper.find key with
  | none => .fault
  | some n =>
      if n ≠ 0 then
        match registry.slot n with
        | none => .fault
        | some found => .returned registry found
      else if !create then .returned registry none
      else
        -- looked up once more under `global_lock`
        match registry.mapper.find key with
        | none => .fault
        | some n =>
            if n ≠ 0 then
              match registry.slot n with
              | none => .fault
              | some found => .returned registry found
            else registry.createQueue threads key

/-- `delete_queue` up to the point where the queue is out of the registry. -/
def removeQueue (registry : Registry) (key : Bytes) :
    Option (Registry × Option QueueLine) :=
  match registry.mapper.del key with
  | none => none
  | some (mapper, n) =>
      if n = 0 then some ({ registry with mapper := mapper }, none)
      else
        match registry.queueList[n - 1]? with
        | some (some line) =>
            some ({ mapper := mapper, queueList := registry.queueList.set (n - 1) none }, some line)
        | _ => none

end Registry

end Ijson
