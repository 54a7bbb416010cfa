/-
The name trie of `mapper.cpp`.

Nodes live in one array and refer to their children by position, counted from
one.  `abuf` is the array that readers use; an `add` that runs out of room
continues in the private copy `bufT` and publishes it when the name is
complete.  Indices and values are `u16`, sizes are `int`.
-/

import Mathlib.Data.List.Basic
import Mathlib.Logic.Function.Basic
import Ijson.Slice
import Ijson.Outcome

namespace Ijson

structure Step where
  endValue : Nat
  std : Nat
  k : Fin 96 → Nat

/-- A node of memory cleared by `memset`. -/
def Step.zero : Step :=
  { endValue := 0
    std := 0
    k := fun _ => 0 }

/-- `step->k[a] = next`. -/
def Step.link (step : Step) (a : Fin 96) (next : Nat) : Step :=
  { step with k := Function.update step.k a next }

structure Mapper where
  abuf : List Step
  bufT : Option (List Step)
  size : Nat
  cap : Nat
  locked : Bool

def u16 (value : Nat) : Nat := value % 65536

/-- The character `*`, which ends a pattern. -/
def star : UInt8 := 42

/-- `a - 32` for a byte that passes the test `a < 32 || a >= 128`. -/
def childIndex (a : UInt8) : Option (Fin 96) :=
  if inRange : 32 ≤ a.toNat ∧ a.toNat < 128 then some ⟨a.toNat - 32, by omega⟩
  else none

/-- `_get_step`.  Node zero lies before the array; reading it, or anything
past the array, is undefined. -/
def getStep (buf : List Step) (n : Nat) : Option Step :=
  if n = 0 then none else buf[n - 1]?

namespace Mapper

def new : Mapper :=
  { abuf := List.replicate 4 Step.zero
    bufT := none
    size := 1
    cap := 4
    locked := false }

/-- The array `get_step_t` resolves positions in. -/
def stepBuf (mapper : Mapper) : List Step := mapper.bufT.getD mapper.abuf

/-- Assign to a field of `*get_step_t(n)`. -/
def writeStep (mapper : Mapper) (n : Nat) (change : Step → Step) : Option Mapper :=
  match getStep mapper.stepBuf n with
  | none => none
  | some step =>
      let buf := mapper.stepBuf.set (n - 1) (change step)
      match mapper.bufT with
      | none => some { mapper with abuf := buf }
      | some _ => some { mapper with bufT := some buf }

/-- `_next`.  The new length is an `int`, the returned position a `u16`. -/
def next (mapper : Mapper) : Mapper × Nat :=
  let size := mapper.size + 1
  if size ≤ mapper.cap then ({ mapper with size := size }, u16 size)
  else
    let cap := if mapper.cap ≥ 512 then mapper.cap + 256 else mapper.cap * 2
    let grown := mapper.stepBuf ++ List.replicate (cap - mapper.cap) Step.zero
    ({ mapper with size := size, cap := cap, bufT := some grown }, u16 size)

/-- The loop of `add`, with the rest of the name still to be read and the
node `nstep` reached so far. -/
def addLoop (value : Nat) : Bytes → Nat → Mapper → Outcome Mapper Exc Unit
  | [], nstep, mapper =>
      match mapper.writeStep nstep (fun step => { step with endValue := value }) with
      | none => .fault
      | some mapper => .returned mapper ()
  | a :: rest, nstep, mapper =>
      if a = star then
        match mapper.writeStep nstep (fun step => { step with std := value }) with
        | none => .fault
        | some mapper => .returned mapper ()
      else
        match childIndex a with
        | none => .thrown mapper (.exception "Wrong char")
        | some index =>
            match getStep mapper.stepBuf nstep with
            | none => .fault
            | some step =>
                if step.k index = 0 then
                  let (mapper, next) := mapper.next
                  match mapper.writeStep nstep (fun step => step.link index next) with
                  | none => .fault
                  | some mapper => addLoop value rest next mapper
                else addLoop value rest (step.k index) mapper

/-- `abuf.exchange(buf_t)` at the end of `add`. -/
def publish (mapper : Mapper) : Mapper :=
  match mapper.bufT with
  | none => mapper
  | some buf => { mapper with abuf := buf, bufT := none }

/-- `add` takes its mutex by hand: it is still held after the throw, and a
second lock of it never returns. -/
def add (mapper : Mapper) (name : Bytes) (value : Nat) : Outcome Mapper Exc Unit :=
  if mapper.locked then .fault
  else
    match addLoop value name 1 { mapper with locked := true } with
    | .returned mapper _ => .returned { mapper.publish with locked := false } ()
    | .thrown mapper error => .thrown mapper error
    | .fault => .fault

def findLoop (buf : List Step) : Bytes → Nat → Nat → Option Nat
  | [], n, std =>
      match getStep buf n with
      | none => none
      | some step =>
          let std := if step.std ≠ 0 then step.std else std
          some (if step.endValue ≠ 0 then step.endValue else std)
  | a :: rest, n, std =>
      match getStep buf n with
      | none => none
      | some step =>
          let std := if step.std ≠ 0 then step.std else std
          match childIndex a with
          | none => some std
          | some index =>
              if step.k index = 0 then some std else findLoop buf rest (step.k index) std

/-- `none` when the walk leaves the array. -/
def find (mapper : Mapper) (name : Bytes) : Option Nat := findLoop mapper.abuf name 1 0

def delLoop (buf : List Step) : Bytes → Nat → Option (List Step × Nat)
  | [], n =>
      match getStep buf n with
      | none => none
      | some step => some (buf.set (n - 1) { step with endValue := 0 }, step.endValue)
  | a :: rest, n =>
      match getStep buf n with
      | none => none
      | some step =>
          if a = star then some (buf.set (n - 1) { step with std := 0 }, step.std)
          else
            match childIndex a with
            | none => some (buf, 0)
            | some index =>
                if step.k index = 0 then some (buf, 0) else delLoop buf rest (step.k index)

def del (mapper : Mapper) (name : Bytes) : Option (Mapper × Nat) :=
  match delLoop mapper.abuf name 1 with
  | none => none
  | some (buf, result) => some ({ mapper with abuf := buf }, result)

end Mapper

end Ijson
