/-
Reading and writing numbers and lines: the parts of `ISlice`, `Slice` and
`Buffer` the protocol uses.

`char` is signed and the numbers are `i64`, which wraps as the compiled
arithmetic does.  A narrower target is cut off with `Int.bmod`.
-/

import Mathlib.Algebra.Group.Int.Defs
import Mathlib.Algebra.Group.Nat.Defs
import Ijson.Slice

namespace Ijson

def newline : UInt8 := 10

def blank : UInt8 := 32

/-- `Slice::pop_line`: the line with its line feed, and the rest. -/
def popLine : Bytes → Option (Bytes × Bytes)
  | [] => none
  | a :: rest =>
      if a = newline then some ([a], rest)
      else (popLine rest).map fun found => (a :: found.1, found.2)

/-- `Slice::rstrip`. -/
def rstrip (line : Bytes) : Bytes :=
  (line.reverse.dropWhile fun a => a = blank || a = newline || a = 13).reverse

/-- The lower case of an ASCII letter. -/
def lowerCase (a : UInt8) : UInt8 :=
  if 65 ≤ a.toNat && a.toNat ≤ 90 then a + 32 else a

/-- `ISlice::starts_with_lc`. -/
def startsWithLc (data key : Bytes) : Bool :=
  match key, data with
  | [], _ => true
  | _ :: _, [] => false
  | k :: key, a :: data => k == lowerCase a && startsWithLc data key

def digit? (a : UInt8) : Option Nat :=
  if 48 ≤ a.toNat ∧ a.toNat ≤ 57 then some (a.toNat - 48) else none

def i64 (value : Int) : Int := Int.bmod value (2 ^ 64)

def i32 (value : Int) : Int := Int.bmod value (2 ^ 32)

def u32 (value : Int) : Nat := (value % 2 ^ 32).toNat

/-- The digits of `ISlice::atoi`. -/
def atoiLoop : Bytes → Int → Except Exc Int
  | [], value => .ok value
  | a :: rest, value =>
      match digit? a with
      | none => .error .invalidData
      | some d => atoiLoop rest (i64 (value * 10 + d))

/-- `ISlice::atoi`. -/
def atoi (data : Bytes) : Except Exc Int :=
  match data with
  | [] => .error .noData
  | a :: rest =>
      if a = 45 then
        if rest.isEmpty then .error .invalidData
        else (atoiLoop rest 0).map fun value => i64 (-value)
      else atoiLoop data 0

def hexDigit? (a : UInt8) : Option Nat :=
  let n := a.toNat
  if 48 ≤ n ∧ n ≤ 57 then some (n - 48)
  else if 65 ≤ n ∧ n ≤ 70 then some (n - 55)
  else if 97 ≤ n ∧ n ≤ 102 then some (n - 87)
  else none

def hextoiLoop : Bytes → Int → Except Exc Int
  | [], value => .ok value
  | a :: rest, value =>
      match hexDigit? a with
      | none => .error .invalidData
      | some d => hextoiLoop rest (i64 (value * 16 + d))

/-- `ISlice::hextoi`. -/
def hextoi (data : Bytes) : Except Exc Int :=
  if data.isEmpty then .error .noData else hextoiLoop data 0

/-- The digit loop of `Buffer::add_number`; `/` and `%` round towards zero. -/
def numberLoop : Nat → Int → Bytes
  | 0, _ => []
  | fuel + 1, n =>
      if n = 0 then []
      else numberLoop fuel (n.tdiv 10) ++ [((n.tmod 10 + 48) % 256).toNat.toUInt8]

/-- What `Buffer::add_number` appends.  `-n` is an `i64` again. -/
def addNumber (n : Int) : Bytes :=
  if n = 0 then ascii "0"
  else if n < 0 then ascii "-" ++ numberLoop 20 (i64 (-n))
  else numberLoop 20 n

def hexLoop : Nat → Nat → Bytes
  | 0, _ => []
  | fuel + 1, n =>
      if n = 0 then []
      else
        let d := n % 16
        hexLoop fuel (n / 16) ++ [(if d < 10 then 48 + d else 87 + d).toUInt8]

/-- What `Buffer::add_hex` appends. -/
def addHex (n : Nat) : Bytes :=
  if n = 0 then ascii "0" else hexLoop 16 n

end Ijson
