/-
The scanner of `json.cpp`.

`index` counts the bytes of `data` taken so far; the routines below run over
`data.drop index` and give back the new index.  An exception leaves the members
of the object undefined here: nothing reads them before the next `load`.
-/

import Ijson.Text

namespace Ijson

structure Json where
  data : Bytes
  status : Nat
  index : Nat
  key : Bytes
  value : Bytes
  level : Nat
  deriving DecidableEq

namespace Json

/-- `reset`; the level stays. -/
def reset (json : Json) : Json :=
  { json with data := [], status := 0, index := 0, key := [], value := [] }

def empty : Json :=
  { data := []
    status := 0
    index := 0
    key := []
    value := []
    level := 0 }

def load (data : Bytes) (level : Nat) : Json :=
  { empty with data := data, level := level }

/-- `Slice(&ptr[start], stop - start)`. -/
def part (data : Bytes) (start stop : Nat) : Bytes := (data.drop start).take (stop - start)

def quote : UInt8 := 34

def backslash : UInt8 := 92

def openBrace : UInt8 := 123

def closeBrace : UInt8 := 125

def openBracket : UInt8 := 91

def closeBracket : UInt8 := 93

def comma : UInt8 := 44

/-- `next`: the byte at the index. -/
def next (data : Bytes) (index : Nat) : Except Exc UInt8 :=
  match data[index]? with
  | none => .error .invalidData
  | some a => .ok a

def stripLoop : Bytes → Nat → Except Exc Nat
  | [], _ => .error .invalidData
  | a :: rest, index =>
      if a = blank || a = newline || a = 13 || a = 9 then stripLoop rest (index + 1)
      else .ok index

def strip (data : Bytes) (index : Nat) : Except Exc Nat := stripLoop (data.drop index) index

/-- The search for the closing quote; `before` is the byte in front. -/
def stringLoop (before : UInt8) : Bytes → Nat → Except Exc Nat
  | [], _ => .error .invalidData
  | a :: rest, index =>
      if a = quote && before ≠ backslash then .ok index
      else stringLoop a rest (index + 1)

/-- `read_string`: the string between the quotes and the index behind it. -/
def readString (data : Bytes) (index : Nat) : Except Exc (Bytes × Nat) := do
  let a ← next data index
  if a ≠ quote then throw .invalidData
  let stop ← stringLoop a (data.drop (index + 1)) (index + 1)
  return (part data (index + 1) stop, stop + 1)

/-- The loop of `read_value`, which ends in front of the terminator. -/
def valueLoop (start : Nat) : Bytes → Nat → Bool → Except Exc (Nat × Bool)
  | [], _, _ => .error .invalidData
  | a :: rest, index, isNumber =>
      if a = blank || a = comma || a = closeBrace || a = newline || a = 13 then
        .ok (index, isNumber)
      else
        let isNumber := isNumber && (digit? a).isSome
        if !isNumber && index + 1 - start > 5 then .error .invalidData
        else valueLoop start rest (index + 1) isNumber

def readValue (data : Bytes) (index : Nat) : Except Exc (Bytes × Nat) := do
  let (stop, isNumber) ← valueLoop index (data.drop index) index true
  let result := part data index stop
  if !isNumber && !(result = ascii "null" || result = ascii "true" || result = ascii "false") then
    throw .invalidData
  return (result, stop)

/-- What the loop of `read_object` does inside a string: the byte in front, or
`none` outside of strings. -/
def objectLoop (level : Int) (inString : Option UInt8) : Bytes → Nat → Except Exc Nat
  | [], _ => .error .invalidData
  | a :: rest, index =>
      match inString with
      | some before =>
          if a = quote && before ≠ backslash then objectLoop level none rest (index + 1)
          else objectLoop level (some a) rest (index + 1)
      | none =>
          if a = openBrace || a = openBracket then objectLoop (level + 1) none rest (index + 1)
          else if a = closeBrace || a = closeBracket then
            if level - 1 = 0 then .ok (index + 1) else objectLoop (level - 1) none rest (index + 1)
          else if a = quote then objectLoop level (some quote) rest (index + 1)
          else objectLoop level none rest (index + 1)

def readObject (data : Bytes) (index : Nat) : Except Exc (Bytes × Nat) := do
  let stop ← objectLoop 0 none (data.drop index) index
  return (part data index stop, stop)

/-- The member behind the separator. -/
def member (json : Json) (index : Nat) : Except Exc (Json × Bool) := do
  let index ← strip json.data index
  let (key, index) ← readString json.data index
  let index ← strip json.data index
  let colon ← next json.data index
  if colon ≠ 58 then throw .invalidData
  let index ← strip json.data (index + 1)
  let a ← next json.data index
  let (value, index) ←
    if a = quote then readString json.data index
    else if a = openBrace || a = openBracket then readObject json.data index
    else readValue json.data index
  return ({ json with status := 1, index := index, key := key, value := value }, true)

/-- `scan`: the scanner at the next member, or `false` at the end. -/
def scan (json : Json) : Except Exc (Json × Bool) := do
  if json.data.isEmpty then return (json, false)
  let index ← strip json.data json.index
  let a ← next json.data index
  if json.status = 0 then
    if a ≠ openBrace then throw .invalidData
    let index ← strip json.data (index + 1)
    let a ← next json.data index
    if a = closeBrace then return ({ json with index := index + 1 }, false)
    json.member index
  else
    if a = closeBrace then return ({ json with index := index + 1 }, false)
    if a ≠ comma then throw .invalidData
    json.member (index + 1)

/-- The UTF-8 bytes `unescape` writes for a `\u` escape. -/
def encode (code : Nat) : Bytes :=
  if code ≤ 0x7f then [code.toUInt8]
  else if code ≤ 0x7ff then [(0xc0 ||| (code >>> 6)).toUInt8, (0x80 ||| (code &&& 0x3f)).toUInt8]
  else [(0xe0 ||| (code >>> 12)).toUInt8, (0x80 ||| ((code >>> 6) &&& 0x3f)).toUInt8,
    (0x80 ||| (code &&& 0x3f)).toUInt8]

/-- The loop of `json::unescape`: the bytes written, and whether it was left by
an exception.  It writes at most as much as it has read. -/
def unescapeLoop : Nat → Bytes → Bool → Bytes × Option Exc
  | 0, _, _ => ([], none)
  | _, [], _ => ([], none)
  | fuel + 1, a :: rest, escaped =>
      if escaped then
        if a = 117 && rest.length ≥ 4 then
          match hextoi (rest.take 4) with
          | .error error => ([], some error)
          | .ok code =>
              let (written, error) := unescapeLoop fuel (rest.drop 4) false
              (encode code.toNat ++ written, error)
        else
          let b : UInt8 :=
            if a = 98 then 8 else if a = 116 then 9 else if a = 110 then 10
            else if a = 102 then 12 else if a = 114 then 13 else a
          let (written, error) := unescapeLoop fuel rest false
          (b :: written, error)
      else if a = backslash then unescapeLoop fuel rest true
      else
        let (written, error) := unescapeLoop fuel rest false
        (a :: written, error)

/-- `json::unescape` from offset 0: an exception leaves the text half done and
at its old length. -/
def unescape (text : Bytes) : Bytes × Option Exc :=
  match unescapeLoop text.length text false with
  | (written, none) => (written, none)
  | (written, some error) => (written ++ text.drop written.length, some error)

end Json

end Ijson
