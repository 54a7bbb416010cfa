/-
JSON texts as RFC 8259 defines them, on bytes.

Bytes from 128 on stand for themselves inside strings; UTF-8 texts are a part
of what is accepted here.  `ok` is asked of every string of a text, keys
included: `fun _ => True` gives the plain grammar.
-/

import Mathlib.Data.List.Basic
import Ijson.Json

namespace Ijson

namespace JsonText

open Json

def isSpace (a : UInt8) : Bool := a = blank || a = newline || a = 13 || a = 9

/-- Whitespace between tokens. -/
def Space (text : Bytes) : Prop := ∀ a ∈ text, isSpace a = true

/-- The bytes after a backslash, other than `u`. -/
def simpleEscapes : Bytes := [quote, backslash, 47, 98, 102, 110, 114, 116]

/-- The contents of a string. -/
inductive StringBody : Bytes → Prop where
  | nil : StringBody []
  | plain {a : UInt8} {rest : Bytes} (printable : 32 ≤ a.toNat) (notQuote : a ≠ quote)
      (notEscape : a ≠ backslash) (later : StringBody rest) : StringBody (a :: rest)
  | escape {a : UInt8} {rest : Bytes} (simple : a ∈ simpleEscapes) (later : StringBody rest) :
      StringBody (backslash :: a :: rest)
  | unicode {digits rest : Bytes} (four : digits.length = 4)
      (hex : ∀ a ∈ digits, (hexDigit? a).isSome) (later : StringBody rest) :
      StringBody (backslash :: 117 :: digits ++ rest)

def Digits (text : Bytes) : Prop := text ≠ [] ∧ ∀ a ∈ text, (digit? a).isSome

/-- A number: sign, integer part, fraction and exponent. -/
structure NumberText (text : Bytes) : Prop where
  parts : ∃ sign whole fraction exponent, text = sign ++ whole ++ fraction ++ exponent ∧
    (sign = [] ∨ sign = [45]) ∧
    (whole = [48] ∨ Digits whole ∧ whole.head? ≠ some 48) ∧
    (fraction = [] ∨ ∃ digits, Digits digits ∧ fraction = 46 :: digits) ∧
    (exponent = [] ∨ ∃ mark exponentSign digits, Digits digits ∧ (mark = 101 ∨ mark = 69) ∧
      (exponentSign = [] ∨ exponentSign = [43] ∨ exponentSign = [45]) ∧
      exponent = mark :: exponentSign ++ digits)

def isLiteral (text : Bytes) : Bool :=
  text = ascii "null" || text = ascii "true" || text = ascii "false"

/-- Numbers and literals. -/
def Scalar (text : Bytes) : Prop := isLiteral text = true ∨ NumberText text

inductive Kind where
  | value
  | nested
  | elements
  | members

/-- `nested` is an array or object, `elements` and `members` what stands between
their brackets. -/
inductive Text (ok : Bytes → Prop) : Kind → Bytes → Prop where
  | scalar {text : Bytes} (scalar : Scalar text) : Text ok .value text
  | string {body : Bytes} (valid : StringBody body) (allowed : ok body) :
      Text ok .value (quote :: body ++ [quote])
  | nested {text : Bytes} (inner : Text ok .nested text) : Text ok .value text
  | emptyArray {gap : Bytes} (space : Space gap) :
      Text ok .nested (openBracket :: gap ++ [closeBracket])
  | array {text : Bytes} (inner : Text ok .elements text) :
      Text ok .nested (openBracket :: text ++ [closeBracket])
  | emptyObject {gap : Bytes} (space : Space gap) :
      Text ok .nested (openBrace :: gap ++ [closeBrace])
  | object {text : Bytes} (inner : Text ok .members text) :
      Text ok .nested (openBrace :: text ++ [closeBrace])
  | element {before text after : Bytes} (beforeSpace : Space before)
      (value : Text ok .value text) (afterSpace : Space after) :
      Text ok .elements (before ++ text ++ after)
  | moreElements {first rest : Bytes} (head : Text ok .elements first)
      (tail : Text ok .elements rest) : Text ok .elements (first ++ comma :: rest)
  | member {before key afterKey beforeValue text after : Bytes} (beforeSpace : Space before)
      (validKey : StringBody key) (allowed : ok key) (afterKeySpace : Space afterKey)
      (beforeValueSpace : Space beforeValue) (value : Text ok .value text)
      (afterSpace : Space after) :
      Text ok .members (before ++ quote :: key ++ quote :: afterKey ++ 58 :: beforeValue ++ text ++
        after)
  | moreMembers {first rest : Bytes} (head : Text ok .members first)
      (tail : Text ok .members rest) : Text ok .members (first ++ comma :: rest)

/-! ### Members of an object -/

/-- A value by the way it begins. -/
inductive RawValue where
  | string (body : Bytes)
  | scalar (text : Bytes)
  | nested (text : Bytes)

def RawValue.text : RawValue → Bytes
  | .string body => quote :: body ++ [quote]
  | .scalar text => text
  | .nested text => text

/-- A string without its quotes, any other value as it stands. -/
def RawValue.raw : RawValue → Bytes
  | .string body => body
  | .scalar text => text
  | .nested text => text

def RawValue.Valid (ok : Bytes → Prop) : RawValue → Prop
  | .string body => StringBody body ∧ ok body
  | .scalar text => Scalar text
  | .nested text => Text ok .nested text

/-- A member with the whitespace around its tokens. -/
structure Member where
  before : Bytes
  key : Bytes
  afterKey : Bytes
  beforeValue : Bytes
  value : RawValue
  after : Bytes

def Member.text (member : Member) : Bytes :=
  member.before ++ quote :: member.key ++ quote :: member.afterKey ++ 58 :: member.beforeValue ++
    member.value.text ++ member.after

structure Member.Valid (ok : Bytes → Prop) (member : Member) : Prop where
  before : Space member.before
  key : StringBody member.key ∧ ok member.key
  afterKey : Space member.afterKey
  beforeValue : Space member.beforeValue
  value : member.value.Valid ok
  after : Space member.after

/-- What follows an opening brace: the members and the closing brace. -/
def membersText : List Member → Bytes
  | [] => [closeBrace]
  | [last] => last.text ++ [closeBrace]
  | first :: rest => first.text ++ comma :: membersText rest

/-- An object with the whitespace around it; `gap` stands in an empty one. -/
structure ObjectText where
  lead : Bytes
  gap : Bytes
  members : List Member
  trail : Bytes

def ObjectText.bytes (object : ObjectText) : Bytes :=
  object.lead ++ openBrace ::
    (match object.members with
      | [] => object.gap ++ [closeBrace]
      | first :: rest => membersText (first :: rest)) ++ object.trail

structure ObjectText.Valid (ok : Bytes → Prop) (object : ObjectText) : Prop where
  lead : Space object.lead
  gap : Space object.gap
  members : ∀ member ∈ object.members, member.Valid ok
  trail : Space object.trail

/-! ### Weaker demands on strings -/

section Weaken

variable {ok weaker : Bytes → Prop}

theorem Text.mono (weaken : ∀ body, ok body → weaker body) {kind : Kind} {text : Bytes}
    (valid : Text ok kind text) : Text weaker kind text := by
  induction valid with
  | scalar scalar => exact .scalar scalar
  | string valid allowed => exact .string valid (weaken _ allowed)
  | nested _ ih => exact .nested ih
  | emptyArray space => exact .emptyArray space
  | array _ ih => exact .array ih
  | emptyObject space => exact .emptyObject space
  | object _ ih => exact .object ih
  | element beforeSpace _ afterSpace ih => exact .element beforeSpace ih afterSpace
  | moreElements _ _ headIh tailIh => exact .moreElements headIh tailIh
  | member beforeSpace validKey allowed afterKeySpace beforeValueSpace _ afterSpace ih =>
      exact .member beforeSpace validKey (weaken _ allowed) afterKeySpace beforeValueSpace ih afterSpace
  | moreMembers _ _ headIh tailIh => exact .moreMembers headIh tailIh

theorem RawValue.Valid.mono (weaken : ∀ body, ok body → weaker body) {value : RawValue}
    (valid : value.Valid ok) : value.Valid weaker := by
  cases value with
  | string body => exact ⟨valid.1, weaken body valid.2⟩
  | scalar text => exact valid
  | nested text => exact Text.mono weaken valid

theorem Member.Valid.mono (weaken : ∀ body, ok body → weaker body) {member : Member}
    (valid : member.Valid ok) : member.Valid weaker :=
  { valid with
    key := ⟨valid.key.1, weaken _ valid.key.2⟩
    value := valid.value.mono weaken }

theorem ObjectText.Valid.mono (weaken : ∀ body, ok body → weaker body) {object : ObjectText}
    (valid : object.Valid ok) : object.Valid weaker :=
  { valid with members := fun member isMember => (valid.members member isMember).mono weaken }

end Weaken

/-! ### Every object has its members -/

end JsonText

end Ijson
