/-
The scanner of `json.cpp` on JSON texts.

The scanner takes a quote for the end of a string unless a backslash stands in
front of it, so a string that ends in an escaped backslash is read on.  Numbers
are runs of digits to it, and a tab does not end a number or a literal.
-/

import Ijson.JsonGrammar

namespace Ijson

open Json JsonText

/-- A string whose closing quote the scanner recognises. -/
def Tame (body : Bytes) : Prop := body.getLast? ≠ some backslash

instance (body : Bytes) : Decidable (Tame body) := inferInstanceAs (Decidable (_ ≠ _))

/-! ### Positions -/

theorem part_eq {data left rest : Bytes} {index : Nat} (stands : data.drop index = left ++ rest) :
    part data index (index + left.length) = left := by
  rw [part, stands, Nat.add_sub_cancel_left, List.take_left]

theorem drop_add {data left rest : Bytes} {index : Nat} (stands : data.drop index = left ++ rest) :
    data.drop (index + left.length) = rest := by
  rw [← List.drop_drop, stands, List.drop_left]

theorem next_eq {data rest : Bytes} {index : Nat} {a : UInt8} (stands : data.drop index = a :: rest) :
    next data index = .ok a := by
  have access : data[index]? = some a := by
    rw [← List.head?_drop, stands]
    rfl
  rw [next, access]

theorem drop_succ {data rest : Bytes} {index : Nat} {a : UInt8}
    (stands : data.drop index = a :: rest) : data.drop (index + 1) = rest :=
  @drop_add _ [a] _ _ (by simpa using stands)

theorem stripLoop_eq {gap rest : Bytes} {a : UInt8} {index : Nat} (space : Space gap)
    (token : isSpace a = false) : stripLoop (gap ++ a :: rest) index = .ok (index + gap.length) := by
  induction gap generalizing index with
  | nil =>
      rw [List.nil_append, stripLoop]
      have stays : ¬ (a = blank || a = newline || a = 13 || a = 9) = true := by
        intro isBlank
        rw [show isSpace a = true from isBlank] at token
        cases token
      rw [if_neg stays]
      rfl
  | cons b gap ih =>
      have isBlank : (b = blank || b = newline || b = 13 || b = 9) = true :=
        space b List.mem_cons_self
      rw [List.cons_append, stripLoop, if_pos isBlank,
        ih fun other member => space other (List.mem_cons_of_mem b member), List.length_cons]
      congr 1
      omega

theorem strip_eq {data gap rest : Bytes} {a : UInt8} {index : Nat}
    (stands : data.drop index = gap ++ a :: rest) (space : Space gap) (token : isSpace a = false) :
    strip data index = .ok (index + gap.length) := by
  rw [strip, stands]
  exact stripLoop_eq space token

/-! ### Strings -/

/-- The scanner passes the text and stops at a quote behind it; `before` is the
byte in front. -/
def Passes (before : UInt8) : Bytes → Prop
  | [] => before ≠ backslash
  | a :: rest => (a = quote → before = backslash) ∧ Passes a rest

theorem passes_hex {digits rest : Bytes} {before : UInt8}
    (hex : ∀ a ∈ digits, (hexDigit? a).isSome) (start : before ≠ backslash)
    (later : ∀ b, b ≠ backslash → Passes b rest) : Passes before (digits ++ rest) := by
  induction digits generalizing before with
  | nil => exact later before start
  | cons a digits ih =>
      have isHex := hex a List.mem_cons_self
      refine ⟨fun isQuote => ?_, ih (fun b member => hex b (List.mem_cons_of_mem a member)) ?_⟩
      · rw [isQuote] at isHex
        exact absurd isHex (by decide)
      · intro isBackslash
        rw [isBackslash] at isHex
        exact absurd isHex (by decide)

theorem Tame.of_append {left right : Bytes} (tame : Tame (left ++ right)) : Tame right := by
  cases right with
  | nil => exact fun nothing => by cases nothing
  | cons a right =>
      rw [Tame, List.getLast?_append, List.getLast?_cons] at tame
      rw [Tame, List.getLast?_cons]
      exact tame

/-- A valid string that does not end in a backslash is passed.  The byte in
front matters to an empty one only. -/
theorem passes_of_tame {body : Bytes} (valid : StringBody body) (tame : Tame body)
    {before : UInt8} (front : body = [] → before ≠ backslash) : Passes before body := by
  induction valid generalizing before with
  | nil => exact front rfl
  | @plain a rest _ notQuote notEscape _ ih =>
      have later : Tame rest := @Tame.of_append [a] rest tame
      exact ⟨fun isQuote => absurd isQuote notQuote, ih later fun _ => notEscape⟩
  | @escape a rest simple _ ih =>
      have later : Tame rest := @Tame.of_append [backslash, a] rest tame
      refine ⟨fun isQuote => absurd isQuote (by decide), fun _ => rfl, ih later ?_⟩
      intro empty escaped
      rw [empty, escaped] at tame
      exact tame rfl
  | @unicode digits rest _ hex _ ih =>
      have later : Tame rest :=
        @Tame.of_append (backslash :: 117 :: digits) rest (by simpa using tame)
      refine ⟨fun isQuote => absurd isQuote (by decide), fun isQuote => absurd isQuote (by decide), ?_⟩
      exact passes_hex hex (by decide) fun b start => ih later fun _ => start

theorem stringLoop_passes {body : Bytes} (rest : Bytes) {before : UInt8} (index : Nat)
    (passes : Passes before body) :
    stringLoop before (body ++ quote :: rest) index = .ok (index + body.length) := by
  induction body generalizing before index with
  | nil =>
      have front : before ≠ backslash := passes
      rw [List.nil_append, stringLoop, if_pos (by simpa using front)]
      rfl
  | cons a body ih =>
      obtain ⟨here, later⟩ := passes
      rw [List.cons_append, stringLoop, if_neg (by simpa using here), ih (index + 1) later,
        List.length_cons]
      congr 1
      omega

/-- Where the scanner stops there is a quote without a backslash in front. -/
theorem stringLoop_stops {text : Bytes} {before : UInt8} {index stop : Nat}
    (stopped : stringLoop before text index = .ok stop) :
    ∃ body rest, text = body ++ quote :: rest ∧ stop = index + body.length ∧
      (before :: body).getLast? ≠ some backslash := by
  induction text generalizing before index with
  | nil => cases stopped
  | cons a text ih =>
      rw [stringLoop] at stopped
      split at stopped
      · rename_i ends
        simp only [Bool.and_eq_true, decide_eq_true_eq] at ends
        cases stopped
        refine ⟨[], text, by rw [ends.1]; rfl, rfl, ?_⟩
        simpa using ends.2
      · obtain ⟨body, rest, textEq, stopEq, last⟩ := ih stopped
        refine ⟨a :: body, rest, by rw [textEq]; rfl, by rw [stopEq, List.length_cons]; omega, ?_⟩
        rw [List.getLast?_cons_cons]
        exact last

theorem readString_eq (data : Bytes) (index : Nat) :
    readString data index =
      match next data index with
      | .error error => .error error
      | .ok a =>
          if a ≠ quote then .error .invalidData
          else
            match stringLoop a (data.drop (index + 1)) (index + 1) with
            | .error error => .error error
            | .ok stop => .ok (part data (index + 1) stop, stop + 1) := by
  rw [readString]
  cases next data index with
  | error error => rfl
  | ok a =>
      by_cases isQuote : a ≠ quote
      · simp only [bind, Except.bind, if_pos isQuote]
        rfl
      · simp only [bind, Except.bind, if_neg isQuote]
        cases stringLoop a (data.drop (index + 1)) (index + 1) with
        | error error => rfl
        | ok stop => rfl

theorem readString_tame {data body rest : Bytes} {index : Nat}
    (stands : data.drop index = quote :: body ++ quote :: rest) (valid : StringBody body)
    (tame : Tame body) : readString data index = .ok (body, index + body.length + 2) := by
  have inside : data.drop (index + 1) = body ++ quote :: rest := drop_succ stands
  rw [readString_eq, next_eq stands]
  simp only [ne_eq, not_true_eq_false, if_false]
  rw [inside, stringLoop_passes rest (index + 1) (passes_of_tame valid tame fun _ => by decide)]
  simp only
  rw [part_eq inside]
  congr 2
  omega

/-- A string that is read as it is meant does not end in a backslash. -/
theorem tame_of_readString {data body rest : Bytes} {index stop : Nat}
    (stands : data.drop index = quote :: body ++ quote :: rest)
    (read : readString data index = .ok (body, stop)) :
    Tame body ∧ stop = index + body.length + 2 := by
  have inside : data.drop (index + 1) = body ++ quote :: rest := drop_succ stands
  rw [readString_eq, next_eq stands] at read
  simp only [ne_eq, not_true_eq_false, if_false] at read
  split at read
  · cases read
  · rename_i closing closingEq
    obtain ⟨found, behind, foundEq, closingAt, last⟩ := stringLoop_stops closingEq
    rw [foundEq] at inside
    simp only [Except.ok.injEq, Prod.mk.injEq] at read
    rw [closingAt, part_eq foundEq] at read
    obtain ⟨same, stopEq⟩ := read
    rw [same] at last stopEq
    refine ⟨?_, by omega⟩
    cases body with
    | nil => exact fun nothing => by cases nothing
    | cons a body =>
        rw [List.getLast?_cons_cons] at last
        exact last

/-! ### Arrays and objects -/

def isPlain (a : UInt8) : Bool :=
  !(a = quote || a = openBrace || a = openBracket || a = closeBrace || a = closeBracket)

theorem objectLoop_plain {text : Bytes} (rest : Bytes) (level : Int) (index : Nat)
    (plain : ∀ a ∈ text, isPlain a = true) :
    objectLoop level none (text ++ rest) index =
      objectLoop level none rest (index + text.length) := by
  induction text generalizing index with
  | nil => rfl
  | cons a text ih =>
      have here := plain a List.mem_cons_self
      simp only [isPlain, Bool.not_eq_true', Bool.or_eq_false_iff, decide_eq_false_iff_not] at here
      rw [List.cons_append, objectLoop]
      simp only [here, decide_false, Bool.or_false, Bool.false_eq_true, if_false]
      rw [ih (index + 1) fun b member => plain b (List.mem_cons_of_mem a member), List.length_cons]
      congr 1
      omega

theorem objectLoop_inString {body : Bytes} (rest : Bytes) (level : Int) {before : UInt8}
    (index : Nat) (passes : Passes before body) :
    objectLoop level (some before) (body ++ quote :: rest) index =
      objectLoop level none rest (index + body.length + 1) := by
  induction body generalizing before index with
  | nil =>
      have front : before ≠ backslash := passes
      rw [List.nil_append, objectLoop]
      simp [front]
  | cons a body ih =>
      obtain ⟨here, later⟩ := passes
      rw [List.cons_append, objectLoop, if_neg (by simpa using here), ih (index + 1) later, List.length_cons]
      congr 1
      omega

theorem objectLoop_string {body : Bytes} (rest : Bytes) (level : Int) (index : Nat)
    (valid : StringBody body) (tame : Tame body) :
    objectLoop level none (quote :: body ++ quote :: rest) index =
      objectLoop level none rest (index + body.length + 2) := by
  rw [List.cons_append, objectLoop]
  have isQuote : (quote = openBrace || quote = openBracket) = false := by decide
  have notClosing : (quote = closeBrace || quote = closeBracket) = false := by decide
  simp only [isQuote, notClosing, Bool.false_eq_true, if_false, if_true]
  rw [objectLoop_inString rest level (index + 1) (passes_of_tame valid tame fun _ => by decide)]
  congr 1
  omega

theorem plain_of_space {gap : Bytes} (space : Space gap) : ∀ a ∈ gap, isPlain a = true := by
  intro a member
  have isBlank := space a member
  simp only [isSpace, Bool.or_eq_true, decide_eq_true_eq] at isBlank
  rcases isBlank with ((same | same) | same) | same <;> (rw [same]; decide)

/-- The bytes of numbers and literals. -/
def isScalarByte (a : UInt8) : Bool := (digit? a).isSome || a ∈ ascii "+-.eEnulltruefalse"

theorem forall_byte (holds : UInt8 → Bool) (each : ∀ n : Fin 256, holds (UInt8.ofNat n) = true)
    (a : UInt8) : holds a = true := by
  have found := each ⟨a.toNat, a.toNat_lt⟩
  rwa [show UInt8.ofNat a.toNat = a from UInt8.ofNat_toNat] at found

theorem isPlain_of_scalar {a : UInt8} (scalar : isScalarByte a = true) : isPlain a = true := by
  have each := forall_byte (fun a => !isScalarByte a || isPlain a) (by decide +kernel) a
  simpa [scalar] using each

theorem isSpace_of_scalar {a : UInt8} (scalar : isScalarByte a = true) : isSpace a = false := by
  have each := forall_byte (fun a => !isScalarByte a || !isSpace a) (by decide +kernel) a
  simpa [scalar] using each

theorem scalar_bytes {text : Bytes} (scalar : Scalar text) :
    text ≠ [] ∧ ∀ a ∈ text, isScalarByte a = true := by
  have ofDigits : ∀ digits, Digits digits → ∀ a ∈ digits, isScalarByte a = true := by
    intro digits isDigits a member
    rw [isScalarByte, isDigits.2 a member]
    rfl
  rcases scalar with literal | ⟨sign, whole, fraction, exponent, textEq, signEq, wholeEq, fractionEq,
    exponentEq⟩
  · simp only [isLiteral, Bool.or_eq_true, decide_eq_true_eq] at literal
    rcases literal with (same | same) | same <;> (rw [same]; exact ⟨by decide, List.all_eq_true.mp (by decide)⟩)
  · have signBytes : ∀ a ∈ sign, isScalarByte a = true := by
      rcases signEq with same | same <;> (rw [same]; exact List.all_eq_true.mp (by decide))
    have wholeBytes : whole ≠ [] ∧ ∀ a ∈ whole, isScalarByte a = true := by
      rcases wholeEq with same | ⟨digits, _⟩
      · rw [same]
        exact ⟨List.cons_ne_nil _ _, List.all_eq_true.mp (by decide)⟩
      · exact ⟨digits.1, ofDigits whole digits⟩
    have fractionBytes : ∀ a ∈ fraction, isScalarByte a = true := by
      rcases fractionEq with same | ⟨digits, isDigits, same⟩
      · rw [same]
        exact List.forall_mem_nil _
      · intro a member
        rw [same] at member
        rcases List.mem_cons.mp member with point | later
        · rw [point]
          decide
        · exact ofDigits digits isDigits a later
    have exponentBytes : ∀ a ∈ exponent, isScalarByte a = true := by
      rcases exponentEq with same | ⟨mark, exponentSign, digits, isDigits, markEq, exponentSignEq, same⟩
      · rw [same]
        exact List.forall_mem_nil _
      · have markByte : isScalarByte mark = true := by
          rcases markEq with lower | upper
          · rw [lower]
            decide
          · rw [upper]
            decide
        have exponentSignBytes : ∀ a ∈ exponentSign, isScalarByte a = true := by
          rcases exponentSignEq with same | same | same <;> (rw [same]; exact List.all_eq_true.mp (by decide))
        intro a member
        rw [same] at member
        rcases List.mem_append.mp member with front | later
        · rcases List.mem_cons.mp front with isMark | inSign
          · rw [isMark]
            exact markByte
          · exact exponentSignBytes a inSign
        · exact ofDigits digits isDigits a later
    refine ⟨?_, ?_⟩
    · rw [textEq]
      simp [wholeBytes.1]
    · intro a member
      rw [textEq] at member
      simp only [List.mem_append] at member
      rcases member with ((inSign | inWhole) | inFraction) | inExponent
      · exact signBytes a inSign
      · exact wholeBytes.2 a inWhole
      · exact fractionBytes a inFraction
      · exact exponentBytes a inExponent

/-- Inside of brackets the text is passed as a whole. -/
def Through (text : Bytes) : Prop :=
  ∀ rest level index, 1 ≤ level →
    objectLoop level none (text ++ rest) index = objectLoop level none rest (index + text.length)

theorem Through.append {left right : Bytes} (leftThrough : Through left)
    (rightThrough : Through right) : Through (left ++ right) := by
  intro rest level index inside
  rw [List.append_assoc, leftThrough _ level index inside, rightThrough _ level _ inside,
    List.length_append, Nat.add_assoc]

theorem through_plain {text : Bytes} (plain : ∀ a ∈ text, isPlain a = true) : Through text :=
  fun rest level index _ => objectLoop_plain rest level index plain

theorem through_space {gap : Bytes} (space : Space gap) : Through gap :=
  through_plain (plain_of_space space)

theorem through_string {body : Bytes} (valid : StringBody body) (tame : Tame body) :
    Through (quote :: body ++ [quote]) := by
  intro rest level index _
  rw [List.append_assoc, List.singleton_append, objectLoop_string rest level index valid tame]
  congr 1
  simp
  omega

theorem objectLoop_open {a : UInt8} (opens : a = openBrace ∨ a = openBracket) (rest : Bytes)
    (level : Int) (index : Nat) :
    objectLoop level none (a :: rest) index = objectLoop (level + 1) none rest (index + 1) := by
  rw [objectLoop, if_pos (by simpa using opens)]

theorem objectLoop_close {a : UInt8} (closes : a = closeBrace ∨ a = closeBracket) (rest : Bytes)
    (level : Int) (index : Nat) :
    objectLoop level none (a :: rest) index =
      if level - 1 = 0 then .ok (index + 1) else objectLoop (level - 1) none rest (index + 1) := by
  have notOpening : (a = openBrace || a = openBracket) = false := by
    rcases closes with same | same <;> (rw [same]; decide)
  rw [objectLoop, if_neg (by rw [notOpening]; decide), if_pos (by simpa using closes)]

theorem through_brackets {text : Bytes} {a b : UInt8} (opens : a = openBrace ∨ a = openBracket)
    (closes : b = closeBrace ∨ b = closeBracket) (inner : Through text) :
    Through (a :: text ++ [b]) := by
  intro rest level index inside
  rw [List.append_assoc, List.cons_append, objectLoop_open opens,
    inner _ (level + 1) (index + 1) (by omega), List.singleton_append, objectLoop_close closes,
    if_neg (by omega)]
  congr 1
  · omega
  · simp
    omega

theorem through_text {kind : Kind} {text : Bytes} (valid : Text Tame kind text) : Through text := by
  induction valid with
  | scalar scalar => exact through_plain fun a member => isPlain_of_scalar ((scalar_bytes scalar).2 a member)
  | string valid tame => exact through_string valid tame
  | nested _ ih => exact ih
  | emptyArray space => exact through_brackets (Or.inr rfl) (Or.inr rfl) (through_space space)
  | array _ ih => exact through_brackets (Or.inr rfl) (Or.inr rfl) ih
  | emptyObject space => exact through_brackets (Or.inl rfl) (Or.inl rfl) (through_space space)
  | object _ ih => exact through_brackets (Or.inl rfl) (Or.inl rfl) ih
  | element beforeSpace _ afterSpace ih =>
      exact ((through_space beforeSpace).append ih).append (through_space afterSpace)
  | moreElements _ _ headIh tailIh =>
      exact headIh.append ((@through_plain [comma] (List.all_eq_true.mp (by decide))).append tailIh)
  | @member before key afterKey beforeValue text after beforeSpace validKey tame afterKeySpace
      beforeValueSpace _ afterSpace ih =>
      have tokens : before ++ quote :: key ++ quote :: afterKey ++ 58 :: beforeValue ++ text ++ after =
          before ++ (quote :: key ++ [quote]) ++ afterKey ++ [58] ++ beforeValue ++ text ++ after := by
        simp
      rw [tokens]
      have keyThrough := (through_space beforeSpace).append (through_string validKey tame)
      have colonThrough := (keyThrough.append (through_space afterKeySpace)).append
        (@through_plain [58] (List.all_eq_true.mp (by decide)))
      exact ((colonThrough.append (through_space beforeValueSpace)).append ih).append
        (through_space afterSpace)
  | moreMembers _ _ headIh tailIh =>
      exact headIh.append ((@through_plain [comma] (List.all_eq_true.mp (by decide))).append tailIh)

/-- The step of the loop: how many brackets a byte opens, and whether it leaves
the scanner inside of a string. -/
def turn : Option UInt8 → UInt8 → Int
  | some _, _ => 0
  | none, a =>
      if a = openBrace || a = openBracket then 1
      else if a = closeBrace || a = closeBracket then -1
      else 0

def inside : Option UInt8 → UInt8 → Option UInt8
  | some before, a => if a = quote && before ≠ backslash then none else some a
  | none, a => if a = quote then some quote else none

/-- The brackets a text leaves open, when a string goes up to the first quote
without a backslash directly in front. -/
def nesting : Option UInt8 → Bytes → Int
  | _, [] => 0
  | inString, a :: rest => turn inString a + nesting (inside inString a) rest

/-- In this count the first bracket is closed by the last byte, and not before. -/
structure Closed (text : Bytes) : Prop where
  whole : nesting none text = 0
  before : ∀ left right, text = left ++ right → left ≠ [] → right ≠ [] → 0 < nesting none left

theorem objectLoop_cons {level : Int} (inString : Option UInt8) (a : UInt8) (rest : Bytes)
    (index : Nat) (isOpen : 1 ≤ level) :
    objectLoop level inString (a :: rest) index =
      if level + turn inString a = 0 then .ok (index + 1)
      else objectLoop (level + turn inString a) (inside inString a) rest (index + 1) := by
  cases inString with
  | some before =>
      rw [turn, Int.add_zero, if_neg (by omega), objectLoop, inside]
      split
      · rfl
      · rfl
  | none =>
      rw [objectLoop, turn, inside]
      by_cases opens : (a = openBrace || a = openBracket) = true
      · have noQuote : a ≠ quote := by
          intro same
          rw [same] at opens
          cases opens
        rw [if_pos opens, if_pos opens, if_neg (by omega), if_neg noQuote]
      · rw [if_neg opens, if_neg opens]
        by_cases closes : (a = closeBrace || a = closeBracket) = true
        · have noQuote : a ≠ quote := by
            intro same
            rw [same] at closes
            cases closes
          rw [if_pos closes, if_pos closes, if_neg noQuote]
          rfl
        · have notZero : ¬ level = 0 := by omega
          rw [if_neg closes, if_neg closes, Int.add_zero, if_neg notZero]
          by_cases isQuote : a = quote
          · rw [if_pos isQuote, if_pos isQuote]
          · rw [if_neg isQuote, if_neg isQuote]

theorem turn_ge (inString : Option UInt8) (a : UInt8) : -1 ≤ turn inString a := by
  cases inString with
  | some before =>
      rw [turn]
      decide
  | none =>
      rw [turn]
      split
      · decide
      · split
        · decide
        · decide

theorem objectLoop_bounds {text : Bytes} {level : Int} {inString : Option UInt8} {index stop : Nat}
    (isOpen : 1 ≤ level) (stops : objectLoop level inString text index = .ok stop) :
    index < stop ∧ stop ≤ index + text.length := by
  induction text generalizing level inString index with
  | nil => cases stops
  | cons a text ih =>
      have atLeast := turn_ge inString a
      rw [objectLoop_cons inString a text index isOpen] at stops
      rw [List.length_cons]
      split at stops
      · cases stops
        omega
      · have bounds := ih (by omega) stops
        omega

/-- The loop stops behind the byte that closes the last open bracket. -/
theorem objectLoop_iff {left : Bytes} (right : Bytes) {level : Int} (inString : Option UInt8)
    (index : Nat) (isOpen : 1 ≤ level) :
    objectLoop level inString (left ++ right) index = .ok (index + left.length) ↔
      level + nesting inString left = 0 ∧
        ∀ front back, left = front ++ back → back ≠ [] → 0 < level + nesting inString front := by
  induction left generalizing level inString index with
  | nil =>
      constructor
      · intro stops
        have later := (objectLoop_bounds isOpen stops).1
        rw [List.length_nil] at later
        omega
      · intro balanced
        have nothing : level + 0 = 0 := balanced.1
        omega
  | cons a left ih =>
      have atLeast := turn_ge inString a
      rw [List.cons_append, objectLoop_cons inString a _ index isOpen, nesting, List.length_cons]
      by_cases closes : level + turn inString a = 0
      · rw [if_pos closes]
        constructor
        · intro stops
          have short : left = [] := by
            simp only [Except.ok.injEq] at stops
            exact List.length_eq_zero_iff.mp (by omega)
          rw [short]
          refine ⟨by rw [nesting]; omega, ?_⟩
          intro front back split later
          cases front with
          | nil =>
              rw [nesting]
              omega
          | cons b front =>
              rw [List.cons_append, List.cons.injEq] at split
              exact absurd (List.append_eq_nil_iff.mp split.2.symm).2 later
        · intro balanced
          cases left with
          | nil => rfl
          | cons b left =>
              have early := balanced.2 [a] (b :: left) rfl (by simp)
              rw [nesting, nesting] at early
              omega
      · rw [if_neg closes]
        have stillOpen : 1 ≤ level + turn inString a := by omega
        have shift : index + (left.length + 1) = index + 1 + left.length := by omega
        rw [shift, ih (inside inString a) (index + 1) stillOpen, Int.add_assoc]
        refine and_congr Iff.rfl ⟨fun each front back split later => ?_, fun each front back split later => ?_⟩
        · cases front with
          | nil =>
              rw [nesting]
              omega
          | cons b front =>
              rw [List.cons_append, List.cons.injEq] at split
              rw [nesting, ← split.1, ← Int.add_assoc]
              exact each front back split.2 later
        · have ahead := each (a :: front) back (by rw [split]; rfl) later
          rw [nesting, ← Int.add_assoc] at ahead
          exact ahead

theorem nested_head {ok : Bytes → Prop} {text : Bytes} (valid : Text ok .nested text) :
    ∃ a rest, text = a :: rest ∧ (a = openBrace || a = openBracket) = true := by
  cases valid with
  | emptyArray _ => exact ⟨openBracket, _, rfl, rfl⟩
  | array _ => exact ⟨openBracket, _, rfl, rfl⟩
  | emptyObject _ => exact ⟨openBrace, _, rfl, rfl⟩
  | object _ => exact ⟨openBrace, _, rfl, rfl⟩

theorem closed_cons {a : UInt8} {inner : Bytes} (opens : (a = openBrace || a = openBracket) = true) :
    Closed (a :: inner) ↔
      1 + nesting none inner = 0 ∧
        ∀ front back, inner = front ++ back → back ≠ [] → 0 < 1 + nesting none front := by
  have noQuote : a ≠ quote := by
    intro same
    rw [same] at opens
    cases opens
  have count : ∀ text, nesting none (a :: text) = 1 + nesting none text := by
    intro text
    rw [nesting, turn, if_pos opens, inside, if_neg noQuote]
  constructor
  · intro closed
    refine ⟨by rw [← count]; exact closed.whole, fun front back split later => ?_⟩
    rw [← count]
    exact closed.before (a :: front) back (by rw [split]; rfl) (by simp) later
  · intro balanced
    refine ⟨by rw [count]; exact balanced.1, fun left right split notEmpty later => ?_⟩
    cases left with
    | nil => exact absurd rfl notEmpty
    | cons b left =>
        rw [List.cons_append, List.cons.injEq] at split
        rw [← split.1, count]
        exact balanced.2 left right split.2 later

theorem objectLoop_closed {ok : Bytes → Prop} {text : Bytes} (rest : Bytes) (index : Nat)
    (valid : Text ok .nested text) :
    objectLoop 0 none (text ++ rest) index = .ok (index + text.length) ↔ Closed text := by
  obtain ⟨a, inner, textEq, opens⟩ := nested_head valid
  have opening : a = openBrace ∨ a = openBracket := by simpa using opens
  have shift : index + (inner.length + 1) = index + 1 + inner.length := by omega
  rw [textEq, closed_cons opens, List.cons_append, objectLoop_open opening, List.length_cons, shift]
  exact objectLoop_iff rest none (index + 1) (by decide)

theorem readObject_eq (data : Bytes) (index : Nat) :
    readObject data index =
      match objectLoop 0 none (data.drop index) index with
      | .error error => .error error
      | .ok stop => .ok (part data index stop, stop) := by
  rw [readObject]
  cases objectLoop 0 none (data.drop index) index with
  | error error => rfl
  | ok stop => rfl

theorem readObject_closed {ok : Bytes → Prop} {data text rest : Bytes} {index : Nat}
    (stands : data.drop index = text ++ rest) (valid : Text ok .nested text) (closed : Closed text) :
    readObject data index = .ok (text, index + text.length) := by
  rw [readObject_eq, stands, (objectLoop_closed rest index valid).mpr closed]
  simp only
  rw [part_eq stands]

theorem closed_of_readObject {ok : Bytes → Prop} {data text rest : Bytes} {index stop : Nat}
    (stands : data.drop index = text ++ rest) (valid : Text ok .nested text)
    (read : readObject data index = .ok (text, stop)) :
    Closed text ∧ stop = index + text.length := by
  rw [readObject_eq] at read
  split at read
  · cases read
  · rename_i closing looped
    simp only [Except.ok.injEq, Prod.mk.injEq] at read
    obtain ⟨partEq, stopEq⟩ := read
    rw [stands] at looped
    have bounds : index ≤ closing ∧ closing ≤ index + (text ++ rest).length := by
      obtain ⟨a, inner, textEq, opens⟩ := nested_head valid
      rw [textEq, List.cons_append, objectLoop_open (by simpa using opens)] at looped
      have later := objectLoop_bounds (by decide) looped
      rw [textEq, List.cons_append, List.length_cons]
      omega
    have lengths := congrArg List.length partEq
    rw [part, List.length_take, stands] at lengths
    have closingEq : closing = index + text.length := by omega
    rw [closingEq] at looped
    exact ⟨(objectLoop_closed rest index valid).mp looped, by rw [← stopEq, closingEq]⟩

/-- Where no string ends in a backslash the scanner sees the brackets as they
are meant. -/
theorem closed_of_tame {text : Bytes} (valid : Text Tame .nested text) : Closed text := by
  have around : ∀ {inner : Bytes} {a b : UInt8}, (a = openBrace ∨ a = openBracket) →
      (b = closeBrace ∨ b = closeBracket) → Through inner → text = a :: inner ++ [b] →
      objectLoop 0 none (text ++ []) 0 = .ok (0 + text.length) := by
    intro inner a b opens closes through textEq
    rw [textEq, List.append_assoc, List.cons_append, objectLoop_open opens,
      through _ (0 + 1) (0 + 1) (by decide), List.singleton_append, objectLoop_close closes,
      if_pos (by decide)]
    congr 1
    simp
    omega
  refine (objectLoop_closed [] 0 valid).mp ?_
  cases valid with
  | emptyArray space => exact around (Or.inr rfl) (Or.inr rfl) (through_space space) rfl
  | array inner => exact around (Or.inr rfl) (Or.inr rfl) (through_text inner) rfl
  | emptyObject space => exact around (Or.inl rfl) (Or.inl rfl) (through_space space) rfl
  | object inner => exact around (Or.inl rfl) (Or.inl rfl) (through_text inner) rfl

/-! ### Numbers and literals -/

/-- The bytes at which `read_value` stops. -/
def ends (a : UInt8) : Bool :=
  a = blank || a = comma || a = closeBrace || a = newline || a = 13

theorem ends_of_scalar {a : UInt8} (scalar : isScalarByte a = true) : ends a = false := by
  have each := forall_byte (fun a => !isScalarByte a || !ends a) (by decide +kernel) a
  simpa [scalar] using each

theorem valueLoop_cons (start : Nat) (a : UInt8) (rest : Bytes) (index : Nat) (isNumber : Bool) :
    valueLoop start (a :: rest) index isNumber =
      if ends a = true then .ok (index, isNumber)
      else if (!(isNumber && (digit? a).isSome) && decide (index + 1 - start > 5)) = true then
        .error .invalidData
      else valueLoop start rest (index + 1) (isNumber && (digit? a).isSome) := rfl

theorem valueLoop_digits {start : Nat} {text rest : Bytes} {a : UInt8} (stops : ends a = true)
    (digits : ∀ b ∈ text, (digit? b).isSome) (index : Nat) :
    valueLoop start (text ++ a :: rest) index true = .ok (index + text.length, true) := by
  induction text generalizing index with
  | nil =>
      rw [List.nil_append, valueLoop_cons, if_pos stops]
      rfl
  | cons b text ih =>
      have isDigit := digits b List.mem_cons_self
      have goesOn := ends_of_scalar (a := b) (by rw [isScalarByte, isDigit]; rfl)
      rw [List.cons_append, valueLoop_cons, if_neg (by rw [goesOn]; decide)]
      simp only [isDigit, Bool.and_self, Bool.not_true, Bool.false_and, Bool.false_eq_true, if_false]
      rw [ih (fun other member => digits other (List.mem_cons_of_mem b member)), List.length_cons]
      congr 2
      omega

theorem valueLoop_short {start : Nat} {text rest : Bytes} {a : UInt8} (stops : ends a = true)
    (goesOn : ∀ b ∈ text, ends b = false) (index : Nat) (short : index + text.length - start ≤ 5)
    (isNumber : Bool) :
    ∃ flag, valueLoop start (text ++ a :: rest) index isNumber =
      .ok (index + text.length, flag) := by
  induction text generalizing index isNumber with
  | nil =>
      refine ⟨isNumber, ?_⟩
      rw [List.nil_append, valueLoop_cons, if_pos stops]
      rfl
  | cons b text ih =>
      rw [List.length_cons] at short
      rw [List.cons_append, valueLoop_cons,
        if_neg (by rw [goesOn b List.mem_cons_self]; decide),
        if_neg (by simp only [Bool.and_eq_true, decide_eq_true_eq]; omega)]
      obtain ⟨flag, loopEq⟩ := ih (fun other member => goesOn other (List.mem_cons_of_mem b member))
        (index + 1) (by omega) (isNumber && (digit? b).isSome)
      refine ⟨flag, ?_⟩
      rw [loopEq, List.length_cons]
      congr 2
      omega

/-- Where `read_value` stops, and what it has seen when it takes the text for a
number. -/
theorem valueLoop_stops {start : Nat} {text : Bytes} {index stop : Nat} {isNumber flag : Bool}
    (looped : valueLoop start text index isNumber = .ok (stop, flag)) :
    ∃ body a rest, text = body ++ a :: rest ∧ ends a = true ∧ stop = index + body.length ∧
      (flag = true → isNumber = true ∧ ∀ b ∈ body, (digit? b).isSome) := by
  induction text generalizing index isNumber with
  | nil => cases looped
  | cons a text ih =>
      rw [valueLoop_cons] at looped
      split at looped
      · rename_i stops
        cases looped
        exact ⟨[], a, text, rfl, stops, rfl, fun isFlag => ⟨isFlag, fun b member => by cases member⟩⟩
      · split at looped
        · cases looped
        · obtain ⟨body, b, rest, textEq, stops, stopEq, digits⟩ := ih looped
          refine ⟨a :: body, b, rest, by rw [textEq]; rfl, stops, ?_, ?_⟩
          · rw [stopEq, List.length_cons]
            omega
          · intro isFlag
            obtain ⟨number, laterDigits⟩ := digits isFlag
            rw [Bool.and_eq_true] at number
            refine ⟨number.1, fun c member => ?_⟩
            rcases List.mem_cons.mp member with first | later
            · rw [first]
              exact number.2
            · exact laterDigits c later

theorem readValue_eq (data : Bytes) (index : Nat) :
    readValue data index =
      match valueLoop index (data.drop index) index true with
      | .error error => .error error
      | .ok (stop, isNumber) =>
          if (!isNumber && !isLiteral (part data index stop)) = true then .error .invalidData
          else .ok (part data index stop, stop) := by
  rw [readValue]
  cases valueLoop index (data.drop index) index true with
  | error error => rfl
  | ok found =>
      obtain ⟨stop, isNumber⟩ := found
      simp only [bind, Except.bind]
      by_cases refused : (!isNumber && !isLiteral (part data index stop)) = true
      · rw [if_pos refused]
        exact if_pos refused
      · rw [if_neg refused]
        exact if_neg refused

/-- A scalar the scanner can read: a literal or a run of digits. -/
def Simple (text : Bytes) : Prop := isLiteral text = true ∨ ∀ a ∈ text, (digit? a).isSome

theorem readValue_simple {data text rest : Bytes} {a : UInt8} {index : Nat}
    (stands : data.drop index = text ++ a :: rest) (scalar : Scalar text) (simple : Simple text)
    (stops : ends a = true) : readValue data index = .ok (text, index + text.length) := by
  have goesOn : ∀ b ∈ text, ends b = false :=
    fun b member => ends_of_scalar ((scalar_bytes scalar).2 b member)
  rw [readValue_eq, stands]
  rcases simple with literal | digits
  · have short : index + text.length - index ≤ 5 := by
      have size : text.length ≤ 5 := by
        simp only [isLiteral, Bool.or_eq_true, decide_eq_true_eq] at literal
        rcases literal with (same | same) | same <;> (rw [same]; decide)
      omega
    obtain ⟨flag, loopEq⟩ := @valueLoop_short _ _ rest _ stops goesOn index short true
    rw [loopEq]
    simp only
    rw [part_eq stands, literal]
    simp
  · rw [valueLoop_digits stops digits index]
    simp only [Bool.not_true, Bool.false_and, Bool.false_eq_true, if_false]
    rw [part_eq stands]

/-- A scalar that is read as it is meant is such a one, and what follows it ends
a number. -/
theorem simple_of_readValue {data text rest : Bytes} {index stop : Nat}
    (stands : data.drop index = text ++ rest) (read : readValue data index = .ok (text, stop)) :
    Simple text ∧ stop = index + text.length ∧ ∃ a behind, rest = a :: behind ∧ ends a = true := by
  rw [readValue_eq] at read
  split at read
  · cases read
  · rename_i closing isNumber loopEq
    split at read
    · cases read
    · rename_i accepted
      obtain ⟨body, a, behind, dataEq, stops, closingEq, digits⟩ := valueLoop_stops loopEq
      simp only [Except.ok.injEq, Prod.mk.injEq] at read
      obtain ⟨partEq, stopEq⟩ := read
      rw [closingEq, part_eq dataEq] at partEq
      rw [partEq] at digits closingEq
      rw [dataEq, partEq] at stands
      refine ⟨?_, by omega, a, behind, List.append_cancel_left stands.symm, stops⟩
      cases isNumber with
      | true => exact Or.inr (digits rfl).2
      | false =>
          left
          rw [closingEq, @part_eq _ _ (a :: behind) _ (by rw [dataEq, partEq])] at accepted
          simpa using accepted

end Ijson
