/-
A reader of JSON texts as RFC 8259 defines them, on bytes.

A text is cut into tokens, and the tokens are put together to a value.  A
string is read to the bytes it stands for, where bytes from 128 on stand for
themselves; a number or a literal is kept as it is written.
-/

import Mathlib.Data.List.TakeWhile
import Ijson.JsonGrammar
import Ijson.JsonStrings

namespace Ijson

namespace JsonReader

open Json

/-! ### Strings -/

/-- A byte of a string, written as it is or as a two-byte escape, or the code
of a `\u` escape. -/
inductive Piece where
  | byte (a : UInt8)
  | unit (code : UInt16)
  deriving DecidableEq

/-- The string behind an opening quote, and what follows it. -/
def readPieces : Bytes → Option (List Piece × Bytes)
  | [] => none
  | a :: rest =>
      if a = quote then some ([], rest)
      else if a = backslash then
        match rest with
        | [] => none
        | b :: rest =>
            if b = 117 then
              match rest with
              | d :: e :: f :: g :: rest =>
                  match hexValue [d, e, f, g] with
                  | none => none
                  | some code => (readPieces rest).map fun read => (.unit (UInt16.ofNat code) :: read.1, read.2)
              | _ => none
            else
              match escapeCodes.lookup b with
              | none => none
              | some code => (readPieces rest).map fun read => (.byte (UInt8.ofNat code) :: read.1, read.2)
      else if a.toNat < 32 then none
      else (readPieces rest).map fun read => (.byte a :: read.1, read.2)

section Steps

variable {a b : UInt8} (rest : Bytes)

theorem readPieces_quote : readPieces (quote :: rest) = some ([], rest) := by
  rw [readPieces.eq_def]
  exact if_pos rfl

theorem readPieces_plain (printable : 32 ≤ a.toNat) (notQuote : a ≠ quote) (notEscape : a ≠ backslash) :
    readPieces (a :: rest) = (readPieces rest).map fun read => (.byte a :: read.1, read.2) := by
  rw [readPieces.eq_def]
  simp only
  rw [if_neg notQuote, if_neg notEscape, if_neg (by omega)]

theorem readPieces_control (control : a.toNat < 32) : readPieces (a :: rest) = none := by
  have notQuote : a ≠ quote := by
    rintro rfl
    exact absurd control (by decide)
  have notEscape : a ≠ backslash := by
    rintro rfl
    exact absurd control (by decide)
  rw [readPieces.eq_def]
  simp only
  rw [if_neg notQuote, if_neg notEscape, if_pos control]

theorem readPieces_escape (simple : b ≠ 117) : readPieces (backslash :: b :: rest) =
    match escapeCodes.lookup b with
    | none => none
    | some code => (readPieces rest).map fun read => (.byte (UInt8.ofNat code) :: read.1, read.2) := by
  rw [readPieces.eq_def]
  simp only
  rw [if_neg (by decide), if_pos trivial, if_neg simple]

theorem readPieces_unicode (more : Bytes) : readPieces (backslash :: 117 :: more) =
    match if more.length < 4 then none else hexValue (more.take 4) with
    | none => none
    | some code => (readPieces (more.drop 4)).map fun read => (.unit (UInt16.ofNat code) :: read.1, read.2) := by
  rw [readPieces.eq_def]
  simp only
  rw [if_neg (by decide), if_pos trivial, if_pos trivial]
  match more with
  | [] | [_] | [_, _] | [_, _, _] => rfl
  | d :: e :: f :: g :: more =>
      rw [if_neg (by simp)]
      rfl

end Steps

/-- The UTF-8 bytes of a code; half of a surrogate pair counts as U+FFFD. -/
def characterBytes (code : Nat) : Bytes :=
  String.utf8EncodeChar (if 0xd800 ≤ code ∧ code < 0xe000 then Char.ofNat 0xfffd else Char.ofNat code)

def decoded : List Piece → Bytes
  | [] => []
  | .byte a :: rest => a :: decoded rest
  | .unit high :: .unit low :: rest =>
      if (0xd800 ≤ high.toNat ∧ high.toNat < 0xdc00) ∧ 0xdc00 ≤ low.toNat ∧ low.toNat < 0xe000 then
        characterBytes (0x10000 + (high.toNat - 0xd800) * 0x400 + (low.toNat - 0xdc00)) ++ decoded rest
      else characterBytes high.toNat ++ decoded (.unit low :: rest)
  | .unit code :: rest => characterBytes code.toNat ++ decoded rest

/-- The least number of bytes that stand for a byte in a string. -/
def cost (a : UInt8) : Nat := if a = quote ∨ a = backslash ∨ a.toNat < 32 then 2 else 1

def weight (text : Bytes) : Nat := (text.map cost).sum

def Piece.cost : Piece → Nat
  | .byte a => JsonReader.cost a
  | .unit _ => 6

theorem cost_le (a : UInt8) : cost a ≤ 2 := by
  unfold cost
  split <;> omega

@[simp] theorem weight_cons (a : UInt8) (text : Bytes) : weight (a :: text) = cost a + weight text := rfl

theorem weight_append (left right : Bytes) : weight (left ++ right) = weight left + weight right := by
  rw [weight, List.map_append, List.sum_append]
  rfl

theorem weight_le (text : Bytes) : weight text ≤ 2 * text.length := by
  induction text with
  | nil => exact Nat.le_refl 0
  | cons a text ih =>
      have head := cost_le a
      rw [weight_cons, List.length_cons]
      omega

theorem characterBytes_length (code : Nat) : (characterBytes code).length ≤ 4 := by
  rw [characterBytes, String.length_utf8EncodeChar]
  exact Char.utf8Size_le_four _

theorem characterBytes_short (code : UInt16) : (characterBytes code.toNat).length ≤ 3 := by
  have small : code.toNat < 65536 := code.toNat_lt
  rw [characterBytes, String.length_utf8EncodeChar]
  split
  · decide
  · rename_i whole
    have valid : code.toNat.isValidChar := by
      rcases Nat.lt_or_ge code.toNat 0xd800 with low | high
      · exact Or.inl low
      · exact Or.inr ⟨by omega, by omega⟩
    have value : (Char.ofNat code.toNat).toNat = code.toNat := by
      rw [Char.ofNat, dif_pos valid]
      rfl
    by_contra long
    have four : (Char.ofNat code.toNat).utf8Size = 4 := by
      have most := Char.utf8Size_le_four (Char.ofNat code.toNat)
      omega
    have large : 0xffff < (Char.ofNat code.toNat).toNat := Char.utf8Size_eq_four_iff.mp four
    omega

/-- What pieces stand for is no longer than they are written. -/
theorem decoded_weight (pieces : List Piece) : weight (decoded pieces) ≤ (pieces.map Piece.cost).sum := by
  fun_induction decoded pieces with
  | case1 => exact Nat.le_refl 0
  | case2 a rest ih =>
      rw [weight_cons, List.map_cons, List.sum_cons]
      exact Nat.add_le_add_left ih _
  | case3 high low rest pair ih =>
      have one := characterBytes_length (0x10000 + (high.toNat - 0xd800) * 0x400 + (low.toNat - 0xdc00))
      have bound := weight_le (characterBytes (0x10000 + (high.toNat - 0xd800) * 0x400 + (low.toNat - 0xdc00)))
      simp only [weight_append, List.map_cons, List.sum_cons, Piece.cost]
      omega
  | case4 high low rest alone ih =>
      have one := characterBytes_short high
      have bound := weight_le (characterBytes high.toNat)
      simp only [weight_append, List.map_cons, List.sum_cons, Piece.cost] at ih ⊢
      omega
  | case5 code rest alone ih =>
      have one := characterBytes_short code
      have bound := weight_le (characterBytes code.toNat)
      simp only [weight_append, List.map_cons, List.sum_cons, Piece.cost]
      omega

theorem decoded_bytes (text : Bytes) : decoded (text.map .byte) = text := by
  induction text with
  | nil => rfl
  | cons a text ih => exact congrArg (a :: ·) ih

theorem decoded_last (pieces : List Piece) (a : UInt8) : decoded (pieces ++ [.byte a]) = decoded pieces ++ [a] := by
  fun_induction decoded pieces with
  | case1 => rfl
  | case2 b rest ih => exact congrArg (b :: ·) ih
  | case3 high low rest pair ih => simp only [List.cons_append, decoded, if_pos pair, ih, List.append_assoc]
  | case4 high low rest alone ih =>
      simp only [List.cons_append, decoded, if_neg alone, List.append_assoc] at ih ⊢
      rw [ih]
  | case5 code rest alone ih =>
      cases rest with
      | nil => simp only [List.cons_append, List.nil_append, decoded, List.append_nil]
      | cons piece rest =>
          cases piece with
          | byte b =>
              simp only [List.cons_append, decoded, List.append_assoc] at ih ⊢
              rw [ih]
          | unit low => exact absurd rfl (alone low rest)

/-! ### Written strings -/

/-- A text between quotes; with `escaped` its own quotes are escaped. -/
def written (escaped : Bool) (text : Bytes) : Bytes :=
  text.flatMap fun a => if escaped ∧ a = quote then [backslash, quote] else [a]

/-- A text that is read as it was meant. -/
def Readable (escaped : Bool) (text : Bytes) : Prop :=
  ∀ a ∈ text, 32 ≤ a.toNat ∧ a ≠ backslash ∧ (escaped = true ∨ a ≠ quote)

instance (escaped : Bool) (text : Bytes) : Decidable (Readable escaped text) :=
  List.decidableBAll _ text

theorem read_written {escaped : Bool} {text : Bytes} (readable : Readable escaped text) (rest : Bytes) :
    readPieces (written escaped text ++ quote :: rest) = some (text.map .byte, rest) := by
  induction text with
  | nil => rw [written, List.flatMap_nil, List.nil_append, readPieces_quote, List.map_nil]
  | cons a text ih =>
      obtain ⟨⟨printable, plain, allowed⟩, later⟩ := List.forall_mem_cons.mp readable
      have read := ih later
      rw [written, List.flatMap_cons, List.append_assoc, ← written]
      by_cases isQuote : a = quote
      · obtain ⟨rfl, rfl⟩ : a = quote ∧ escaped = true := ⟨isQuote, allowed.resolve_right fun other => other isQuote⟩
        rw [if_pos ⟨rfl, rfl⟩, List.cons_append, List.singleton_append, readPieces_escape _ (by decide), read]
        rfl
      · rw [if_neg fun both => isQuote both.2, List.singleton_append, readPieces_plain _ printable isQuote plain, read]
        rfl

/-- Any other text would have to be written longer. -/
theorem written_short (escaped : Bool) (text : Bytes) : (written escaped text).length ≤ weight text ∧
    (¬ Readable escaped text → (written escaped text).length < weight text) := by
  induction text with
  | nil => exact ⟨Nat.le_refl 0, fun bad => absurd (fun a member => by cases member) bad⟩
  | cons a text ih =>
      obtain ⟨shorter, strict⟩ := ih
      rw [written, List.flatMap_cons, List.length_append, ← written, weight_cons]
      have head : (if escaped ∧ a = quote then [backslash, quote] else [a] : Bytes).length ≤ cost a ∧
          (¬ (32 ≤ a.toNat ∧ a ≠ backslash ∧ (escaped = true ∨ a ≠ quote)) →
            (if escaped ∧ a = quote then [backslash, quote] else [a] : Bytes).length < cost a) := by
        by_cases isQuote : a = quote
        · rw [isQuote]
          cases escaped with
          | false => exact ⟨by decide, fun _ => by decide⟩
          | true => exact ⟨by decide, fun other => absurd ⟨by decide, by decide, Or.inl rfl⟩ other⟩
        · rw [if_neg fun both => isQuote both.2, List.length_singleton, cost]
          constructor
          · split <;> omega
          · intro other
            rw [if_pos]
            · omega
            · by_contra plain
              rw [not_or, not_or] at plain
              exact other ⟨by omega, plain.2.1, Or.inr isQuote⟩
      constructor
      · omega
      · intro bad
        rw [Readable, List.forall_mem_cons, not_and_or] at bad
        rcases bad with first | later
        · have now := head.2 first
          omega
        · have now := strict later
          omega

theorem written_last (escaped : Bool) (text : Bytes) : (written escaped text).getLast? = text.getLast? := by
  induction text using List.reverseRecOn with
  | nil => rfl
  | append_singleton text a ih =>
      rw [written, List.flatMap_append, List.flatMap_singleton, List.getLast?_concat]
      split
      · rename_i both
        rw [both.2, List.append_cons, List.getLast?_concat]
      · exact List.getLast?_concat

theorem hexValue_quote (left right : Bytes) : hexValue (left ++ quote :: right) = none := by
  have stops : ∀ value : Nat, (quote :: right).foldlM
      (fun value a => (hexDigit? a).map fun digit => value * 16 + digit) value = none := fun _ => rfl
  rw [hexValue, List.foldlM_append]
  cases left.foldlM (fun value a => (hexDigit? a).map fun digit => value * 16 + digit) 0 with
  | none => rfl
  | some value => exact stops value

/-- What is known of a string that is read beyond `text` and a quote. -/
def Across (text rest : Bytes) (pieces : List Piece) (later : Bytes) : Prop :=
  (pieces.map Piece.cost).sum ≤ text.length ∨
    text.getLast? = some backslash ∧ ∃ front back, pieces = front ++ .byte quote :: back ∧
      readPieces rest = some (back, later)

theorem Across.step (piece : Piece) (chars : Bytes) {text rest : Bytes} {pieces : List Piece} {later : Bytes}
    (short : piece.cost ≤ chars.length)
    (read : ((readPieces (text ++ quote :: rest)).map fun read => (piece :: read.1, read.2)) = some (pieces, later))
    (across : ∀ pieces later, readPieces (text ++ quote :: rest) = some (pieces, later) →
      Across text rest pieces later) : Across (chars ++ text) rest pieces later := by
  obtain ⟨⟨more, behind⟩, found, same⟩ := Option.map_eq_some_iff.mp read
  cases same
  rcases across more behind found with within | ⟨last, front, back, parts, beyond⟩
  · left
    simp only [List.map_cons, List.sum_cons, List.length_append]
    omega
  · right
    refine ⟨?_, piece :: front, back, congrArg (piece :: ·) parts, beyond⟩
    rw [List.getLast?_append, last, Option.some_or]

/-- A string that is read across the closing quote of a text ends behind a
backslash of it. -/
theorem read_across (text rest : Bytes) (pieces : List Piece) (later : Bytes)
    (read : readPieces (text ++ quote :: rest) = some (pieces, later)) : Across text rest pieces later := by
  induction length : text.length using Nat.strong_induction_on generalizing text pieces later with
  | h n ih =>
      have next : ∀ tail : Bytes, tail.length < n → ∀ pieces later,
          readPieces (tail ++ quote :: rest) = some (pieces, later) → Across tail rest pieces later :=
        fun tail short pieces later found => ih tail.length short tail pieces later found rfl
      cases text with
      | nil =>
          rw [List.nil_append, readPieces_quote, Option.some.injEq, Prod.mk.injEq] at read
          rw [← read.1]
          exact Or.inl (Nat.le_refl 0)
      | cons a tail =>
          rw [List.length_cons] at length
          rw [List.cons_append] at read
          by_cases isQuote : a = quote
          · rw [isQuote, readPieces_quote, Option.some.injEq, Prod.mk.injEq] at read
            rw [← read.1]
            exact Or.inl (Nat.zero_le _)
          by_cases isEscape : a = backslash
          · subst isEscape
            cases tail with
            | nil =>
                rw [List.nil_append, readPieces_escape _ (by decide)] at read
                obtain ⟨⟨back, behind⟩, found, same⟩ := Option.map_eq_some_iff.mp read
                cases same
                exact Or.inr ⟨rfl, [], back, rfl, found⟩
            | cons b tail =>
                rw [List.length_cons] at length
                rw [List.cons_append] at read
                by_cases isUnicode : b = 117
                · subst isUnicode
                  rw [readPieces_unicode] at read
                  by_cases short : tail.length < 4
                  · have nothing : hexValue ((tail ++ quote :: rest).take 4) = none := by
                      obtain ⟨k, kEq⟩ : ∃ k, 4 - tail.length = k + 1 := ⟨3 - tail.length, by omega⟩
                      rw [List.take_append, List.take_of_length_le (by omega), kEq, List.take_succ_cons]
                      exact hexValue_quote tail _
                    rw [nothing, ite_self] at read
                    cases read
                  · have digits : (tail ++ quote :: rest).take 4 = tail.take 4 :=
                      List.take_append_of_le_length (by omega)
                    have behind : (tail ++ quote :: rest).drop 4 = tail.drop 4 ++ quote :: rest :=
                      List.drop_append_of_le_length (by omega)
                    have long : ¬ (tail ++ quote :: rest).length < 4 := by
                      rw [List.length_append]
                      omega
                    rw [if_neg long, digits, behind] at read
                    cases value : hexValue (tail.take 4) with
                    | none =>
                        rw [value] at read
                        cases read
                    | some code =>
                        rw [value] at read
                        have six : (backslash :: 117 :: tail.take 4).length = 6 := by
                          rw [List.length_cons, List.length_cons, List.length_take]
                          omega
                        have whole := Across.step (.unit (UInt16.ofNat code)) (backslash :: 117 :: tail.take 4)
                          (Nat.le_of_eq six.symm) read
                          (next (tail.drop 4) (by rw [List.length_drop]; omega))
                        rw [List.cons_append, List.cons_append, List.take_append_drop] at whole
                        exact whole
                · rw [readPieces_escape _ isUnicode] at read
                  cases code : escapeCodes.lookup b with
                  | none =>
                      rw [code] at read
                      cases read
                  | some value =>
                      rw [code] at read
                      exact Across.step (.byte (UInt8.ofNat value)) [backslash, b] (cost_le _) read (next tail (by omega))
          · by_cases control : a.toNat < 32
            · rw [readPieces_control _ control] at read
              cases read
            · rw [readPieces_plain _ (by omega) isQuote isEscape] at read
              refine Across.step (.byte a) [a] ?_ read (next tail (by omega))
              rw [Piece.cost, cost, if_neg (not_or.mpr ⟨isQuote, not_or.mpr ⟨isEscape, control⟩⟩)]
              exact Nat.le_refl 1

/-- A string that goes on in these bytes does not end with a backslash. -/
def Guarded (rest : Bytes) : Prop :=
  ∀ pieces later, readPieces rest = some (pieces, later) → ∃ front a, pieces = front ++ [.byte a] ∧ a ≠ backslash

/-- A written text that comes back as it was is readable. -/
theorem readable_of_read {escaped : Bool} {text rest : Bytes} (guarded : Guarded rest) {pieces : List Piece}
    {later : Bytes} (read : readPieces (written escaped text ++ quote :: rest) = some (pieces, later))
    (same : decoded pieces = text) : Readable escaped text := by
  by_contra bad
  have short := (written_short escaped text).2 bad
  have least := decoded_weight pieces
  rw [same] at least
  rcases read_across _ _ _ _ read with within | ⟨last, front, back, parts, beyond⟩
  · omega
  · obtain ⟨middle, a, backEq, other⟩ := guarded back later beyond
    rw [written_last] at last
    rw [parts, backEq, show front ++ Piece.byte quote :: (middle ++ [.byte a]) =
      (front ++ .byte quote :: middle) ++ [.byte a] by simp, decoded_last] at same
    rw [← same, List.getLast?_concat] at last
    exact other (Option.some.inj last)

/-! ### Tokens -/

inductive Token where
  | punctuation (a : UInt8)
  | string (text : Bytes)
  | scalar (text : Bytes)
  deriving DecidableEq

def colon : UInt8 := 58

def isPunctuation (a : UInt8) : Bool :=
  a = openBrace || a = closeBrace || a = openBracket || a = closeBracket || a = colon || a = comma

/-- The characters of numbers and literals. -/
def isWord (a : UInt8) : Bool :=
  (97 ≤ a.toNat && a.toNat ≤ 122) || (65 ≤ a.toNat && a.toNat ≤ 90) || (digit? a).isSome ||
    a = 43 || a = 45 || a = 46

/-- The exponent of a number, or nothing. -/
def isExponent : Bytes → Bool
  | [] => true
  | mark :: rest =>
      let digits := match rest with
        | 43 :: digits => digits
        | 45 :: digits => digits
        | digits => digits
      (mark = 101 || mark = 69) && !digits.isEmpty && digits.all fun a => (digit? a).isSome

/-- Fraction and exponent. -/
def isFraction : Bytes → Bool
  | 46 :: rest =>
      !(rest.takeWhile fun a => (digit? a).isSome).isEmpty &&
        isExponent (rest.dropWhile fun a => (digit? a).isSome)
  | rest => isExponent rest

def isUnsigned (text : Bytes) : Bool :=
  let whole := text.takeWhile fun a => (digit? a).isSome
  (whole = [48] || (!whole.isEmpty && whole.head? ≠ some 48)) &&
    isFraction (text.dropWhile fun a => (digit? a).isSome)

def isNumber : Bytes → Bool
  | 45 :: rest => isUnsigned rest
  | text => isUnsigned text

def isScalar (text : Bytes) : Bool := JsonText.isLiteral text || isNumber text

def lexLoop : Nat → Bytes → Option (List Token)
  | _, [] => some []
  | 0, _ :: _ => none
  | fuel + 1, a :: rest =>
      if JsonText.isSpace a then lexLoop fuel rest
      else if isPunctuation a then (lexLoop fuel rest).map (.punctuation a :: ·)
      else if a = quote then
        match readPieces rest with
        | none => none
        | some (pieces, later) => (lexLoop fuel later).map (.string (decoded pieces) :: ·)
      else
        let word := (a :: rest).takeWhile isWord
        if isScalar word then (lexLoop fuel ((a :: rest).dropWhile isWord)).map (.scalar word :: ·) else none

/-- The tokens of a text.  A token takes at least one byte, which bounds the fuel. -/
def lex (text : Bytes) : Option (List Token) := lexLoop text.length text

theorem readPieces_shorter {text : Bytes} {pieces : List Piece} {later : Bytes}
    (read : readPieces text = some (pieces, later)) : later.length < text.length := by
  have mapped : ∀ {piece : Piece} {rest : Bytes} {pieces : List Piece},
      (∀ {pieces : List Piece}, readPieces rest = some (pieces, later) → later.length < rest.length) →
      (readPieces rest).map (fun read => (piece :: read.1, read.2)) = some (pieces, later) →
      later.length < rest.length := by
    intro piece rest pieces ih read
    obtain ⟨⟨more, behind⟩, found, same⟩ := Option.map_eq_some_iff.mp read
    cases same
    exact ih found
  fun_induction readPieces text generalizing pieces with
  | case1 | case3 | case4 | case6 | case7 | case9 => cases read
  | case2 =>
      cases read
      exact Nat.lt_succ_self _
  | case5 | case8 | case10 =>
      rename_i ih
      have shorter := mapped ih read
      simp only [List.length_cons]
      omega

theorem isPunctuation_cases {a : UInt8} (punctuation : isPunctuation a = true) :
    a = openBrace ∨ a = closeBrace ∨ a = openBracket ∨ a = closeBracket ∨ a = colon ∨ a = comma := by
  simpa [isPunctuation, or_assoc] using punctuation

theorem isWord_only {a : UInt8} (word : isWord a = true) :
    ¬ JsonText.isSpace a = true ∧ ¬ isPunctuation a = true ∧ a ≠ quote := by
  refine ⟨fun space => ?_, fun punctuation => ?_, ?_⟩
  · have cases : a = blank ∨ a = newline ∨ a = 13 ∨ a = 9 := by
      simpa [JsonText.isSpace, or_assoc] using space
    rcases cases with rfl | rfl | rfl | rfl <;> exact absurd word (by decide)
  · rcases isPunctuation_cases punctuation with rfl | rfl | rfl | rfl | rfl | rfl <;> exact absurd word (by decide)
  · rintro rfl
    exact absurd word (by decide)

theorem isScalar_word {a : UInt8} {rest : Bytes} (scalar : isScalar ((a :: rest).takeWhile isWord) = true) :
    isWord a = true := by
  by_contra other
  rw [List.takeWhile_cons_of_neg other] at scalar
  exact absurd scalar (by decide)

theorem dropWhile_word {a : UInt8} (rest : Bytes) (word : isWord a = true) :
    ((a :: rest).dropWhile isWord).length ≤ rest.length := by
  rw [List.dropWhile_cons_of_pos word]
  exact List.length_dropWhile_le ..

theorem lexLoop_enough {fuel other : Nat} {text : Bytes} (enough : text.length ≤ fuel)
    (enoughToo : text.length ≤ other) : lexLoop fuel text = lexLoop other text := by
  induction fuel generalizing other text with
  | zero =>
      obtain rfl : text = [] := List.eq_nil_of_length_eq_zero (by omega)
      rw [lexLoop, lexLoop]
  | succ fuel ih =>
      cases text with
      | nil => rw [lexLoop, lexLoop]
      | cons a rest =>
          rw [List.length_cons] at enough enoughToo
          obtain ⟨other, rfl⟩ : ∃ k, other = k + 1 := ⟨other - 1, by omega⟩
          have next := @ih other rest (by omega) (by omega)
          simp only [lexLoop]
          split
          · exact next
          · split
            · rw [next]
            · split
              · cases read : readPieces rest with
                | none => rfl
                | some pair =>
                    obtain ⟨pieces, later⟩ := pair
                    have shorter := readPieces_shorter read
                    simp only
                    rw [@ih other later (by omega) (by omega)]
              · split
                · rename_i scalar
                  have shorter := dropWhile_word rest (isScalar_word scalar)
                  rw [@ih other _ (by omega) (by omega)]
                · rfl

theorem lexLoop_eq {fuel : Nat} {text : Bytes} (enough : text.length ≤ fuel) : lexLoop fuel text = lex text :=
  lexLoop_enough enough (Nat.le_refl _)

section Lexing

variable {a : UInt8} (rest : Bytes)

theorem lex_space (space : JsonText.isSpace a = true) : lex (a :: rest) = lex rest := by
  rw [lex, List.length_cons, lexLoop, if_pos space]
  rfl

theorem lex_punctuation (punctuation : isPunctuation a = true) :
    lex (a :: rest) = (lex rest).map (.punctuation a :: ·) := by
  have visible : ¬ JsonText.isSpace a = true := by
    rcases isPunctuation_cases punctuation with rfl | rfl | rfl | rfl | rfl | rfl <;> decide
  rw [lex, List.length_cons, lexLoop, if_neg visible, if_pos punctuation]
  rfl

theorem lex_string : lex (quote :: rest) =
    match readPieces rest with
    | none => none
    | some (pieces, later) => (lex later).map (.string (decoded pieces) :: ·) := by
  rw [lex, List.length_cons, lexLoop, if_neg (by decide), if_neg (by decide), if_pos rfl]
  cases read : readPieces rest with
  | none => rfl
  | some pair =>
      have shorter := readPieces_shorter read
      simp only
      rw [lexLoop_eq (Nat.le_of_lt shorter)]

theorem lex_word (word : isWord a = true) : lex (a :: rest) =
    if isScalar ((a :: rest).takeWhile isWord) then
      (lex ((a :: rest).dropWhile isWord)).map (.scalar ((a :: rest).takeWhile isWord) :: ·) else none := by
  obtain ⟨visible, single, unquoted⟩ := isWord_only word
  rw [lex, List.length_cons, lexLoop, if_neg visible, if_neg single, if_neg unquoted]
  simp only
  rw [lexLoop_eq (dropWhile_word rest word)]

example : lex (ascii "\x7b\"a\\u0062\": [-1.5e3, null]\x7d") =
    some [.punctuation openBrace, .string (ascii "ab"), .punctuation colon, .punctuation openBracket,
      .scalar (ascii "-1.5e3"), .punctuation comma, .scalar (ascii "null"), .punctuation closeBracket,
      .punctuation closeBrace] := by
  decide +kernel

end Lexing

/-! ### Marks -/

/-- A piece of a text that is written as JSON: punctuation, a line break or
blank, a string between quotes, and a number or literal that is written as
`raw` and meant to be `value`. -/
inductive Mark where
  | punctuation (a : UInt8)
  | gap (a : UInt8)
  | string (escaped : Bool) (text : Bytes)
  | scalar (raw value : Bytes)

namespace Mark

def bytes : Mark → Bytes
  | .punctuation a => [a]
  | .gap a => [a]
  | .string escaped text => quote :: written escaped text ++ [quote]
  | .scalar raw _ => raw

def tokens : Mark → List Token
  | .punctuation a => [.punctuation a]
  | .gap _ => []
  | .string _ text => [.string text]
  | .scalar _ value => [.scalar value]

/-- The mark is read as it is meant. -/
def Reads : Mark → Prop
  | .punctuation _ => True
  | .gap _ => True
  | .string escaped text => Readable escaped text
  | .scalar raw value => raw = value ∧ (∀ a ∈ raw, isWord a = true) ∧ isScalar raw = true

@[simp] theorem reads_punctuation (a : UInt8) : (Mark.punctuation a).Reads := trivial

@[simp] theorem reads_gap (a : UInt8) : (Mark.gap a).Reads := trivial

@[simp] theorem reads_string (escaped : Bool) (text : Bytes) :
    (Mark.string escaped text).Reads ↔ Readable escaped text := Iff.rfl

/-- A string that goes on here is closed by the next quote, or not at all. -/
def Closes : List Mark → Prop
  | [] => True
  | .punctuation _ :: rest => Closes rest
  | .gap a :: _ => a.toNat < 32
  | .string _ _ :: _ => True
  | .scalar _ _ :: _ => False

/-- The marks that may stand in front of others. -/
def Fits : Mark → List Mark → Prop
  | .punctuation a, _ => isPunctuation a = true
  | .gap a, _ => JsonText.isSpace a = true
  | .string escaped text, rest => Readable escaped text ∨ ∃ a more, rest = .punctuation a :: more ∧ Closes more
  | .scalar raw _, rest => (∃ a more, rest = .punctuation a :: more) ∧ (∃ a more, raw = a :: more ∧ isWord a = true) ∧
      ((∀ a ∈ raw, isWord a = true) ∨ isScalar (raw.takeWhile isWord) = false)

def Placed : List Mark → Prop
  | [] => True
  | mark :: rest => mark.Fits rest ∧ Placed rest

theorem placed_punctuation {a : UInt8} {rest : List Mark} (placed : Placed (.punctuation a :: rest)) :
    isPunctuation a = true ∧ Placed rest := placed

end Mark

theorem isPunctuation_plain {a : UInt8} (punctuation : isPunctuation a = true) :
    32 ≤ a.toNat ∧ a ≠ quote ∧ a ≠ backslash ∧ isWord a = false := by
  rcases isPunctuation_cases punctuation with rfl | rfl | rfl | rfl | rfl | rfl <;> decide

/-- Up to the next quote there is only punctuation. -/
theorem closes_read {marks : List Mark} (closes : Mark.Closes marks) (placed : Mark.Placed marks)
    {pieces : List Piece} {later : Bytes} (read : readPieces (marks.flatMap Mark.bytes) = some (pieces, later)) :
    ∃ between : Bytes, pieces = between.map .byte ∧ ∀ a ∈ between, isPunctuation a = true := by
  induction marks generalizing pieces with
  | nil => cases read
  | cons mark rest ih =>
      rw [List.flatMap_cons] at read
      cases mark with
      | punctuation a =>
          obtain ⟨punctuation, placed⟩ := Mark.placed_punctuation placed
          obtain ⟨printable, unquoted, unescaped, _⟩ := isPunctuation_plain punctuation
          rw [Mark.bytes, List.singleton_append, readPieces_plain _ printable unquoted unescaped] at read
          obtain ⟨⟨more, behind⟩, found, same⟩ := Option.map_eq_some_iff.mp read
          cases same
          obtain ⟨between, moreEq, each⟩ := ih closes placed found
          exact ⟨a :: between, congrArg (.byte a :: ·) moreEq, List.forall_mem_cons.mpr ⟨punctuation, each⟩⟩
      | gap a =>
          rw [Mark.bytes, List.singleton_append, readPieces_control _ closes] at read
          cases read
      | string escaped text =>
          rw [Mark.bytes, List.cons_append, List.cons_append, readPieces_quote] at read
          cases read
          exact ⟨[], rfl, fun a member => by cases member⟩
      | scalar raw value => exact absurd closes id

theorem closes_guarded {a : UInt8} {more : List Mark} (closes : Mark.Closes more)
    (placed : Mark.Placed (.punctuation a :: more)) :
    Guarded ((Mark.punctuation a :: more).flatMap Mark.bytes) := by
  intro pieces later read
  obtain ⟨punctuation, after⟩ := Mark.placed_punctuation placed
  obtain ⟨printable, unquoted, unescaped, _⟩ := isPunctuation_plain punctuation
  rw [List.flatMap_cons, Mark.bytes, List.singleton_append, readPieces_plain _ printable unquoted unescaped] at read
  obtain ⟨⟨rest, behind⟩, found, same⟩ := Option.map_eq_some_iff.mp read
  cases same
  obtain ⟨between, restEq, each⟩ := closes_read closes after found
  subst restEq
  cases between using List.reverseRecOn with
  | nil => exact ⟨[], a, rfl, unescaped⟩
  | append_singleton front b =>
      refine ⟨.byte a :: front.map .byte, b, by simp, ?_⟩
      exact (isPunctuation_plain (each b (by simp))).2.2.1

theorem map_cons_iff {token other : Token} {found : Option (List Token)} {tokens : List Token} :
    found.map (token :: ·) = some (other :: tokens) ↔ token = other ∧ found = some tokens := by
  cases found with
  | none => simp
  | some rest => simp

/-- Marks are read as they are meant, all of them or none. -/
theorem lex_marks {marks : List Mark} (placed : Mark.Placed marks) :
    lex (marks.flatMap Mark.bytes) = some (marks.flatMap Mark.tokens) ↔ ∀ mark ∈ marks, mark.Reads := by
  induction marks with
  | nil => exact ⟨fun _ _ member => absurd member List.not_mem_nil, fun _ => rfl⟩
  | cons mark rest ih =>
      obtain ⟨fits, later⟩ := placed
      have ih := ih later
      rw [List.flatMap_cons, List.flatMap_cons, List.forall_mem_cons]
      cases mark with
      | punctuation a =>
          rw [Mark.bytes, Mark.tokens, List.singleton_append, List.singleton_append, lex_punctuation _ fits,
            map_cons_iff, ih]
          exact ⟨fun both => ⟨trivial, both.2⟩, fun both => ⟨rfl, both.2⟩⟩
      | gap a =>
          rw [Mark.bytes, Mark.tokens, List.singleton_append, List.nil_append, lex_space _ fits, ih]
          exact (true_and _).to_iff.symm
      | string escaped text =>
          rw [Mark.bytes, Mark.tokens, List.singleton_append, List.cons_append, List.cons_append, lex_string,
            List.append_assoc, List.singleton_append]
          by_cases readable : Readable escaped text
          · rw [read_written readable]
            simp only
            rw [decoded_bytes, map_cons_iff, ih]
            exact ⟨fun both => ⟨readable, both.2⟩, fun both => ⟨rfl, both.2⟩⟩
          · obtain ⟨a, more, rfl, closes⟩ := fits.resolve_left readable
            refine ⟨fun lexes => absurd ?_ readable, fun reads => absurd reads.1 readable⟩
            cases read : readPieces (written escaped text ++ quote :: (Mark.punctuation a :: more).flatMap Mark.bytes) with
            | none =>
                rw [read] at lexes
                cases lexes
            | some pair =>
                obtain ⟨pieces, behind⟩ := pair
                rw [read] at lexes
                have same := (map_cons_iff.mp lexes).1
                exact readable_of_read (closes_guarded closes later) read (Token.string.inj same)
      | scalar raw value =>
          obtain ⟨⟨b, more, rfl⟩, ⟨a, text, rawEq, word⟩, whole⟩ := fits
          obtain ⟨_, _, _, other⟩ := isPunctuation_plain (Mark.placed_punctuation later).1
          rw [Mark.bytes, Mark.tokens, List.singleton_append]
          have behind : (Mark.punctuation b :: more).flatMap Mark.bytes = b :: more.flatMap Mark.bytes := rfl
          have first := lex_word (text ++ (Mark.punctuation b :: more).flatMap Mark.bytes) word
          rw [← List.cons_append, ← rawEq] at first
          rw [first, behind]
          by_cases words : ∀ a ∈ raw, isWord a = true
          · have taken : (raw ++ b :: more.flatMap Mark.bytes).takeWhile isWord = raw := by
              rw [List.takeWhile_append_of_pos words, List.takeWhile_cons_of_neg (by rw [other]; decide), List.append_nil]
            have left : (raw ++ b :: more.flatMap Mark.bytes).dropWhile isWord = b :: more.flatMap Mark.bytes := by
              rw [List.dropWhile_append_of_pos words, List.dropWhile_cons_of_neg (by rw [other]; decide)]
            rw [taken, left, ← behind]
            by_cases scalar : isScalar raw = true
            · rw [if_pos scalar, map_cons_iff, ih]
              exact ⟨fun both => ⟨⟨Token.scalar.inj both.1, words, scalar⟩, both.2⟩,
                fun both => ⟨congrArg Token.scalar both.1.1, both.2⟩⟩
            · rw [if_neg scalar]
              exact ⟨fun lexes => (by cases lexes), fun reads => absurd reads.1.2.2 scalar⟩
          · have cut : (raw ++ b :: more.flatMap Mark.bytes).takeWhile isWord = raw.takeWhile isWord := by
              rw [List.takeWhile_append]
              refine if_neg fun same => words fun a member => ?_
              rw [← List.IsPrefix.eq_of_length (List.takeWhile_prefix _) same] at member
              exact List.mem_takeWhile_imp member
            rw [cut, whole.resolve_left words, if_neg (by decide)]
            exact ⟨fun lexes => (by cases lexes), fun reads => absurd reads.1.2.1 words⟩

/-! ### Values -/

inductive Value where
  | scalar (text : Bytes)
  | string (text : Bytes)
  | array (elements : List Value)
  | object (members : List (Bytes × Value))

mutual

/-- The tokens of a value. -/
def Value.tokens : Value → List Token
  | .scalar text => [.scalar text]
  | .string text => [.string text]
  | .array elements => .punctuation openBracket :: elementsTokens elements ++ [.punctuation closeBracket]
  | .object members => .punctuation openBrace :: membersTokens members ++ [.punctuation closeBrace]

def elementsTokens : List Value → List Token
  | [] => []
  | [last] => last.tokens
  | first :: rest => first.tokens ++ .punctuation comma :: elementsTokens rest

def membersTokens : List (Bytes × Value) → List Token
  | [] => []
  | [(key, last)] => .string key :: .punctuation colon :: last.tokens
  | (key, first) :: rest =>
      .string key :: .punctuation colon :: first.tokens ++ .punctuation comma :: membersTokens rest

end

mutual

/-- The value at the front of the tokens, and what follows it. -/
def readValue : Nat → List Token → Option (Value × List Token)
  | 0, _ => none
  | _ + 1, [] => none
  | _ + 1, .scalar text :: rest => some (.scalar text, rest)
  | _ + 1, .string text :: rest => some (.string text, rest)
  | fuel + 1, .punctuation a :: rest =>
      if a = openBracket then
        if rest.head? = some (.punctuation closeBracket) then some (.array [], rest.drop 1)
        else (readElements fuel rest).map fun read => (.array read.1, read.2)
      else if a = openBrace then
        if rest.head? = some (.punctuation closeBrace) then some (.object [], rest.drop 1)
        else (readMembers fuel rest).map fun read => (.object read.1, read.2)
      else none

/-- Elements up to the closing bracket. -/
def readElements : Nat → List Token → Option (List Value × List Token)
  | 0, _ => none
  | fuel + 1, tokens =>
      match readValue fuel tokens with
      | some (value, .punctuation a :: rest) =>
          if a = comma then (readElements fuel rest).map fun read => (value :: read.1, read.2)
          else if a = closeBracket then some ([value], rest)
          else none
      | _ => none

def readMembers : Nat → List Token → Option (List (Bytes × Value) × List Token)
  | 0, _ => none
  | fuel + 1, tokens =>
      match tokens with
      | .string key :: .punctuation b :: tokens =>
          if b = colon then
            match readValue fuel tokens with
            | some (value, .punctuation a :: rest) =>
                if a = comma then (readMembers fuel rest).map fun read => ((key, value) :: read.1, read.2)
                else if a = closeBrace then some ([(key, value)], rest)
                else none
            | _ => none
          else none
      | _ => none

end

/-- The value a text stands for, if it is a JSON text. -/
def parse (text : Bytes) : Option Value :=
  match lex text with
  | none => none
  | some tokens =>
      match readValue tokens.length tokens with
      | some (value, []) => some value
      | _ => none

theorem elementsTokens_cons (first : Value) {rest : List Value} (more : rest ≠ []) :
    elementsTokens (first :: rest) = first.tokens ++ .punctuation comma :: elementsTokens rest := by
  cases rest with
  | nil => exact absurd rfl more
  | cons second rest => rw [elementsTokens.eq_3 _ _ more]

theorem membersTokens_cons (key : Bytes) (first : Value) {rest : List (Bytes × Value)} (more : rest ≠ []) :
    membersTokens ((key, first) :: rest) =
      .string key :: .punctuation colon :: first.tokens ++ .punctuation comma :: membersTokens rest := by
  cases rest with
  | nil => exact absurd rfl more
  | cons second rest => rw [membersTokens.eq_3 _ _ _ more]

theorem membersTokens_flat (key : Bytes) (first : Value) (rest : List (Bytes × Value)) :
    membersTokens ((key, first) :: rest) = .string key :: .punctuation colon :: first.tokens ++
      rest.flatMap fun member => .punctuation comma :: .string member.1 :: .punctuation colon :: member.2.tokens := by
  induction rest generalizing key first with
  | nil => rw [membersTokens, List.flatMap_nil, List.append_nil]
  | cons second rest ih =>
      rw [membersTokens_cons _ _ (List.cons_ne_nil _ _), ih, List.flatMap_cons]
      rfl

/-- The tokens a value was read from are its own. -/
theorem read_tokens (fuel : Nat) :
    (∀ tokens value rest, readValue fuel tokens = some (value, rest) → tokens = value.tokens ++ rest) ∧
      (∀ tokens elements rest, readElements fuel tokens = some (elements, rest) → elements ≠ [] ∧
        tokens = elementsTokens elements ++ .punctuation closeBracket :: rest) ∧
      (∀ tokens members rest, readMembers fuel tokens = some (members, rest) → members ≠ [] ∧
        tokens = membersTokens members ++ .punctuation closeBrace :: rest) := by
  induction fuel with
  | zero =>
      refine ⟨fun _ _ _ read => ?_, fun _ _ _ read => ?_, fun _ _ _ read => ?_⟩
      · cases read
      · cases read
      · cases read
  | succ fuel ih =>
      obtain ⟨values, elements, members⟩ := ih
      refine ⟨fun tokens value rest read => ?_, fun tokens found rest read => ?_, fun tokens found rest read => ?_⟩
      · cases tokens with
        | nil => cases read
        | cons token later =>
            cases token with
            | scalar text =>
                cases read
                rw [Value.tokens, List.singleton_append]
            | string text =>
                cases read
                rw [Value.tokens, List.singleton_append]
            | punctuation a =>
                rw [readValue] at read
                have closed : ∀ b : UInt8, later.head? = some (.punctuation b) →
                    later = .punctuation b :: later.drop 1 := by
                  intro b first
                  cases later with
                  | nil => cases first
                  | cons token later =>
                      cases first
                      rfl
                split at read
                · rename_i bracket
                  subst bracket
                  split at read
                  · rename_i empty
                    cases read
                    conv => lhs; rw [closed _ empty]
                    rw [Value.tokens, elementsTokens]
                    rfl
                  · obtain ⟨⟨list, behind⟩, listed, same⟩ := Option.map_eq_some_iff.mp read
                    cases same
                    rw [(elements _ _ _ listed).2, Value.tokens]
                    simp
                · split at read
                  · rename_i brace
                    subst brace
                    split at read
                    · rename_i empty
                      cases read
                      conv => lhs; rw [closed _ empty]
                      rw [Value.tokens, membersTokens]
                      rfl
                    · obtain ⟨⟨list, behind⟩, listed, same⟩ := Option.map_eq_some_iff.mp read
                      cases same
                      rw [(members _ _ _ listed).2, Value.tokens]
                      simp
                  · cases read
      · rw [readElements] at read
        split at read
        · rename_i value a later first
          have front := values _ _ _ first
          split at read
          · rename_i isComma
            obtain ⟨⟨list, behind⟩, listed, same⟩ := Option.map_eq_some_iff.mp read
            cases same
            obtain ⟨more, laterEq⟩ := elements _ _ _ listed
            refine ⟨List.cons_ne_nil _ _, ?_⟩
            rw [front, elementsTokens_cons value more, laterEq, isComma]
            simp
          · split at read
            · rename_i close
              cases read
              refine ⟨List.cons_ne_nil _ _, ?_⟩
              rw [front, close, elementsTokens]
            · cases read
        · cases read
      · rw [readMembers.eq_def] at read
        simp only at read
        split at read
        · rename_i key b tokens
          split at read
          · rename_i isColon
            subst isColon
            split at read
            · rename_i value a later first
              have front := values _ _ _ first
              split at read
              · rename_i isComma
                obtain ⟨⟨list, behind⟩, listed, same⟩ := Option.map_eq_some_iff.mp read
                cases same
                obtain ⟨more, laterEq⟩ := members _ _ _ listed
                refine ⟨List.cons_ne_nil _ _, ?_⟩
                rw [front, membersTokens_cons key value more, laterEq, isComma]
                simp
              · split at read
                · rename_i close
                  cases read
                  refine ⟨List.cons_ne_nil _ _, ?_⟩
                  rw [front, close, membersTokens]
                  simp
                · cases read
            · cases read
          · cases read
        · cases read

/-- A value does not begin with a closing bracket. -/
theorem tokens_front (value : Value) :
    ∃ token more, value.tokens = token :: more ∧ token ≠ .punctuation closeBracket := by
  cases value with
  | scalar text => exact ⟨_, _, by rw [Value.tokens], Token.noConfusion⟩
  | string text => exact ⟨_, _, by rw [Value.tokens], Token.noConfusion⟩
  | array elements =>
      refine ⟨.punctuation openBracket, _, by rw [Value.tokens, List.cons_append], ?_⟩
      decide
  | object members =>
      refine ⟨.punctuation openBrace, _, by rw [Value.tokens, List.cons_append], ?_⟩
      decide

theorem elements_front {elements : List Value} (present : elements ≠ []) (rest : List Token) :
    (elementsTokens elements ++ rest).head? ≠ Option.some (.punctuation closeBracket) := by
  cases elements with
  | nil => exact absurd rfl present
  | cons first later =>
      obtain ⟨token, more, front, other⟩ := tokens_front first
      intro same
      cases later with
      | nil =>
          rw [elementsTokens, front] at same
          exact other (Option.some.inj same)
      | cons second later =>
          rw [elementsTokens_cons first (List.cons_ne_nil _ _), front] at same
          exact other (Option.some.inj same)

theorem members_front {members : List (Bytes × Value)} (present : members ≠ []) (rest : List Token) :
    (membersTokens members ++ rest).head? ≠ Option.some (.punctuation closeBrace) := by
  cases members with
  | nil => exact absurd rfl present
  | cons first later =>
      obtain ⟨key, value⟩ := first
      intro same
      cases later with
      | nil =>
          rw [membersTokens] at same
          cases same
      | cons second later =>
          rw [membersTokens_cons key value (List.cons_ne_nil _ _)] at same
          cases same

/-- With enough fuel a value is read from its tokens. -/
theorem tokens_read (fuel : Nat) :
    (∀ value rest, value.tokens.length ≤ fuel → readValue fuel (value.tokens ++ rest) = some (value, rest)) ∧
      (∀ elements rest, elements ≠ [] → (elementsTokens elements).length < fuel →
        readElements fuel (elementsTokens elements ++ .punctuation closeBracket :: rest) = some (elements, rest)) ∧
      (∀ members rest, members ≠ [] → (membersTokens members).length < fuel →
        readMembers fuel (membersTokens members ++ .punctuation closeBrace :: rest) = some (members, rest)) := by
  have positive : ∀ value : Value, 0 < value.tokens.length := by
    intro value
    cases value <;> simp [Value.tokens]
  induction fuel with
  | zero =>
      refine ⟨fun value _ short => ?_, fun _ _ _ short => ?_, fun _ _ _ short => ?_⟩
      · exact absurd (positive value) (by omega)
      · omega
      · omega
  | succ fuel ih =>
      obtain ⟨values, elements, members⟩ := ih
      refine ⟨fun value rest short => ?_, fun list rest more short => ?_, fun list rest more short => ?_⟩
      · cases value with
        | scalar text =>
            rw [Value.tokens]
            rfl
        | string text =>
            rw [Value.tokens]
            rfl
        | array list =>
            rw [Value.tokens, List.length_append, List.length_cons, List.length_singleton] at short
            rw [Value.tokens, List.append_assoc, List.cons_append, List.singleton_append, readValue, if_pos rfl]
            by_cases empty : list = []
            · rw [empty, elementsTokens]
              rfl
            · rw [if_neg (elements_front empty _), elements list rest empty (by omega)]
              rfl
        | object list =>
            rw [Value.tokens, List.length_append, List.length_cons, List.length_singleton] at short
            rw [Value.tokens, List.append_assoc, List.cons_append, List.singleton_append, readValue,
              if_neg (by decide), if_pos rfl]
            by_cases empty : list = []
            · rw [empty, membersTokens]
              rfl
            · rw [if_neg (members_front empty _), members list rest empty (by omega)]
              rfl
      · cases list with
        | nil => exact absurd rfl more
        | cons first later =>
            by_cases last : later = []
            · rw [last, elementsTokens] at short ⊢
              rw [readElements, values first _ (by omega)]
              rfl
            · rw [elementsTokens_cons first last, List.length_append, List.length_cons] at short
              rw [elementsTokens_cons first last, List.append_assoc, List.cons_append, readElements,
                values first _ (by omega)]
              simp only
              rw [if_pos trivial, elements later rest last (by have := positive first; omega)]
              rfl
      · cases list with
        | nil => exact absurd rfl more
        | cons first later =>
            obtain ⟨key, value⟩ := first
            by_cases last : later = []
            · rw [last, membersTokens, List.length_cons, List.length_cons] at short
              rw [last, membersTokens, List.cons_append, List.cons_append, readMembers.eq_def]
              simp only
              rw [if_pos trivial, values value _ (by omega)]
              rfl
            · rw [membersTokens_cons key value last, List.length_append, List.length_cons, List.length_cons,
                List.length_cons] at short
              rw [membersTokens_cons key value last, List.append_assoc, List.cons_append, List.cons_append,
                List.cons_append, readMembers.eq_def]
              simp only
              rw [if_pos trivial, values value _ (by omega)]
              simp only
              rw [if_pos trivial, members later rest last (by omega)]
              rfl

/-- A text stands for a value when its tokens are those of the value. -/
theorem parse_iff {text : Bytes} {value : Value} : parse text = some value ↔ lex text = some value.tokens := by
  unfold parse
  cases lexed : lex text with
  | none => exact ⟨fun nothing => (by cases nothing), fun nothing => (by cases nothing)⟩
  | some tokens =>
      simp only
      constructor
      · intro read
        split at read
        · rename_i found whole
          cases read
          rw [(read_tokens _).1 _ _ _ whole, List.append_nil]
        · cases read
      · intro same
        have read := (tokens_read tokens.length).1 value [] (Nat.le_of_eq (congrArg List.length (Option.some.inj same)).symm)
        rw [List.append_nil, ← Option.some.inj same] at read
        rw [read]

end JsonReader

end Ijson
