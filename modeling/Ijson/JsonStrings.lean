/-
The strings of JSON: the texts between the quotes, the characters they stand
for, and what `json::unescape` makes of them.

An escape stands for a character of its own, except for the two halves of a
surrogate pair, which stand for one together.
-/

import Ijson.Json
import Ijson.Numerals

namespace Ijson

/-! ### Texts -/

def hexValue (digits : Bytes) : Option Nat :=
  digits.foldlM (fun value a => (hexDigit? a).map fun digit => value * 16 + digit) 0

/-- The characters that have an escape of two bytes. -/
def escapeCodes : List (UInt8 × Nat) :=
  [(Json.quote, 34), (Json.backslash, 92), (47, 47), (98, 8), (102, 12), (110, 10), (114, 13), (116, 9)]

/-- The bytes between the quotes of a JSON string with these characters. -/
inductive Encodes : List Char → Bytes → Prop
  | nil : Encodes [] []
  | raw {char : Char} {chars : List Char} {rest : Bytes} (printable : 32 ≤ char.toNat)
      (notQuote : char.toNat ≠ 34) (notEscape : char.toNat ≠ 92) (later : Encodes chars rest) :
      Encodes (char :: chars) (String.utf8EncodeChar char ++ rest)
  | escape {char : Char} {letter : UInt8} {chars : List Char} {rest : Bytes}
      (code : (letter, char.toNat) ∈ escapeCodes) (later : Encodes chars rest) :
      Encodes (char :: chars) (Json.backslash :: letter :: rest)
  | unicode {char : Char} {digits : Bytes} {chars : List Char} {rest : Bytes} (four : digits.length = 4)
      (code : hexValue digits = some char.toNat) (later : Encodes chars rest) :
      Encodes (char :: chars) (Json.backslash :: 117 :: digits ++ rest)
  | surrogates {char : Char} {left right : Bytes} {high low : Nat} {chars : List Char} {rest : Bytes}
      (four : left.length = 4 ∧ right.length = 4) (codes : hexValue left = some high ∧ hexValue right = some low)
      (highRange : 0xd800 ≤ high ∧ high < 0xdc00) (lowRange : 0xdc00 ≤ low ∧ low < 0xe000)
      (value : char.toNat = 0x10000 + (high - 0xd800) * 0x400 + (low - 0xdc00)) (later : Encodes chars rest) :
      Encodes (char :: chars)
        (Json.backslash :: 117 :: left ++ Json.backslash :: 117 :: right ++ rest)

theorem encodes_empty_iff {chars : List Char} {text : Bytes} (encodes : Encodes chars text) :
    text = [] ↔ chars = [] := by
  cases encodes with
  | nil => exact ⟨fun _ => rfl, fun _ => rfl⟩
  | @raw char =>
      have written : String.utf8EncodeChar char ≠ [] := by
        intro nothing
        have length := congrArg List.length nothing
        rw [String.length_utf8EncodeChar] at length
        exact absurd length (Nat.ne_of_gt (Char.utf8Size_pos char))
      simp [written]
  | escape => simp
  | unicode => simp
  | surrogates => simp

theorem encodes_ascii {char : Char} {chars : List Char} {a : UInt8} {rest : Bytes}
    (written : String.utf8EncodeChar char = [a]) (printable : 32 ≤ char.toNat) (notQuote : char.toNat ≠ 34)
    (notEscape : char.toNat ≠ 92) (later : Encodes chars rest) : Encodes (char :: chars) (a :: rest) := by
  have whole := Encodes.raw printable notQuote notEscape later
  rw [written] at whole
  exact whole

/-- The bytes of the characters. -/
def utf8 (chars : List Char) : Bytes := chars.flatMap String.utf8EncodeChar

/-- No escape of the text is a half of a surrogate pair. -/
def surrogateFree : Bytes → Bool
  | [] => true
  | a :: rest =>
      if a = Json.backslash then
        match rest with
        | [] => true
        | b :: rest =>
            (b != 117 || match hexValue (rest.take 4) with
              | none => true
              | some code => decide (code < 0xd800 ∨ 0xe000 ≤ code)) && surrogateFree rest
      else surrogateFree rest

/-! ### Bytes of characters -/

theorem utf8_cons (char : Char) (chars : List Char) : utf8 (char :: chars) = String.utf8EncodeChar char ++ utf8 chars :=
  List.flatMap_cons

/-- A character is encoded in ASCII bytes only if it is one. -/
theorem utf8EncodeChar_ne {char : Char} {a : UInt8} (small : a.toNat < 128) (other : char.toNat ≠ a.toNat) :
    a ∉ String.utf8EncodeChar char := by
  have toNat : char.val.toNat = char.toNat := rfl
  have lead : ∀ n, 128 ≤ n → n < 256 → a ≠ UInt8.ofNat n := by
    intro n low high same
    have value : (UInt8.ofNat n).toNat = n := Nat.mod_eq_of_lt high
    rw [same, value] at small
    omega
  rw [String.utf8EncodeChar, toNat]
  by_cases one : char.toNat ≤ 0x7f
  · have value : (UInt8.ofNat char.toNat).toNat = char.toNat := Nat.mod_eq_of_lt (by omega)
    simp only [if_pos one, List.mem_singleton]
    intro same
    rw [same, value] at other
    exact other rfl
  · by_cases two : char.toNat ≤ 0x7ff
    · simp only [if_neg one, if_pos two, List.mem_cons, List.not_mem_nil, or_false, not_or]
      exact ⟨lead _ (by omega) (by omega), lead _ (by omega) (by omega)⟩
    · by_cases three : char.toNat ≤ 0xffff
      · simp only [if_neg one, if_neg two, if_pos three, List.mem_cons, List.not_mem_nil, or_false, not_or]
        exact ⟨lead _ (by omega) (by omega), lead _ (by omega) (by omega), lead _ (by omega) (by omega)⟩
      · simp only [if_neg one, if_neg two, if_neg three, List.mem_cons, List.not_mem_nil, or_false, not_or]
        exact ⟨lead _ (by omega) (by omega), lead _ (by omega) (by omega), lead _ (by omega) (by omega),
          lead _ (by omega) (by omega)⟩

/-- For the code points of one `\u` escape `unescape` writes their UTF-8 bytes. -/
theorem encode_utf8 {char : Char} (small : char.toNat < 0x10000) : Json.encode char.toNat = String.utf8EncodeChar char := by
  have toNat : char.val.toNat = char.toNat := rfl
  rw [Json.encode, String.utf8EncodeChar, toNat]
  generalize char.toNat = code at small ⊢
  have last : 0x80 ||| (code &&& 0x3f) = code % 64 + 0x80 := by
    rw [Nat.and_two_pow_sub_one_eq_mod code 6, Nat.add_comm]
    exact (Nat.two_pow_add_eq_or_of_lt (i := 7) (by omega) 1).symm
  by_cases one : code ≤ 0x7f
  · rw [if_pos one, if_pos one]
  · by_cases two : code ≤ 0x7ff
    · have first : 0xc0 ||| (code >>> 6) = code / 64 % 32 + 0xc0 := by
        rw [Nat.shiftRight_eq_div_pow, Nat.mod_eq_of_lt (by omega : code / 64 < 32), Nat.add_comm]
        exact (Nat.two_pow_add_eq_or_of_lt (i := 6) (by omega) 3).symm
      rw [if_neg one, if_neg one, if_pos two, if_pos two, first, last]
    · have first : 0xe0 ||| (code >>> 12) = code / 4096 % 16 + 0xe0 := by
        rw [Nat.shiftRight_eq_div_pow, Nat.mod_eq_of_lt (by omega : code / 4096 < 16), Nat.add_comm]
        exact (Nat.two_pow_add_eq_or_of_lt (i := 5) (by omega) 7).symm
      have middle : 0x80 ||| ((code >>> 6) &&& 0x3f) = code / 64 % 64 + 0x80 := by
        rw [Nat.and_two_pow_sub_one_eq_mod _ 6, Nat.shiftRight_eq_div_pow, Nat.add_comm]
        exact (Nat.two_pow_add_eq_or_of_lt (i := 7) (by omega) 1).symm
      rw [if_neg one, if_neg one, if_neg two, if_neg two, if_pos (by omega), first, middle, last]

theorem encode_length {code : Nat} (high : 0x7ff < code) : (Json.encode code).length = 3 := by
  rw [Json.encode, if_neg (by omega), if_neg (by omega)]
  rfl

/-! ### The loop -/

namespace Json

theorem unescapeLoop_fuel {fuel other : Nat} {text : Bytes} (escaped : Bool) (enough : text.length ≤ fuel)
    (alsoEnough : text.length ≤ other) : unescapeLoop fuel text escaped = unescapeLoop other text escaped := by
  induction fuel generalizing other text escaped with
  | zero =>
      obtain rfl := List.length_eq_zero_iff.mp (Nat.le_zero.mp enough)
      cases other <;> rfl
  | succ fuel ih =>
      cases text with
      | nil => cases other <;> rfl
      | cons a rest =>
          obtain ⟨other, rfl⟩ : ∃ k, other = k + 1 := ⟨other - 1, by rw [List.length_cons] at alsoEnough; omega⟩
          rw [List.length_cons] at enough alsoEnough
          have later : ∀ flag, unescapeLoop fuel rest flag = unescapeLoop other rest flag := fun flag =>
            ih flag (by omega) (by omega)
          have skipped : unescapeLoop fuel (rest.drop 4) false = unescapeLoop other (rest.drop 4) false :=
            ih false (by rw [List.length_drop]; omega) (by rw [List.length_drop]; omega)
          rw [unescapeLoop, unescapeLoop, later, later, skipped]

/-- The loop of `unescape` over a text, behind a backslash or not. -/
def unescapedFrom (text : Bytes) (escaped : Bool) : Bytes × Option Exc := unescapeLoop text.length text escaped

/-- The loop of `unescape` over a whole text. -/
def unescaped (text : Bytes) : Bytes × Option Exc := unescapedFrom text false

/-- What is written for the letter of a two-byte escape. -/
def escapedByte (a : UInt8) : UInt8 :=
  if a = 98 then 8 else if a = 116 then 9 else if a = 110 then 10
  else if a = 102 then 12 else if a = 114 then 13 else a

theorem unescapedFrom_unicode {rest : Bytes} (long : 4 ≤ rest.length) :
    unescapedFrom (117 :: rest) true =
      match hextoi (rest.take 4) with
      | .error error => ([], some error)
      | .ok code =>
          (encode code.toNat ++ (unescapedFrom (rest.drop 4) false).1, (unescapedFrom (rest.drop 4) false).2) := by
  have fuel : unescapeLoop rest.length (rest.drop 4) false = unescapedFrom (rest.drop 4) false :=
    unescapeLoop_fuel false (by rw [List.length_drop]; omega) (Nat.le_refl _)
  rw [unescapedFrom, List.length_cons, unescapeLoop, if_pos rfl, if_pos (by simpa using long)]
  cases hextoi (rest.take 4) with
  | error error => rfl
  | ok code => simp only [fuel]

theorem unescapedFrom_letter {a : UInt8} {rest : Bytes} (other : ¬(a = 117 ∧ 4 ≤ rest.length)) :
    unescapedFrom (a :: rest) true =
      (escapedByte a :: (unescapedFrom rest false).1, (unescapedFrom rest false).2) := by
  rw [unescapedFrom, List.length_cons, unescapeLoop, if_pos rfl, if_neg (by simpa using other)]
  rfl

theorem unescapedFrom_backslash (rest : Bytes) : unescapedFrom (backslash :: rest) false = unescapedFrom rest true := by
  rw [unescapedFrom, List.length_cons, unescapeLoop, if_neg Bool.false_ne_true, if_pos rfl, unescapedFrom]

theorem unescapedFrom_plain {a : UInt8} (rest : Bytes) (plain : a ≠ backslash) :
    unescapedFrom (a :: rest) false = (a :: (unescapedFrom rest false).1, (unescapedFrom rest false).2) := by
  rw [unescapedFrom, List.length_cons, unescapeLoop, if_neg Bool.false_ne_true, if_neg plain]
  rfl

theorem unescaped_plain {bytes : Bytes} (rest : Bytes) (plain : ∀ a ∈ bytes, a ≠ backslash) :
    unescaped (bytes ++ rest) = (bytes ++ (unescaped rest).1, (unescaped rest).2) := by
  induction bytes with
  | nil => rfl
  | cons a bytes ih =>
      have later := ih fun b member => plain b (List.mem_cons_of_mem a member)
      rw [unescaped] at later
      rw [unescaped, List.cons_append, unescapedFrom_plain _ (plain a List.mem_cons_self), later]
      rfl

theorem unescaped_letter {letter : UInt8} (rest : Bytes) (notUnicode : letter ≠ 117) :
    unescaped (backslash :: letter :: rest) = (escapedByte letter :: (unescaped rest).1, (unescaped rest).2) := by
  rw [unescaped, unescapedFrom_backslash, unescapedFrom_letter fun unicode => notUnicode unicode.1]
  rfl

theorem unescaped_unicode {digits : Bytes} (rest : Bytes) (four : digits.length = 4) {code : Int}
    (value : hextoi digits = .ok code) :
    unescaped (backslash :: 117 :: digits ++ rest) =
      (encode code.toNat ++ (unescaped rest).1, (unescaped rest).2) := by
  have taken : (digits ++ rest).take 4 = digits := by rw [← four, List.take_left]
  have dropped : (digits ++ rest).drop 4 = rest := by rw [← four, List.drop_left]
  have long : 4 ≤ (digits ++ rest).length := by rw [List.length_append]; omega
  rw [unescaped, List.cons_append, List.cons_append, unescapedFrom_backslash, unescapedFrom_unicode long, taken, dropped,
    value]
  rfl

theorem unescape_eq (text : Bytes) :
    unescape text =
      match unescaped text with
      | (written, none) => (written, none)
      | (written, some error) => (written ++ text.drop written.length, some error) := rfl

theorem encode_short (code : Nat) : (encode code).length ≤ 3 := by
  rw [encode]
  split
  · exact Nat.le_of_ble_eq_true rfl
  · split
    · exact Nat.le_of_ble_eq_true rfl
    · exact Nat.le_of_ble_eq_true rfl

end Json

/-! ### Texts and their characters -/

theorem hexDigit?_some {a : UInt8} {digit : Nat} (found : hexDigit? a = some digit) :
    digit < 16 ∧ a ≠ Json.backslash := by
  constructor
  · unfold hexDigit? at found
    simp only at found
    split at found
    · cases found
      omega
    · split at found
      · cases found
        omega
      · split at found
        · cases found
          omega
        · cases found
  · intro same
    rw [same] at found
    cases found

/-- One loop reads the digits as the other does, in 64 bits. -/
theorem hextoiLoop_fold {digits : Bytes} {value code : Nat}
    (fold : digits.foldlM (fun value a => (hexDigit? a).map fun digit => value * 16 + digit) value = some code) :
    hextoiLoop digits (i64 value) = .ok (i64 code) ∧ code < (value + 1) * 16 ^ digits.length ∧
      ∀ a ∈ digits, a ≠ Json.backslash := by
  induction digits generalizing value with
  | nil =>
      cases fold
      exact ⟨rfl, by simp, fun a nothing => by cases nothing⟩
  | cons a digits ih =>
      rw [List.foldlM_cons] at fold
      cases found : hexDigit? a with
      | none =>
          rw [found] at fold
          cases fold
      | some digit =>
          obtain ⟨small, noEscape⟩ := hexDigit?_some found
          rw [found] at fold
          obtain ⟨read, bound, later⟩ := @ih (value * 16 + digit) fold
          refine ⟨?_, ?_, ?_⟩
          · rw [hextoiLoop, found]
            simp only [i64_step 16]
            exact_mod_cast read
          · rw [List.length_cons, Nat.pow_succ]
            calc code < (value * 16 + digit + 1) * 16 ^ digits.length := bound
              _ ≤ ((value + 1) * 16) * 16 ^ digits.length := Nat.mul_le_mul_right _ (by omega)
              _ = (value + 1) * (16 ^ digits.length * 16) := by ring
          · intro b member
            rcases List.mem_cons.mp member with same | inside
            · rw [same]
              exact noEscape
            · exact later b inside

theorem hexValue_read {digits : Bytes} (four : digits.length = 4) {code : Nat} (value : hexValue digits = some code) :
    hextoi digits = .ok code ∧ code < 0x10000 ∧ ∀ a ∈ digits, a ≠ Json.backslash := by
  obtain ⟨read, bound, later⟩ := hextoiLoop_fold value
  rw [four] at bound
  have nonempty : digits.isEmpty = false := by
    cases digits with
    | nil => cases four
    | cons a rest => rfl
  refine ⟨?_, bound, later⟩
  rw [hextoi, nonempty]
  exact read.trans (congrArg Except.ok (i64_of_range (by omega) (by omega)))

theorem surrogateFree_plain {bytes : Bytes} (rest : Bytes) (plain : ∀ a ∈ bytes, a ≠ Json.backslash) :
    surrogateFree (bytes ++ rest) = surrogateFree rest := by
  induction bytes with
  | nil => rfl
  | cons a bytes ih =>
      rw [List.cons_append, surrogateFree.eq_def]
      simp only [if_neg (plain a List.mem_cons_self)]
      exact ih fun b member => plain b (List.mem_cons_of_mem a member)

/-- An escape with four digits counts by its code. -/
theorem surrogateFree_unicode {digits : Bytes} (rest : Bytes) (four : digits.length = 4) {code : Nat}
    (value : hexValue digits = some code) :
    surrogateFree (Json.backslash :: 117 :: digits ++ rest) =
      (decide (code < 0xd800 ∨ 0xe000 ≤ code) && surrogateFree rest) := by
  have taken : (digits ++ rest).take 4 = digits := by rw [← four, List.take_left]
  rw [List.cons_append, List.cons_append, surrogateFree, if_pos rfl]
  simp only [taken, value, surrogateFree_plain rest (hexValue_read four value).2.2]
  rfl

/-- The loop makes the UTF-8 bytes of a string from a text without surrogate pairs, and more
bytes from any other. -/
structure Decodes (chars : List Char) (text : Bytes) : Prop where
  returns : (Json.unescaped text).2 = none
  long : (utf8 chars).length ≤ (Json.unescaped text).1.length
  exact : surrogateFree text = true → (Json.unescaped text).1 = utf8 chars
  longer : surrogateFree text = false → (utf8 chars).length < (Json.unescaped text).1.length

/-- One character, with the bytes written for it. -/
theorem Decodes.step {char : Char} {chars : List Char} {text rest piece : Bytes} {free : Bool} (later : Decodes chars rest)
    (writes : Json.unescaped text = (piece ++ (Json.unescaped rest).1, (Json.unescaped rest).2))
    (frees : surrogateFree text = (free && surrogateFree rest))
    (right : free = true → piece = String.utf8EncodeChar char)
    (wrong : free = false → (String.utf8EncodeChar char).length < piece.length) : Decodes (char :: chars) text := by
  have both : (String.utf8EncodeChar char).length ≤ piece.length := by
    cases free with
    | true => rw [right rfl]
    | false => exact Nat.le_of_lt (wrong rfl)
  constructor
  · rw [writes]
    exact later.returns
  · rw [writes, utf8_cons, List.length_append, List.length_append]
    exact Nat.add_le_add both later.long
  · intro whole
    obtain ⟨here, behind⟩ := Bool.and_eq_true_iff.mp (frees ▸ whole)
    rw [writes, utf8_cons, right here, later.exact behind]
  · intro pair
    rw [writes, utf8_cons, List.length_append, List.length_append]
    rcases Bool.and_eq_false_iff.mp (frees ▸ pair) with here | behind
    · exact Nat.add_lt_add_of_lt_of_le (wrong here) later.long
    · exact Nat.add_lt_add_of_le_of_lt both (later.longer behind)

theorem char_no_surrogate (char : Char) : char.toNat < 0xd800 ∨ 0xe000 ≤ char.toNat := by
  rcases char.valid with low | high
  · exact Or.inl low
  · exact Or.inr high.1

theorem escape_writes {letter : UInt8} {char : Char} (code : (letter, char.toNat) ∈ escapeCodes) :
    letter ≠ 117 ∧ String.utf8EncodeChar char = [Json.escapedByte letter] := by
  have small : ∀ pair ∈ escapeCodes, pair.1 ≠ 117 ∧ pair.2 ≤ 0x7f ∧ UInt8.ofNat pair.2 = Json.escapedByte pair.1 := by
    decide
  obtain ⟨notUnicode, one, byte⟩ := small _ code
  have toNat : char.val.toNat = char.toNat := rfl
  refine ⟨notUnicode, ?_⟩
  rw [String.utf8EncodeChar, toNat, if_pos one, byte]

theorem decodes_encodes {chars : List Char} {text : Bytes} (encodes : Encodes chars text) : Decodes chars text := by
  induction encodes with
  | nil => exact ⟨rfl, Nat.le_refl _, fun _ => rfl, fun pair => by cases pair⟩
  | @raw char chars rest printable notQuote notEscape later ih =>
      have plain : ∀ a ∈ String.utf8EncodeChar char, a ≠ Json.backslash := by
        intro a member same
        exact utf8EncodeChar_ne (by decide) notEscape (same ▸ member)
      have frees : surrogateFree (String.utf8EncodeChar char ++ rest) = (true && surrogateFree rest) :=
        surrogateFree_plain rest plain
      exact ih.step (Json.unescaped_plain rest plain) frees (fun _ => rfl) (fun pair => by cases pair)
  | @escape char letter chars rest code later ih =>
      obtain ⟨notUnicode, written⟩ := escape_writes code
      have frees : surrogateFree (Json.backslash :: letter :: rest) = (true && surrogateFree rest) := by
        rw [surrogateFree, if_pos rfl, bne_iff_ne.mpr notUnicode, Bool.true_or]
      exact ih.step (Json.unescaped_letter rest notUnicode) frees (fun _ => written.symm) (fun pair => by cases pair)
  | @unicode char digits chars rest four code later ih =>
      obtain ⟨read, small, _⟩ := hexValue_read four code
      have frees := surrogateFree_unicode rest four code
      rw [decide_eq_true (char_no_surrogate char)] at frees
      exact ih.step (Json.unescaped_unicode rest four read) frees (fun _ => encode_utf8 small) (fun pair => by cases pair)
  | @surrogates char left right high low chars rest four codes highRange lowRange value later ih =>
      obtain ⟨readHigh, _, _⟩ := hexValue_read four.1 codes.1
      obtain ⟨readLow, _, _⟩ := hexValue_read four.2 codes.2
      have notFree : decide (high < 0xd800 ∨ 0xe000 ≤ high) = false := decide_eq_false (by omega)
      have frees := surrogateFree_unicode (Json.backslash :: 117 :: right ++ rest) four.1 codes.1
      have writes : Json.unescaped (Json.backslash :: 117 :: left ++ (Json.backslash :: 117 :: right ++ rest)) =
          (Json.encode high ++ Json.encode low ++ (Json.unescaped rest).1, (Json.unescaped rest).2) := by
        rw [Json.unescaped_unicode _ four.1 readHigh, Json.unescaped_unicode rest four.2 readLow, List.append_assoc]
        rfl
      rw [notFree, Bool.false_and] at frees
      rw [List.append_assoc]
      refine ih.step writes (frees.trans (Bool.false_and _).symm) (fun whole => by cases whole) fun _ => ?_
      rw [List.length_append, encode_length (by omega), encode_length (by omega),
        String.length_utf8EncodeChar]
      exact Nat.lt_of_le_of_lt (Char.utf8Size_le_four char) (by decide)

end Ijson
