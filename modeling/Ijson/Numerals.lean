/-
The texts of numbers: `add_number` and `add_hex` with their arrays, and `atoi`
and `hextoi`, which read them.

An `i64` has at most nineteen digits.  The least one is not negated by `-n`, and
its digits come out below the character zero.
-/

import Ijson.ScratchArray
import Ijson.Text

namespace Ijson

open ScratchArray

theorem i64_of_range {n : Int} (low : -2 ^ 63 ≤ n) (high : n < 2 ^ 63) : i64 n = n := by
  rw [i64, Int.bmod_eq_of_le] <;> omega

theorem i32_of_small {n : Nat} (small : n < 2 ^ 31) : i32 (n : Int) = n := by
  rw [i32, Int.bmod_eq_of_le] <;> omega

theorem i64_step (base value d : Int) : i64 (i64 value * base + d) = i64 (value * base + d) := by
  unfold i64
  rw [← Int.bmod_add_bmod, Int.bmod_mul_bmod, Int.bmod_add_bmod]

/-! ### Writing -/

/-- One round of the loop of `add_number`. -/
def numberStep (n : Int) : Option (UInt8 × Int) :=
  if n = 0 then none else some (((n.tmod 10 + 48) % 256).toNat.toUInt8, n.tdiv 10)

/-- `add_number` with its array of 20 bytes, which is not initialised. -/
def addNumberTo (buffer garbage : Bytes) (n : Int) : Option Bytes := do
  let (scratch, i) ← if n = 0 then (store garbage 19 48).map fun scratch => (scratch, 18) else some (garbage, 19)
  let (scratch, i) ← fill numberStep 20 (if n < 0 then i64 (-n) else n) scratch i
  let (scratch, i) ← if n < 0 then (store scratch i 45).map fun scratch => (scratch, i - 1) else some (scratch, i)
  return buffer ++ (scratch.drop (i + 1).toNat).take (19 - i).toNat

def hexDigit (d : Nat) : UInt8 := (if d < 10 then 48 + d else 87 + d).toUInt8

/-- `add_hex` with its array of 16 bytes. -/
def addHexTo (buffer garbage : Bytes) (n : Nat) : Option Bytes :=
  if n = 0 then some (buffer ++ ascii "0")
  else do
    let (scratch, i) ← fill (digitStep 16 hexDigit) 16 n garbage 15
    return buffer ++ (scratch.drop (i + 1).toNat).take (15 - i).toNat

/-! ### Canonical texts -/

def decimalDigit (d : Nat) : UInt8 := (48 + d).toUInt8

/-- The decimal text: a sign for a negative number, and no zero in front. -/
def decimalText (n : Int) : Bytes :=
  if n = 0 then ascii "0"
  else (if n < 0 then ascii "-" else []) ++ ((Nat.digits 10 n.natAbs).map decimalDigit).reverse

/-- The lower-case hexadecimal text, without a zero in front. -/
def hexadecimalText (n : Nat) : Bytes :=
  if n = 0 then ascii "0" else ((Nat.digits 16 n).map hexDigit).reverse

theorem decimalDigit_injective {d e : Nat} (small : d < 10) (smallToo : e < 10) (same : decimalDigit d = decimalDigit e) :
    d = e := by
  have digits : ∀ d, d < 10 → ∀ e, e < 10 → decimalDigit d = decimalDigit e → d = e := by decide
  exact digits d small e smallToo same

theorem decimalDigits_injective {left right : List Nat} (small : ∀ d ∈ left, d < 10) (smallToo : ∀ d ∈ right, d < 10)
    (same : left.map decimalDigit = right.map decimalDigit) : left = right := by
  induction left generalizing right with
  | nil =>
    cases right with
    | nil => rfl
    | cons d right => cases same
  | cons d left ih =>
      cases right with
      | nil => cases same
      | cons e right =>
          rw [List.map_cons, List.map_cons, List.cons.injEq] at same
          rw [List.forall_mem_cons] at small smallToo
          rw [decimalDigit_injective small.1 smallToo.1 same.1, ih small.2 smallToo.2 same.2]

theorem digits_front {n : Nat} (positive : n ≠ 0) :
    ∃ d rest, ((Nat.digits 10 n).map decimalDigit).reverse = decimalDigit d :: rest ∧ 0 < d ∧ d < 10 := by
  have present : Nat.digits 10 n ≠ [] := Nat.digits_ne_nil_iff_ne_zero.mpr positive
  obtain ⟨front, d, split⟩ : ∃ front d, Nat.digits 10 n = front ++ [d] :=
    ⟨_, _, (List.dropLast_append_getLast present).symm⟩
  refine ⟨d, (front.map decimalDigit).reverse, by rw [split]; simp, ?_, ?_⟩
  · have last := Nat.getLast_digit_ne_zero 10 positive
    have same : (Nat.digits 10 n).getLast present = d := by simp [split]
    omega
  · exact Nat.digits_lt_base (by decide) (show d ∈ Nat.digits 10 n by rw [split]; simp)

theorem decimalDigit_ne {d : Nat} (small : d < 10) : decimalDigit d ≠ 45 ∧ (0 < d → decimalDigit d ≠ 48) := by
  have digits : ∀ d, d < 10 → decimalDigit d ≠ 45 ∧ (0 < d → decimalDigit d ≠ 48) := by decide
  exact digits d small

theorem decimalText_injective {n m : Int} (same : decimalText n = decimalText m) : n = m := by
  -- a digit in front is neither a sign nor a zero
  have front : ∀ k : Int, k ≠ 0 → ∃ d rest,
      ((Nat.digits 10 k.natAbs).map decimalDigit).reverse = d :: rest ∧ d ≠ 45 ∧ d ≠ 48 := by
    intro k other
    obtain ⟨d, rest, split, positive, small⟩ := digits_front (Int.natAbs_ne_zero.mpr other)
    exact ⟨_, rest, split, (decimalDigit_ne small).1, (decimalDigit_ne small).2 positive⟩
  have magnitudes : ((Nat.digits 10 n.natAbs).map decimalDigit).reverse =
      ((Nat.digits 10 m.natAbs).map decimalDigit).reverse → n.natAbs = m.natAbs := by
    intro reversed
    refine Nat.digits.injective 10 (decimalDigits_injective ?_ ?_ (List.reverse_injective reversed))
    · exact fun d member => Nat.digits_lt_base (by decide) member
    · exact fun d member => Nat.digits_lt_base (by decide) member
  have zero : ascii "0" = [48] := by decide
  have minus : ascii "-" = [45] := by decide
  rw [decimalText, decimalText, zero, minus] at same
  by_cases nZero : n = 0
  · by_cases mZero : m = 0
    · rw [nZero, mZero]
    · obtain ⟨d, rest, split, _, notZero⟩ := front m mZero
      rw [if_pos nZero, if_neg mZero, split] at same
      split at same
      · cases same
      · exact absurd (List.cons.inj same).1.symm notZero
  · obtain ⟨d, rest, split, notMinus, notZero⟩ := front n nZero
    by_cases mZero : m = 0
    · rw [if_neg nZero, if_pos mZero, split] at same
      split at same
      · cases same
      · exact absurd (List.cons.inj same).1 notZero
    · obtain ⟨e, other, splitToo, notMinusToo, _⟩ := front m mZero
      rw [if_neg nZero, if_neg mZero] at same
      by_cases negative : n < 0
      · by_cases negativeToo : m < 0
        · rw [if_pos negative, if_pos negativeToo] at same
          have equal := magnitudes (List.append_cancel_left same)
          omega
        · rw [if_pos negative, if_neg negativeToo, splitToo] at same
          exact absurd (List.cons.inj same).1.symm notMinusToo
      · by_cases negativeToo : m < 0
        · rw [if_neg negative, if_pos negativeToo, split] at same
          exact absurd (List.cons.inj same).1 notMinus
        · rw [if_neg negative, if_neg negativeToo] at same
          have equal := magnitudes same
          omega

/-! ### The loops -/

theorem numberLoop_emit (fuel : Nat) (n : Int) : numberLoop fuel n = emit numberStep fuel n := by
  induction fuel generalizing n with
  | zero => rfl
  | succ fuel ih =>
      rw [numberLoop, emit, numberStep]
      by_cases zero : n = 0
      · rw [if_pos zero, if_pos zero]
      · rw [if_neg zero, if_neg zero, ih]

theorem hexLoop_emit (fuel n : Nat) : hexLoop fuel n = emit (digitStep 16 hexDigit) fuel n := by
  induction fuel generalizing n with
  | zero => rfl
  | succ fuel ih =>
      rw [hexLoop, emit, digitStep]
      by_cases zero : n = 0
      · rw [if_pos zero, if_pos zero]
      · rw [if_neg zero, if_neg zero]
        exact congrArg (· ++ [hexDigit (n % 16)]) (ih (n / 16))

theorem numberStep_natCast (n : Nat) :
    numberStep n = (digitStep 10 decimalDigit n).map fun pair => (pair.1, (pair.2 : Int)) := by
  rw [numberStep, digitStep]
  by_cases zero : n = 0
  · rw [zero]
    rfl
  · have digits : ∀ d : Nat, d < 10 → (((d : Int) + 48) % 256).toNat.toUInt8 = decimalDigit d := by decide
    rw [if_neg (by omega), if_neg zero, ← digits (n % 10) (Nat.mod_lt n (by decide))]
    rfl

/-- The loop over a number that is not negative gives its digits. -/
theorem emit_natCast (fuel n : Nat) : emit numberStep fuel n = emit (digitStep 10 decimalDigit) fuel n ∧
    (Ends numberStep fuel n ↔ Ends (digitStep 10 decimalDigit) fuel n) := by
  induction fuel generalizing n with
  | zero =>
      refine ⟨rfl, ?_⟩
      rw [Ends, Ends, numberStep_natCast, Option.map_eq_none_iff]
  | succ fuel ih =>
      rw [emit, emit, Ends, Ends, numberStep_natCast]
      cases digitStep 10 decimalDigit n with
      | none => exact ⟨rfl, Iff.rfl⟩
      | some pair => exact ⟨congrArg (· ++ [pair.1]) (ih pair.2).1, (ih pair.2).2⟩

/-- The digits of a number that is not too long. -/
theorem numberLoop_natCast {n : Nat} (small : n < 10 ^ 20) :
    numberLoop 20 n = ((Nat.digits 10 n).map decimalDigit).reverse ∧ Ends numberStep 20 n := by
  obtain ⟨ends, text⟩ := emit_digits (by decide) decimalDigit 20 small
  rw [numberLoop_emit, (emit_natCast 20 n).1, text]
  exact ⟨rfl, (emit_natCast 20 n).2.mpr ends⟩

theorem addNumber_decimal {n : Int} (low : -2 ^ 63 < n) (high : n < 2 ^ 63) : addNumber n = decimalText n := by
  rw [addNumber, decimalText]
  by_cases zero : n = 0
  · rw [if_pos zero, if_pos zero]
  · rw [if_neg zero, if_neg zero]
    by_cases negative : n < 0
    · have magnitude : i64 (-n) = (n.natAbs : Int) := by
        rw [i64_of_range (by omega) (by omega)]
        omega
      rw [if_pos negative, if_pos negative, magnitude, (numberLoop_natCast (by omega)).1]
    · have magnitude : n = (n.natAbs : Int) := by omega
      rw [if_neg negative, if_neg negative, List.nil_append]
      nth_rewrite 1 [magnitude]
      rw [(numberLoop_natCast (by omega)).1]

theorem addHex_hexadecimal {n : Nat} (small : n < 2 ^ 64) : addHex n = hexadecimalText n := by
  rw [addHex, hexadecimalText]
  by_cases zero : n = 0
  · rw [if_pos zero, if_pos zero]
  · rw [if_neg zero, if_neg zero, hexLoop_emit, (emit_digits (by decide) hexDigit 16 (by omega)).2]

/-! ### Reading -/

theorem digit?_decimalDigit {d : Nat} (small : d < 10) : digit? (decimalDigit d) = some d := by
  have cases : ∀ d : Nat, d < 10 → digit? (decimalDigit d) = some d := by decide
  exact cases d small

theorem hexDigit?_hexDigit {d : Nat} (small : d < 16) : hexDigit? (hexDigit d) = some d := by
  have cases : ∀ d : Nat, d < 16 → hexDigit? (hexDigit d) = some d := by decide
  exact cases d small

theorem atoiLoop_digits (n : Nat) : atoiLoop ((Nat.digits 10 n).map decimalDigit).reverse 0 = .ok (i64 n) := by
  have read := read_digits (by decide) decimalDigit atoiLoop i64
    (fun d small rest value => by rw [atoiLoop, digit?_decimalDigit small]; rfl) (i64_step 10) n []
  rw [List.append_nil] at read
  exact read

theorem hextoiLoop_digits (n : Nat) : hextoiLoop ((Nat.digits 16 n).map hexDigit).reverse 0 = .ok (i64 n) := by
  have read := read_digits (by decide) hexDigit hextoiLoop i64
    (fun d small rest value => by rw [hextoiLoop, hexDigit?_hexDigit small]; rfl) (i64_step 16) n []
  rw [List.append_nil] at read
  exact read

theorem digits_ne_nil {n : Nat} (positive : n ≠ 0) {base : Nat} (write : Nat → UInt8) :
    ((Nat.digits base n).map write).reverse ≠ [] := by
  rw [ne_eq, List.reverse_eq_nil_iff, List.map_eq_nil_iff, Nat.digits_eq_nil_iff_eq_zero]
  exact positive

/-- What `add_hex` has written gives the same 64 bits. -/
theorem hextoi_addHex {n : Nat} (small : n < 2 ^ 64) : hextoi (addHex n) = .ok (i64 n) := by
  rw [addHex_hexadecimal small, hexadecimalText]
  by_cases zero : n = 0
  · rw [zero]
    decide
  · rw [if_neg zero, hextoi, List.isEmpty_eq_false_iff.mpr (digits_ne_nil zero hexDigit)]
    exact hextoiLoop_digits n

theorem decimal_head {n : Nat} (positive : n ≠ 0) :
    ∃ a rest, ((Nat.digits 10 n).map decimalDigit).reverse = a :: rest ∧ a ≠ 45 := by
  cases text : ((Nat.digits 10 n).map decimalDigit).reverse with
  | nil => exact absurd text (digits_ne_nil positive decimalDigit)
  | cons a rest =>
      have member : a ∈ ((Nat.digits 10 n).map decimalDigit).reverse := by
        rw [text]
        exact List.mem_cons_self
      obtain ⟨d, isDigit, same⟩ := List.mem_map.mp (List.mem_reverse.mp member)
      have others : ∀ d : Nat, d < 10 → decimalDigit d ≠ 45 := by decide
      exact ⟨a, rest, rfl, same ▸ others d (Nat.digits_lt_base (by decide) isDigit)⟩

theorem atoi_decimal {n : Int} (low : -2 ^ 63 ≤ n) (high : n < 2 ^ 63) : atoi (decimalText n) = .ok n := by
  rw [decimalText]
  by_cases zero : n = 0
  · rw [if_pos zero, zero]
    decide
  · have positive : n.natAbs ≠ 0 := by omega
    obtain ⟨a, rest, text, notMinus⟩ := decimal_head positive
    have loop := atoiLoop_digits n.natAbs
    rw [text] at loop
    rw [if_neg zero, text]
    by_cases negative : n < 0
    · have minus : ascii "-" ++ a :: rest = 45 :: a :: rest := rfl
      have magnitude : i64 (-i64 (n.natAbs : Int)) = n := by
        rw [i64, i64, Int.bmod_neg_bmod, Int.bmod_eq_of_le] <;> omega
      rw [if_pos negative, minus, atoi, if_pos rfl, List.isEmpty_cons, if_neg Bool.false_ne_true, loop]
      exact congrArg Except.ok magnitude
    · rw [if_neg negative, List.nil_append, atoi, if_neg notMinus, loop, i64_of_range (by omega) (by omega)]
      exact congrArg Except.ok (by omega)

theorem atoi_addNumber {n : Int} (low : -2 ^ 63 < n) (high : n < 2 ^ 63) : atoi (addNumber n) = .ok n := by
  rw [addNumber_decimal low high]
  exact atoi_decimal (Int.le_of_lt low) high

theorem emit_decimal (fuel n : Nat) : ∀ a ∈ emit (digitStep 10 decimalDigit) fuel n, (digit? a).isSome := by
  induction fuel generalizing n with
  | zero =>
      intro a member
      cases member
  | succ fuel ih =>
      intro a member
      rw [emit, digitStep] at member
      by_cases zero : n = 0
      · rw [if_pos zero] at member
        cases member
      · rw [if_neg zero] at member
        rcases List.mem_append.mp member with earlier | last
        · exact ih (n / 10) a earlier
        · rw [List.mem_singleton.mp last, digit?_decimalDigit (Nat.mod_lt n (by decide))]
          rfl

theorem addNumber_digits (n : Nat) : ∀ a ∈ addNumber n, (digit? a).isSome := by
  rw [addNumber]
  by_cases zero : (n : Int) = 0
  · rw [if_pos zero]
    exact List.forall_mem_singleton.mpr (by decide)
  · rw [if_neg zero, if_neg (by omega), numberLoop_emit, (emit_natCast 20 n).1]
    exact emit_decimal 20 n

theorem addNumber_ne_nil (n : Nat) : addNumber n ≠ [] := by
  rw [addNumber]
  by_cases zero : (n : Int) = 0
  · rw [if_pos zero]
    decide
  · rw [if_neg zero, if_neg (by omega), numberLoop_emit, (emit_natCast 20 n).1, emit, digitStep, if_neg (by omega)]
    exact List.append_ne_nil_of_right_ne_nil _ (List.cons_ne_nil _ _)

/-! ### The arrays -/

/-- What `add_number` writes fits its array, with the sign. -/
theorem number_fits {n : Int} (low : -2 ^ 63 ≤ n) (high : n < 2 ^ 63) :
    Ends numberStep 20 (if n < 0 then i64 (-n) else n) ∧
      (emit numberStep 20 (if n < 0 then i64 (-n) else n)).length ≤ 19 := by
  have fits : ∀ m : Nat, m < 2 ^ 63 → Ends numberStep 20 m ∧ (emit numberStep 20 m).length ≤ 19 := by
    intro m small
    obtain ⟨text, ends⟩ := emit_natCast 20 m
    rw [text, ends]
    exact ⟨(emit_digits (by decide) decimalDigit 20 (by omega)).1,
      emit_length (by decide) decimalDigit 20 (by omega) (by omega)⟩
  by_cases least : n = -2 ^ 63
  · rw [least]
    exact ⟨trivial, by decide⟩
  · have magnitude : (if n < 0 then i64 (-n) else n) = (n.natAbs : Int) := by
      by_cases negative : n < 0
      · rw [if_pos negative, i64_of_range (by omega) (by omega)]
        omega
      · rw [if_neg negative]
        omega
    rw [magnitude]
    exact fits n.natAbs (by omega)

theorem behind_index (size : Nat) {after text : Bytes} (room : text.length ≤ size)
    (written : after.drop (size - text.length) = text) :
    (after.drop (((size - text.length : Nat) : Int) - 1 + 1).toNat).take
      (((size : Int) - 1) - (((size - text.length : Nat) : Int) - 1)).toNat = text := by
  have start : (((size - text.length : Nat) : Int) - 1 + 1).toNat = size - text.length := by omega
  have length : (((size : Int) - 1) - (((size - text.length : Nat) : Int) - 1)).toNat = text.length := by omega
  rw [start, length, written, List.take_length]

/-- No store of `add_number` is outside of its array, and the text is appended. -/
theorem addNumberTo_eq (buffer : Bytes) {garbage : Bytes} (twenty : garbage.length = 20) {n : Int}
    (low : -2 ^ 63 ≤ n) (high : n < 2 ^ 63) : addNumberTo buffer garbage n = some (buffer ++ addNumber n) := by
  obtain ⟨ends, length⟩ := number_fits low high
  rw [addNumberTo, addNumber]
  by_cases zero : n = 0
  · have inside : 19 < garbage.length := by omega
    have last : (garbage.set 19 48).drop (20 - (ascii "0").length) = ascii "0" := by
      change (garbage.set 19 48).drop 19 = [48]
      rw [drop_set garbage inside, List.drop_eq_nil_of_le (by omega)]
    have behind := behind_index 20 (by decide) last
    have stores : store garbage 19 48 = some (garbage.set 19 48) := store_inside inside 48
    rw [zero, if_pos rfl, if_pos rfl, stores]
    exact congrArg (fun text => some (buffer ++ text)) behind
  · obtain ⟨after, filled, size, written⟩ := fill_eq ends (Nat.le_of_eq twenty.symm) (by omega)
    rw [List.drop_eq_nil_of_le (Nat.le_of_eq twenty), List.append_nil] at written
    simp only [if_neg zero, Option.bind_eq_bind, Option.bind_some]
    change (fill numberStep 20 _ garbage (((20 : Nat) : Int) - 1)).bind _ = _
    rw [filled, Option.bind_some]
    by_cases negative : n < 0
    · simp only [if_pos negative, ← numberLoop_emit] at written length ⊢
      generalize numberLoop 20 (i64 (-n)) = text at written length ⊢
      have place : ((20 - text.length : Nat) : Int) - 1 = ((19 - text.length : Nat) : Int) := by omega
      have inside : 19 - text.length < after.length := by omega
      have behindPlace : 19 - text.length + 1 = 20 - text.length := by omega
      have signed : (after.set (19 - text.length) 45).drop (20 - (45 :: text).length) = 45 :: text := by
        have start : 20 - (45 :: text).length = 19 - text.length := by
          rw [List.length_cons]
          omega
        rw [start, drop_set after inside, behindPlace, written]
      have behind := behind_index 20 (by rw [List.length_cons]; omega) signed
      have sameIndex : ((20 - (45 :: text).length : Nat) : Int) - 1 = ((19 - text.length : Nat) : Int) - 1 := by
        rw [List.length_cons]
        omega
      rw [sameIndex] at behind
      rw [place, store_inside inside, Option.map_some, Option.bind_some]
      exact congrArg (fun text => some (buffer ++ text)) behind
    · simp only [if_neg negative, ← numberLoop_emit] at written length ⊢
      have behind := behind_index 20 (by omega) written
      exact congrArg (fun text => some (buffer ++ text)) behind

theorem addHexTo_eq (buffer : Bytes) {garbage : Bytes} (sixteen : garbage.length = 16) {n : Nat} (small : n < 2 ^ 64) :
    addHexTo buffer garbage n = some (buffer ++ addHex n) := by
  rw [addHexTo, addHex]
  by_cases zero : n = 0
  · rw [if_pos zero, if_pos zero]
  · have digits : n < 16 ^ 16 := by omega
    obtain ⟨ends, _⟩ := emit_digits (by decide) hexDigit 16 digits
    have length := emit_length (by decide) hexDigit 16 digits digits
    obtain ⟨after, filled, _, written⟩ := fill_eq ends (Nat.le_of_eq sixteen.symm) length
    rw [List.drop_eq_nil_of_le (Nat.le_of_eq sixteen), List.append_nil] at written
    have behind := behind_index 16 length written
    rw [if_neg zero, if_neg zero, hexLoop_emit]
    change (fill (digitStep 16 hexDigit) 16 n garbage (((16 : Nat) : Int) - 1)).bind _ = _
    rw [filled, Option.bind_some]
    exact congrArg (fun text => some (buffer ++ text)) behind

/-! ### Texts and arrays together -/

/-- The decimal text is appended, and read back. -/
def WritesDecimal (buffer garbage : Bytes) (n : Int) : Prop :=
  addNumberTo buffer garbage n = some (buffer ++ decimalText n) ∧ atoi (decimalText n) = .ok n

/-- The hexadecimal text is appended, and read back as the same 64 bits. -/
def WritesHexadecimal (buffer garbage : Bytes) (n : Nat) : Prop :=
  addHexTo buffer garbage n = some (buffer ++ hexadecimalText n) ∧
    ∃ value, hextoi (hexadecimalText n) = .ok value ∧ value % 2 ^ 64 = n

theorem writes_hexadecimal (buffer : Bytes) {garbage : Bytes} (sixteen : garbage.length = 16) {n : Nat}
    (small : n < 2 ^ 64) : WritesHexadecimal buffer garbage n := by
  constructor
  · rw [addHexTo_eq buffer sixteen small, addHex_hexadecimal small]
  · have read := hextoi_addHex small
    rw [addHex_hexadecimal small] at read
    have bits : i64 (n : Int) % 2 ^ 64 = n := by
      have same : Int.bmod (n : Int) (2 ^ 64) % ((2 ^ 64 : Nat) : Int) = (n : Int) % ((2 ^ 64 : Nat) : Int) :=
        Int.bmod_emod
      rw [i64]
      omega
    exact ⟨i64 n, read, bits⟩

/-- The digits of the least number are not digits. -/
theorem addNumber_least : atoi (addNumber (-2 ^ 63)) ≠ .ok (-2 ^ 63) := by
  have refused : (atoi (addNumber (-2 ^ 63))).toOption = none := by decide
  intro read
  rw [read] at refused
  cases refused

/-- `add_number` writes the decimal text, and `atoi` reads it back, for every number but the
least one; no store is outside of its array for any number, and `add_hex` and `hextoi` agree on
every number. -/
theorem number_texts_iff (buffer : Bytes) {garbage hexGarbage : Bytes} (twenty : garbage.length = 20)
    (sixteen : hexGarbage.length = 16) {n : Int} (low : -2 ^ 63 ≤ n) (high : n < 2 ^ 63) {bits : Nat}
    (small : bits < 2 ^ 64) :
    (WritesDecimal buffer garbage n ↔ n ≠ -2 ^ 63) ∧ (addNumberTo buffer garbage n).isSome ∧
      WritesHexadecimal buffer hexGarbage bits := by
  have appended := addNumberTo_eq buffer twenty low high
  constructor
  · constructor
    · intro ⟨written, read⟩ least
      rw [appended, Option.some.injEq, List.append_cancel_left_eq] at written
      rw [← written, least] at read
      exact addNumber_least read
    · intro others
      have above : -2 ^ 63 < n := by omega
      rw [addNumber_decimal above high] at appended
      exact ⟨appended, atoi_decimal low high⟩
  · exact ⟨appended ▸ rfl, writes_hexadecimal buffer sixteen small⟩

theorem number_texts_ends :
    (WritesDecimal [] (List.replicate 20 0) (2 ^ 63 - 1) ↔ (2 ^ 63 - 1 : Int) ≠ -2 ^ 63) ∧
      (addNumberTo [] (List.replicate 20 0) (2 ^ 63 - 1)).isSome ∧
      WritesHexadecimal [] (List.replicate 16 0) (2 ^ 64 - 1) :=
  number_texts_iff [] (by decide) (by decide) (by decide) (by decide) (by decide)

/-- The least number is written with characters that are not digits. -/
theorem least_number_misread :
    addNumberTo [] (List.replicate 20 0) (-2 ^ 63) ≠ some (decimalText (-2 ^ 63)) ∧
      ((addNumberTo [] (List.replicate 20 0) (-2 ^ 63)).map fun text => (atoi text).toOption) = some none := by
  constructor
  · intro written
    have read := atoi_decimal (n := -2 ^ 63) (by decide) (by decide)
    rw [addNumberTo_eq [] (by decide) (by decide) (by decide), List.nil_append, Option.some.injEq] at written
    rw [← written] at read
    exact addNumber_least read
  · decide

end Ijson
