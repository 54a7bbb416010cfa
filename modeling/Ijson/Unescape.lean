/-
`json::unescape` in place, with its two indices.

The text behind `start` is read at `i` and written at `n` of the same buffer.
The places of the writes are recorded beside the index at which the loop has
read last; a read or a write outside of the size is a fault.
-/

import Ijson.Checked
import Ijson.JsonStrings

namespace Ijson

/-- A write at a place, when the loop has read up to another one. -/
structure Written where
  place : Nat
  read : Nat

/-- The buffer between its start and its size; `writes` is kept for the record only. -/
structure InPlace where
  buffer : Bytes
  writes : List Written

namespace InPlace

open Checked

abbrev Editing (α : Type) := Checked InPlace Exc α

/-- `p[i]`. -/
def byte (i : Nat) : Editing UInt8 := do
  match (← look).buffer[i]? with
  | none => fault
  | some a => return a

/-- The four bytes of `Slice(&p[i], 4)`. -/
def four (i : Nat) : Editing Bytes := do
  let s ← look
  if i + 4 ≤ s.buffer.length then return (s.buffer.drop i).take 4 else fault

def store (n i : Nat) (a : UInt8) (s : InPlace) : InPlace :=
  { buffer := s.buffer.set n a
    writes := s.writes ++ [⟨n, i⟩] }

/-- `p[n++] = a`, when `i` is the index of the loop. -/
def put (n i : Nat) (a : UInt8) : Editing Nat := do
  if n < (← look).buffer.length then
    change (store n i a)
    return n + 1
  else fault

/-- `put` for the bytes of one code point. -/
def putAll (i : Nat) : Bytes → Nat → Editing Nat
  | [], n => return n
  | a :: rest, n => do
      let n ← put n i a
      putAll i rest n

/-- The local variables `i`, `n` and `prefix`. -/
structure Local where
  i : Nat
  n : Nat
  escaped : Bool

/-- A round of the loop; `size` is `s.size()`. -/
def round (size : Nat) (here : Local) : Editing (Local ⊕ Nat) := do
  if here.i < size then
    let a ← byte here.i
    if here.escaped then
      if a = 117 && here.i + 4 < size then
        let digits ← four (here.i + 1)
        match hextoi digits with
        | .error error => raise error
        | .ok code =>
            let n ← putAll (here.i + 4) (Json.encode code.toNat) here.n
            return .inl ⟨here.i + 5, n, false⟩
      else
        let n ← put here.n here.i (Json.escapedByte a)
        return .inl ⟨here.i + 1, n, false⟩
    else if a = Json.backslash then return .inl ⟨here.i + 1, here.n, true⟩
    else
      let n ← put here.n here.i a
      return .inl ⟨here.i + 1, n, false⟩
  else return .inr here.n

/-- `json::unescape`. -/
def unescape (start : Nat) : Editing Unit := do
  let size := (← look).buffer.length
  let n ← iterate (size + 1) (round size) ⟨start, start, false⟩
  change fun s => { s with buffer := s.buffer.take n }

/-! ### Steps -/

variable {s t : InPlace}

theorem meets_byte {Q : UInt8 → InPlace → Prop} {E : Exc → InPlace → Prop} {i : Nat} {a : UInt8} (found : s.buffer[i]? = some a) :
    Meets (byte i) s Q E ↔ Q a s := by
  rw [byte, meets_bind, meets_look]
  simp only [found, meets_pure]

/-- What the writes of some bytes leave: the bytes up to the new write index, and all of the
old text behind it. -/
structure Puts (s : InPlace) (n i : Nat) (bytes : Bytes) (m : Nat) (t : InPlace) : Prop where
  place : m = n + bytes.length
  size : t.buffer.length = s.buffer.length
  front : t.buffer.take m = s.buffer.take n ++ bytes
  behind : t.buffer.drop m = s.buffer.drop m
  writes : ∃ new, t.writes = s.writes ++ new ∧ ∀ write ∈ new, n ≤ write.place ∧ write.place < m ∧ write.read = i

theorem put_meets {n i : Nat} (inside : n < s.buffer.length) (a : UInt8) {E : Exc → InPlace → Prop} :
    Meets (put n i a) s (Puts s n i [a]) E := by
  rw [put, meets_bind, meets_look, if_pos inside, meets_bind, meets_change, meets_pure]
  constructor
  · rfl
  · exact List.length_set ..
  · change (s.buffer.set n a).take (n + 1) = s.buffer.take n ++ [a]
    rw [List.take_succ_eq_append_getElem (by rw [List.length_set]; exact inside), List.take_set_of_le (Nat.le_refl n),
      List.getElem_set_self]
  · exact List.drop_set_of_lt (Nat.lt_succ_self n)
  · refine ⟨[⟨n, i⟩], rfl, ?_⟩
    intro write member
    rw [List.mem_singleton.mp member]
    exact ⟨Nat.le_refl n, Nat.lt_succ_self n, rfl⟩

theorem Puts.trans {u : InPlace} {n i m k : Nat} {first second : Bytes} (left : Puts s n i first m t)
    (right : Puts t m i second k u) : Puts s n i (first ++ second) k u := by
  obtain ⟨new, written, each⟩ := left.writes
  obtain ⟨newer, writtenThen, eachThen⟩ := right.writes
  have places := left.place
  have placesThen := right.place
  constructor
  · rw [List.length_append, placesThen, places, Nat.add_assoc]
  · exact right.size.trans left.size
  · rw [right.front, left.front, List.append_assoc]
  · have further : k = m + second.length := right.place
    rw [right.behind, further, ← List.drop_drop, ← List.drop_drop, left.behind]
  · refine ⟨new ++ newer, by rw [writtenThen, written, List.append_assoc], ?_⟩
    intro write member
    rcases List.mem_append.mp member with earlier | later
    · obtain ⟨low, high, read⟩ := each write earlier
      exact ⟨low, by omega, read⟩
    · obtain ⟨low, high, read⟩ := eachThen write later
      exact ⟨by omega, high, read⟩

theorem putAll_meets {i n : Nat} {bytes : Bytes} (room : n + bytes.length ≤ s.buffer.length)
    {E : Exc → InPlace → Prop} : Meets (putAll i bytes n) s (Puts s n i bytes) E := by
  induction bytes generalizing s n with
  | nil => exact ⟨rfl, rfl, (List.append_nil _).symm, rfl, [], (List.append_nil _).symm, fun write nothing => by cases nothing⟩
  | cons a bytes ih =>
      rw [List.length_cons] at room
      rw [putAll, meets_bind]
      refine (put_meets (by omega) a).mono ?_ (fun _ _ throws => throws)
      intro m t first
      have place : m = n + 1 := first.place
      refine (ih (by rw [first.size, place]; omega)).mono ?_ (fun _ _ throws => throws)
      intro k u second
      exact first.trans second

/-! ### The loop -/

/-- The loop has made a part of the text, and what it makes of the rest comes behind it. -/
structure Halfway (whole : Bytes) (start : Nat) (here : Local) (s : InPlace) : Prop where
  ordered : start ≤ here.n ∧ here.n ≤ here.i ∧ here.i ≤ whole.length
  pending : here.escaped = true → here.n < here.i
  size : s.buffer.length = whole.length
  behind : s.buffer.drop here.n = whole.drop here.n
  writes : ∀ write ∈ s.writes, start ≤ write.place ∧ write.place ≤ write.read
  made : ∃ made, s.buffer.take here.n = whole.take start ++ made ∧
    Json.unescaped (whole.drop start) =
      (made ++ (Json.unescapedFrom (whole.drop here.i) here.escaped).1,
        (Json.unescapedFrom (whole.drop here.i) here.escaped).2)

variable {whole : Bytes} {start : Nat} {here : Local}

theorem Halfway.ahead (half : Halfway whole start here s) : s.buffer.drop here.i = whole.drop here.i := by
  obtain ⟨gap, sum⟩ := Nat.exists_eq_add_of_le half.ordered.2.1
  rw [sum, ← List.drop_drop, ← List.drop_drop, half.behind]

/-- A round that writes some bytes, after reading up to `j`. -/
theorem Halfway.puts (half : Halfway whole start here s) {j m : Nat} {bytes : Bytes}
    (puts : Puts s here.n j bytes m t) (room : here.n + bytes.length ≤ j + 1) (inside : j < whole.length)
    (reads : Json.unescapedFrom (whole.drop here.i) here.escaped =
      (bytes ++ (Json.unescapedFrom (whole.drop (j + 1)) false).1, (Json.unescapedFrom (whole.drop (j + 1)) false).2)) :
    Halfway whole start ⟨j + 1, m, false⟩ t := by
  have place := puts.place
  obtain ⟨made, front, soFar⟩ := half.made
  obtain ⟨new, written, each⟩ := puts.writes
  have behindStart := half.ordered.1
  constructor
  · exact ⟨by simp only; omega, by simp only; omega, inside⟩
  · intro impossible
    cases impossible
  · exact puts.size.trans half.size
  · change t.buffer.drop m = whole.drop m
    rw [puts.behind, place, ← List.drop_drop, ← List.drop_drop, half.behind]
  · intro write member
    rw [written] at member
    rcases List.mem_append.mp member with earlier | later
    · exact half.writes write earlier
    · obtain ⟨low, high, read⟩ := each write later
      exact ⟨by omega, by omega⟩
  · refine ⟨made ++ bytes, ?_, ?_⟩
    · change t.buffer.take m = _
      rw [puts.front, front, List.append_assoc]
    · rw [soFar, reads, List.append_assoc]

theorem round_meets (half : Halfway whole start here s) {E : Exc → InPlace → Prop}
    (throws : ∀ error, Json.unescapedFrom (whole.drop here.i) here.escaped = ([], some error) → E error s) :
    Meets (round whole.length here) s
      (fun after t =>
        match after with
        | .inl later => Halfway whole start later t ∧ whole.length - later.i < whole.length - here.i
        | .inr n => n = here.n ∧ t = s ∧ here.i = whole.length) E := by
  obtain ⟨behindStart, behindRead, inside⟩ := half.ordered
  obtain ⟨i, n, escaped⟩ := here
  simp only at behindStart behindRead inside throws ⊢
  rw [round]
  by_cases more : i < whole.length
  · have smaller : ∀ k, i < k → whole.length - k < whole.length - i := by
      intro k further
      omega
    have room : n < s.buffer.length := by
      rw [half.size]
      omega
    obtain ⟨a, found, stands⟩ : ∃ a, s.buffer[i]? = some a ∧ whole.drop i = a :: whole.drop (i + 1) := by
      have stands := List.drop_eq_getElem_cons more
      refine ⟨whole[i], ?_, stands⟩
      rw [← List.head?_drop, half.ahead, stands]
      rfl
    rw [if_pos more, meets_bind, meets_byte found]
    rw [stands] at throws
    cases escaped with
    | true =>
        have before := half.pending rfl
        simp only at before
        by_cases unicode : (a = 117 && i + 4 < whole.length) = true
        · obtain ⟨isUnicode, long⟩ : a = 117 ∧ i + 4 < whole.length := by simpa using unicode
          have enough : 4 ≤ (whole.drop (i + 1)).length := by
            rw [List.length_drop]
            omega
          have reads := Json.unescapedFrom_unicode enough
          have digits : (s.buffer.drop (i + 1)).take 4 = (whole.drop (i + 1)).take 4 := by
            rw [← List.drop_drop, ← List.drop_drop, half.ahead]
          rw [isUnicode, reads] at throws
          simp only [if_pos, if_pos unicode]
          rw [meets_bind, four, meets_bind, meets_look, half.size, if_pos (by omega), meets_pure, digits]
          cases value : hextoi ((whole.drop (i + 1)).take 4) with
          | error error =>
              rw [value] at throws
              exact throws error rfl
          | ok code =>
              rw [value, List.drop_drop] at reads
              have short := Json.encode_short code.toNat
              rw [meets_bind]
              refine (putAll_meets (by rw [half.size]; omega)).mono ?_ (fun _ _ never => never)
              intro m t puts
              refine ⟨half.puts puts (by simp only; omega) long ?_, smaller (i + 5) (by omega)⟩
              rw [stands, isUnicode]
              exact reads
        · simp only [if_pos, if_neg unicode]
          rw [meets_bind]
          refine (put_meets room _).mono ?_ (fun _ _ never => never)
          intro m t puts
          refine ⟨half.puts puts (by simp only [List.length_singleton]; omega) more ?_, smaller (i + 1) (Nat.lt_succ_self i)⟩
          rw [stands]
          apply Json.unescapedFrom_letter
          rintro ⟨isUnicode, long⟩
          rw [List.length_drop] at long
          exact unicode (by simp only [isUnicode, decide_true, Bool.true_and, decide_eq_true_eq]; omega)
    | false =>
        rw [if_neg Bool.false_ne_true]
        by_cases opens : a = Json.backslash
        · rw [if_pos opens]
          obtain ⟨made, front, soFar⟩ := half.made
          rw [stands, opens, Json.unescapedFrom_backslash] at soFar
          refine ⟨⟨⟨behindStart, Nat.le_succ_of_le behindRead, more⟩, fun _ => Nat.lt_succ_of_le behindRead, half.size,
            half.behind, half.writes, made, front, soFar⟩, smaller (i + 1) (Nat.lt_succ_self i)⟩
        · rw [if_neg opens, meets_bind]
          refine (put_meets room _).mono ?_ (fun _ _ never => never)
          intro m t puts
          refine ⟨half.puts puts (by simp only [List.length_singleton]; omega) more ?_, smaller (i + 1) (Nat.lt_succ_self i)⟩
          rw [stands]
          exact Json.unescapedFrom_plain _ opens
  · rw [if_neg more]
    exact ⟨rfl, rfl, by omega⟩

/-! ### The whole routine -/

/-- The buffer is as the model on texts says: in front of the start it is as before, and each
write has been at a place that was read already. -/
structure Edited (s : InPlace) (start : Nat) (t : InPlace) : Prop where
  buffer : t.buffer = s.buffer.take start ++ (Json.unescape (s.buffer.drop start)).1
  writes : ∀ write ∈ t.writes, start ≤ write.place ∧ write.place ≤ write.read

theorem unescape_meets (inside : start ≤ s.buffer.length) (fresh : s.writes = []) :
    Meets (unescape start) s
      (fun _ t => Edited s start t ∧ (Json.unescape (s.buffer.drop start)).2 = none)
      (fun error t => Edited s start t ∧ (Json.unescape (s.buffer.drop start)).2 = some error) := by
  rw [unescape, meets_bind, meets_look, meets_bind]
  have whole := Json.unescape_eq (s.buffer.drop start)
  refine meets_iterate (Halfway s.buffer start) (fun here _ => s.buffer.length - here.i) ?_ ?_
    (Nat.lt_succ_of_le (Nat.sub_le _ _))
  · intro here t half
    obtain ⟨made, front, soFar⟩ := half.made
    have places : here.n = start + made.length := by
      have lengths := congrArg List.length front
      have size := half.size
      have ordered := half.ordered
      rw [List.length_take, List.length_append, List.length_take] at lengths
      omega
    refine (round_meets half ?_).mono ?_ (fun _ _ throws => throws)
    · intro error failed
      rw [failed, List.append_nil] at soFar
      rw [soFar] at whole
      simp only at whole
      refine ⟨⟨?_, half.writes⟩, by rw [whole]⟩
      rw [whole, ← List.append_assoc, ← front, List.drop_drop, ← places, ← half.behind, List.take_append_drop]
    · intro after u post
      cases after with
      | inl later => exact post
      | inr n =>
          obtain ⟨sameN, sameState, ended⟩ := post
          have nothing : Json.unescapedFrom (s.buffer.drop here.i) here.escaped = ([], none) := by
            rw [ended, List.drop_length]
            rfl
          rw [nothing, List.append_nil] at soFar
          rw [soFar] at whole
          simp only at whole
          simp only [meets_change, sameN, sameState]
          exact ⟨⟨by rw [whole]; exact front, half.writes⟩, by rw [whole]⟩
  · constructor
    · exact ⟨Nat.le_refl start, Nat.le_refl start, inside⟩
    · intro never
      cases never
    · rfl
    · rfl
    · rw [fresh]
      intro write nothing
      cases nothing
    · exact ⟨[], (List.append_nil _).symm, rfl⟩

/-- For every text of a JSON string and every start the routine returns, leaves what is in
front of the start, never writes beyond the place it has read, and makes the UTF-8 bytes of
the string exactly of the texts without surrogate pairs. -/
theorem unescape_utf8_iff (before : Bytes) {text : Bytes} {chars : List Char} (encodes : Encodes chars text) :
    ∃ t, unescape before.length ⟨before ++ text, []⟩ = .returned t () ∧ t.buffer.take before.length = before ∧
      (∀ write ∈ t.writes, before.length ≤ write.place ∧ write.place ≤ write.read) ∧
      (t.buffer.drop before.length = utf8 chars ↔ surrogateFree text = true) := by
  have decodes := decodes_encodes encodes
  have inside : before.length ≤ (before ++ text).length := by
    rw [List.length_append]
    exact Nat.le_add_right _ _
  have meets := @unescape_meets ⟨before ++ text, []⟩ before.length inside rfl
  have returns : (Json.unescape text).2 = none ∧ (Json.unescape text).1 = (Json.unescaped text).1 := by
    rw [Json.unescape_eq]
    have nothing := decodes.returns
    generalize Json.unescaped text = result at nothing ⊢
    obtain ⟨written, error⟩ := result
    simp only at nothing
    rw [nothing]
    exact ⟨rfl, rfl⟩
  simp only [List.drop_left] at meets
  rcases meets.outcome with ⟨t, _, call, edited, _⟩ | ⟨t, error, _, _, thrown⟩
  · have buffer := edited.buffer
    simp only [List.drop_left, List.take_left] at buffer
    rw [returns.2] at buffer
    refine ⟨t, call, by rw [buffer, List.take_left], edited.writes, ?_⟩
    rw [buffer, List.drop_left]
    constructor
    · intro same
      cases free : surrogateFree text with
      | true => rfl
      | false => exact absurd (congrArg List.length same) (Nat.ne_of_gt (decodes.longer free))
    · exact decodes.exact
  · rw [returns.1] at thrown
    cases thrown

end InPlace

/-- A character beyond 0xffff, spelled as a pair of escapes. -/
theorem encodes_pair : Encodes [Char.ofNat 0x1f600] (ascii "\\ud83d\\ude00") :=
  @Encodes.surrogates (Char.ofNat 0x1f600) (ascii "d83d") (ascii "de00") 0xd83d 0xde00 [] [] (by decide)
    (by decide +kernel) (by decide) (by decide) (by decide +kernel) .nil

/-- The pair becomes two sequences of three bytes, which are not UTF-8. -/
theorem InPlace.pair_undecoded : Encodes [Char.ofNat 0x1f600] (ascii "\\ud83d\\ude00") ∧
    (match InPlace.unescape 0 ⟨ascii "\\ud83d\\ude00", []⟩ with
      | .returned t _ => t.buffer
      | _ => []) = [237, 160, 189, 237, 184, 128] ∧ utf8 [Char.ofNat 0x1f600] = [240, 159, 152, 128] :=
  ⟨encodes_pair, by decide +kernel, by decide +kernel⟩

theorem InPlace.unescape_utf8_iff_escaped :
    ∃ t, InPlace.unescape 1 ⟨ascii "=a\\/b", []⟩ = .returned t () ∧ t.buffer.take 1 = ascii "=" ∧
      (∀ write ∈ t.writes, 1 ≤ write.place ∧ write.place ≤ write.read) ∧
      (t.buffer.drop 1 = utf8 ['a', '/', 'b'] ↔ surrogateFree (ascii "a\\/b") = true) :=
  InPlace.unescape_utf8_iff (ascii "=") <|
    encodes_ascii rfl (by decide) (by decide) (by decide) <|
      .escape (by decide) <| encodes_ascii rfl (by decide) (by decide) (by decide) .nil

end Ijson
