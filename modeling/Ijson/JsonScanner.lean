/-
The scanner of `json.cpp` as it moves its index.

`index` stays where an exception has left it, keys and values are views of the
data, and a read outside of the data or a step back from the first byte is a
fault.
-/

import Ijson.Checked
import Ijson.ScannedIds

namespace Ijson

/-- `Slice(&ptr[start], stop - start)`, as places of the data. -/
structure Span where
  start : Nat
  stop : Nat
  deriving DecidableEq

structure Scanner where
  data : Bytes
  status : Nat
  index : Nat
  key : Span
  value : Span

namespace Scanner

open Json Checked

abbrev Scanning (α : Type) := Checked Scanner Exc α

/-- `load`. -/
def load (data : Bytes) : Scanner :=
  { data := data
    status := 0
    index := 0
    key := ⟨0, 0⟩
    value := ⟨0, 0⟩ }

def moveTo (scanner : Scanner) (index : Nat) : Scanner := { scanner with index := index }

/-- `ptr[i]`. -/
def byte (i : Nat) : Scanning UInt8 := do
  match (← look).data[i]? with
  | none => fault
  | some a => return a

/-- The bytes of a view. -/
def bytes (span : Span) : Scanning Bytes := do
  let scanner ← look
  if span.start ≤ span.stop ∧ span.stop ≤ scanner.data.length then return part scanner.data span.start span.stop
  else fault

/-- `index++`. -/
def advance : Scanning Unit := change fun scanner => scanner.moveTo (scanner.index + 1)

/-- `index--`. -/
def back : Scanning Unit := do
  if (← look).index = 0 then fault else change fun scanner => scanner.moveTo (scanner.index - 1)

def next : Scanning UInt8 := do
  let scanner ← look
  if scanner.index ≥ scanner.data.length then raise .invalidData
  else
    let a ← byte scanner.index
    advance
    return a

/-- A round of the loop of `strip`. -/
def stripRound (_ : Unit) : Scanning (Unit ⊕ Unit) := do
  let scanner ← look
  if scanner.index < scanner.data.length then
    let a ← byte scanner.index
    if a = blank || a = newline || a = 13 || a = 9 then
      advance
      return .inl ()
    else return .inr ()
  else raise .invalidData

def strip : Scanning Unit := do
  iterate ((← look).data.length + 1) stripRound ()

/-- A round of the search for the closing quote. -/
def stringRound (start : Nat) (_ : Unit) : Scanning (Unit ⊕ Span) := do
  let scanner ← look
  if scanner.index < scanner.data.length then
    let a ← byte scanner.index
    let closes ←
      if a = quote then
        if scanner.index = 0 then fault
        else
          let before ← byte (scanner.index - 1)
          pure (decide (before ≠ backslash))
      else pure false
    advance
    if closes then return .inr ⟨start, (← look).index - 1⟩ else return .inl ()
  else raise .invalidData

/-- `read_string`. -/
def readString : Scanning Span := do
  let a ← next
  if a ≠ quote then raise .invalidData
  else
    let scanner ← look
    iterate (scanner.data.length + 1) (stringRound scanner.index) ()

/-- A round of the loop of `read_value`, with `is_number`. -/
def valueRound (start : Nat) (isNumber : Bool) : Scanning (Bool ⊕ Bool) := do
  let a ← next
  if a = blank || a = comma || a = closeBrace || a = newline || a = 13 then return .inr isNumber
  else
    let isNumber := isNumber && (digit? a).isSome
    if !isNumber && (← look).index - start > 5 then raise .invalidData
    else return .inl isNumber

/-- `read_value`. -/
def readValue : Scanning Span := do
  let scanner ← look
  let start := scanner.index
  let isNumber ← iterate (scanner.data.length + 1) (valueRound start) true
  back
  let result : Span := ⟨start, (← look).index⟩
  if isNumber then return result
  else
    let text ← bytes result
    if text = ascii "null" || text = ascii "true" || text = ascii "false" then return result
    else raise .invalidData

/-- A round of the loop of `read_object`, with `lvl`. -/
def objectRound (start : Nat) (lvl : Int) : Scanning (Int ⊕ Span) := do
  let a ← next
  if a = openBrace || a = openBracket then return .inl (lvl + 1)
  else if a = closeBrace || a = closeBracket then
    if lvl - 1 = 0 then return .inr ⟨start, (← look).index⟩ else return .inl (lvl - 1)
  else if a = quote then
    back
    let _ ← readString
    return .inl lvl
  else return .inl lvl

/-- `read_object`. -/
def readObject : Scanning Span := do
  let scanner ← look
  iterate (scanner.data.length + 1) (objectRound scanner.index) 0

/-- The reader for a value with the first byte `a`. -/
def readerOf (a : UInt8) : Scanning Span :=
  if a = quote then readString
  else if a = openBrace || a = openBracket then readObject
  else readValue

/-- `scan` from the colon of a member on. -/
def afterKey : Scanning Bool := do
  strip
  let colon ← next
  if colon ≠ 58 then raise .invalidData
  else
    strip
    let a ← next
    back
    let value ← readerOf a
    change fun scanner => { scanner with value := value, status := 1 }
    return true

/-- `scan` from the key of a member on. -/
def readMember : Scanning Bool := do
  strip
  let key ← readString
  change fun scanner => { scanner with key := key }
  afterKey

def scan : Scanning Bool := do
  if (← look).data.isEmpty then return false
  else
    strip
    if (← look).status = 0 then
      let a ← next
      if a ≠ openBrace then raise .invalidData
      else
        strip
        let a ← next
        if a = closeBrace then return false
        else
          back
          readMember
    else
      let a ← next
      if a = closeBrace then return false
      else if a ≠ comma then raise .invalidData
      else readMember

/-! ### Steps of the index -/

variable {s t : Scanner}

/-- The index may have moved on, and all else is as it was. -/
structure Moved (s t : Scanner) : Prop where
  same : t = s.moveTo t.index
  forward : s.index ≤ t.index
  inside : t.index ≤ s.data.length

/-- The data are the same, and the index has not moved back. -/
structure Onward (s t : Scanner) : Prop where
  data : t.data = s.data
  forward : s.index ≤ t.index
  inside : t.index ≤ s.data.length

theorem Moved.data (moved : Moved s t) : t.data = s.data := by rw [moved.same]; rfl

theorem Moved.onward (moved : Moved s t) : Onward s t := ⟨moved.data, moved.forward, moved.inside⟩

theorem Moved.trans {u : Scanner} (first : Moved s t) (second : Moved t u) : Moved s u where
  same := by
    rw [second.same, first.same]
    rfl
  forward := Nat.le_trans first.forward second.forward
  inside := first.data ▸ second.inside

theorem Onward.trans {u : Scanner} (first : Onward s t) (second : Onward t u) : Onward s u where
  data := second.data.trans first.data
  forward := Nat.le_trans first.forward second.forward
  inside := first.data ▸ second.inside

theorem moveTo_back (t : Scanner) : (t.moveTo (t.index + 1)).moveTo ((t.moveTo (t.index + 1)).index - 1) = t := rfl

theorem moved_here (inside : s.index ≤ s.data.length) : Moved s s := ⟨rfl, Nat.le_refl _, inside⟩

theorem moved_to {index : Nat} (forward : s.index ≤ index) (inside : index ≤ s.data.length) :
    Moved s (s.moveTo index) := ⟨rfl, forward, inside⟩

/-- The exceptions of a reading, which the pure one has too. -/
def Refuses {α : Type} (reading : Except Exc α) (s : Scanner) (error : Exc) (t : Scanner) : Prop :=
  error = .invalidData ∧ reading = .error .invalidData ∧ Onward s t

/-- A view is taken between the old and the new index. -/
structure Takes (reading : Bytes → Nat → Except Exc (Bytes × Nat)) (s : Scanner) (span : Span) (t : Scanner) :
    Prop where
  moved : Moved s t
  behind : s.index ≤ span.start
  ordered : span.start ≤ span.stop
  ahead : span.stop ≤ t.index
  read : reading s.data s.index = .ok (part s.data span.start span.stop, t.index)

section

variable {Q : UInt8 → Scanner → Prop} {E : Exc → Scanner → Prop}

theorem meets_byte {i : Nat} {a : UInt8} (found : s.data[i]? = some a) : Meets (byte i) s Q E ↔ Q a s := by
  rw [byte, meets_bind, meets_look]
  simp only [found, meets_pure]

theorem meets_next
    (reads : ∀ a, Json.next s.data s.index = .ok a → s.data.drop s.index = a :: s.data.drop (s.index + 1) →
      s.index < s.data.length → Q a (s.moveTo (s.index + 1)))
    (ended : Json.next s.data s.index = .error .invalidData → E .invalidData s) : Meets next s Q E := by
  rw [next, meets_bind, meets_look]
  by_cases inside : s.index < s.data.length
  · have found := List.getElem?_eq_getElem inside
    rw [if_neg (Nat.not_le.mpr inside), meets_bind, meets_byte found]
    simp only [advance, meets_bind, meets_change, meets_pure]
    exact reads _ (by rw [Json.next, found]) (List.drop_eq_getElem_cons inside) inside
  · rw [if_pos (Nat.le_of_not_lt inside), meets_raise]
    exact ended (by rw [Json.next, List.getElem?_eq_none (Nat.le_of_not_lt inside)])

theorem meets_bytes {Q : Bytes → Scanner → Prop} {span : Span} (ordered : span.start ≤ span.stop)
    (inside : span.stop ≤ s.data.length) :
    Meets (bytes span) s Q E ↔ Q (part s.data span.start span.stop) s := by
  rw [bytes, meets_bind, meets_look, if_pos ⟨ordered, inside⟩, meets_pure]

theorem meets_back {Q : Unit → Scanner → Prop} (positive : s.index ≠ 0) :
    Meets back s Q E ↔ Q () (s.moveTo (s.index - 1)) := by
  rw [back, meets_bind, meets_look, if_neg positive, meets_change]

end

/-! ### The readers -/

theorem byte_at {data : Bytes} {index : Nat} (inside : index < data.length) :
    ∃ a, data[index]? = some a ∧ data.drop index = a :: data.drop (index + 1) :=
  ⟨data[index], List.getElem?_eq_getElem inside, List.drop_eq_getElem_cons inside⟩

theorem next_ended {data : Bytes} {index : Nat} (ended : Json.next data index = .error .invalidData) :
    data.length ≤ index := by
  rw [Json.next] at ended
  split at ended
  · exact List.getElem?_eq_none_iff.mp ‹_›
  · cases ended

theorem Moved.advance (moved : Moved s t) (more : t.index < s.data.length) : Moved s (t.moveTo (t.index + 1)) :=
  moved.trans (moved_to (Nat.le_succ _) (moved.data ▸ more))

theorem strip_meets (inside : s.index ≤ s.data.length) :
    Meets strip s (fun _ t => Moved s t ∧ Json.strip s.data s.index = .ok t.index)
      (Refuses (Json.strip s.data s.index) s) := by
  rw [strip, meets_bind, meets_look]
  refine meets_iterate (fun _ t => Moved s t ∧ Json.strip s.data s.index = Json.strip s.data t.index)
    (fun _ t => s.data.length - t.index) ?_ ⟨moved_here inside, rfl⟩ (by omega)
  rintro _ t ⟨moved, same⟩
  rw [stripRound, meets_bind, meets_look, moved.data]
  by_cases more : t.index < s.data.length
  · obtain ⟨a, found, stands⟩ := byte_at more
    have here : Json.strip s.data t.index =
        if (a = blank || a = newline || a = 13 || a = 9) = true then Json.strip s.data (t.index + 1)
        else .ok t.index := by rw [Json.strip, stands, stripLoop, Json.strip]
    rw [if_pos more, meets_bind, meets_byte (by rw [moved.data]; exact found)]
    by_cases space : (a = blank || a = newline || a = 13 || a = 9) = true
    · rw [if_pos space] at here ⊢
      rw [Scanner.advance, meets_bind, meets_change, meets_pure]
      exact ⟨⟨moved.advance more, same.trans here⟩, Nat.sub_succ_lt_self _ _ more⟩
    · rw [if_neg space] at here ⊢
      exact ⟨moved, same.trans here⟩
  · rw [if_neg more, meets_raise]
    refine ⟨rfl, ?_, moved.onward⟩
    rw [same, Json.strip, List.drop_eq_nil_of_le (Nat.le_of_not_lt more), stripLoop]

theorem stringRound_meets {start : Nat} {before : UInt8} (more : t.index < t.data.length) (positive : t.index ≠ 0)
    (front : t.data[t.index - 1]? = some before) {Q : Unit ⊕ Span → Scanner → Prop} {E : Exc → Scanner → Prop}
    (found : ∀ a, t.data.drop t.index = a :: t.data.drop (t.index + 1) → t.data[t.index]? = some a →
      if (a = quote && before ≠ backslash) = true then Q (.inr ⟨start, t.index⟩) (t.moveTo (t.index + 1))
      else Q (.inl ()) (t.moveTo (t.index + 1))) :
    Meets (stringRound start ()) t Q E := by
  obtain ⟨a, read, stands⟩ := byte_at more
  have post := found a stands read
  rw [stringRound, meets_bind, meets_look, if_pos more, meets_bind, meets_byte read]
  by_cases isQuote : a = quote
  · by_cases escaped : before = backslash
    · simpa [isQuote, escaped, positive, meets_byte front, Scanner.advance] using post
    · simpa [isQuote, escaped, positive, meets_byte front, Scanner.advance, moveTo] using post
  · simpa [isQuote, Scanner.advance] using post

theorem readString_meets (inside : s.index ≤ s.data.length) :
    Meets readString s (Takes Json.readString s) (Refuses (Json.readString s.data s.index) s) := by
  rw [readString, meets_bind]
  apply meets_next
  · intro a read stands more
    have reading := readString_eq s.data s.index
    rw [read] at reading
    simp only at reading
    by_cases other : a ≠ quote
    · rw [if_pos other] at reading ⊢
      exact ⟨rfl, reading, (moved_to (Nat.le_succ _) more).onward⟩
    · rw [if_neg other] at reading ⊢
      rw [meets_bind, meets_look]
      refine meets_iterate
        (fun _ t => Moved s t ∧ s.index < t.index ∧ ∃ before, s.data[t.index - 1]? = some before ∧
          stringLoop a (s.data.drop (s.index + 1)) (s.index + 1) = stringLoop before (s.data.drop t.index) t.index)
        (fun _ t => s.data.length - t.index) ?_ ?_ ?_
      · intro _ t ⟨moved, behind, before, front, same⟩
        by_cases inner : t.index < s.data.length
        · apply stringRound_meets (moved.data ▸ inner) (Nat.ne_of_gt (Nat.zero_lt_of_lt behind)) (moved.data ▸ front)
          rw [moved.data]
          intro b stands found
          rw [stands, stringLoop] at same
          by_cases closes : (b = quote && before ≠ backslash) = true
          · rw [if_pos closes] at same ⊢
            rw [same] at reading
            exact ⟨moved.advance inner, Nat.le_succ _, behind, Nat.le_succ _, reading⟩
          · rw [if_neg closes] at same ⊢
            exact ⟨⟨moved.advance inner, Nat.lt_succ_of_lt behind, b, found, same⟩, Nat.sub_succ_lt_self _ _ inner⟩
        · rw [stringRound, meets_bind, meets_look, moved.data, if_neg inner, meets_raise]
          rw [List.drop_eq_nil_of_le (Nat.le_of_not_lt inner), stringLoop] at same
          rw [same] at reading
          exact ⟨rfl, reading, moved.onward⟩
      · refine ⟨moved_to (Nat.le_succ _) more, Nat.lt_succ_self _, a, ?_, rfl⟩
        have first := congrArg List.head? stands
        rw [List.head?_drop] at first
        exact first
      · change s.data.length - (s.index + 1) < s.data.length + 1
        omega
  · intro ended
    refine ⟨rfl, ?_, (moved_here inside).onward⟩
    rw [readString_eq, ended]

theorem readValue_meets (inside : s.index ≤ s.data.length) :
    Meets readValue s (Takes Json.readValue s) (Refuses (Json.readValue s.data s.index) s) := by
  have reading := readValue_eq s.data s.index
  rw [readValue, meets_bind, meets_look, meets_bind]
  refine meets_iterate
    (fun isNumber t => Moved s t ∧
      valueLoop s.index (s.data.drop s.index) s.index true =
        valueLoop s.index (s.data.drop t.index) t.index isNumber)
    (fun _ t => s.data.length - t.index) ?_ ⟨moved_here inside, rfl⟩ (by omega)
  rintro isNumber t ⟨moved, same⟩
  rw [valueRound, meets_bind]
  apply meets_next
  · rw [moved.data]
    intro a read stands more
    rw [stands, valueLoop] at same
    by_cases stops : (a = blank || a = comma || a = closeBrace || a = newline || a = 13) = true
    · rw [if_pos stops] at same ⊢
      rw [same] at reading
      simp only [meets_pure, meets_bind]
      rw [meets_back (Nat.succ_ne_zero _), meets_look, moveTo_back]
      have taken : (isNumber || JsonText.isLiteral (part s.data s.index t.index)) = true →
          Takes Json.readValue s ⟨s.index, t.index⟩ t := by
        intro accepted
        have notRefused : ¬(!isNumber && !JsonText.isLiteral (part s.data s.index t.index)) = true := by
          cases isNumber <;> simp_all
        simp only [if_neg notRefused] at reading
        exact ⟨moved, Nat.le_refl _, moved.forward, Nat.le_refl _, reading⟩
      by_cases number : isNumber = true
      · rw [if_pos number, meets_pure]
        exact taken (by rw [number]; rfl)
      · rw [if_neg number, meets_bind, meets_bytes moved.forward (moved.data ▸ moved.inside), moved.data]
        change Meets (if JsonText.isLiteral (part s.data s.index t.index) = true then _ else _) t _ _
        by_cases literal : JsonText.isLiteral (part s.data s.index t.index) = true
        · rw [if_pos literal, meets_pure]
          exact taken (by rw [literal, Bool.or_true])
        · rw [if_neg literal, meets_raise]
          rw [Bool.not_eq_true] at number literal
          simp only [number, literal, Bool.not_false, Bool.and_self, if_true] at reading
          exact ⟨rfl, reading, moved.onward⟩
    · rw [if_neg stops] at same ⊢
      simp only [meets_bind, meets_look]
      simp only at same
      change Meets (if (!(isNumber && (digit? a).isSome) && decide (t.index + 1 - s.index > 5)) = true then _ else _)
        _ _ _
      by_cases long : (!(isNumber && (digit? a).isSome) && decide (t.index + 1 - s.index > 5)) = true
      · rw [if_pos long] at same
        rw [same] at reading
        rw [if_pos long, meets_raise]
        exact ⟨rfl, reading, (moved.advance more).onward⟩
      · rw [if_neg long] at same
        rw [if_neg long, meets_pure]
        exact ⟨⟨moved.advance more, same⟩, Nat.sub_succ_lt_self _ _ more⟩
  · rw [moved.data]
    intro ended
    rw [List.drop_eq_nil_of_le (next_ended ended), valueLoop] at same
    rw [same] at reading
    exact ⟨rfl, reading, moved.onward⟩

/-- Inside of a string the loop of `read_object` looks for the closing quote. -/
theorem objectLoop_inside {data : Bytes} (level : Int) {before : UInt8} {index : Nat} :
    objectLoop level (some before) (data.drop index) index =
      match stringLoop before (data.drop index) index with
      | .error error => .error error
      | .ok stop => objectLoop level none (data.drop (stop + 1)) (stop + 1) := by
  induction text : data.drop index generalizing before index with
  | nil => rfl
  | cons a rest ih =>
      have later := drop_succ text
      rw [objectLoop, stringLoop]
      by_cases closes : (a = quote && before ≠ backslash) = true
      · simp only [if_pos closes, later]
      · simp only [if_neg closes]
        exact ih later

/-- A string of an object, from its opening quote on. -/
theorem objectLoop_readString {data : Bytes} (level : Int) {index : Nat}
    (stands : data.drop index = quote :: data.drop (index + 1)) (read : Json.next data index = .ok quote) :
    objectLoop level none (data.drop index) index =
      match Json.readString data index with
      | .error error => .error error
      | .ok (_, stop) => objectLoop level none (data.drop stop) stop := by
  have isQuote : (quote = openBrace || quote = openBracket) = false := by decide
  have notClosing : (quote = closeBrace || quote = closeBracket) = false := by decide
  rw [stands, objectLoop, readString_eq, read]
  simp only [isQuote, notClosing, Bool.false_eq_true, if_false, if_true, ne_eq, not_true_eq_false]
  rw [objectLoop_inside]
  cases stringLoop quote (data.drop (index + 1)) (index + 1) with
  | error error => rfl
  | ok stop => rfl

theorem readObject_meets (inside : s.index ≤ s.data.length) :
    Meets readObject s (Takes Json.readObject s) (Refuses (Json.readObject s.data s.index) s) := by
  have reading := readObject_eq s.data s.index
  rw [readObject, meets_bind, meets_look]
  refine meets_iterate
    (fun lvl t => Moved s t ∧
      objectLoop 0 none (s.data.drop s.index) s.index = objectLoop lvl none (s.data.drop t.index) t.index)
    (fun _ t => s.data.length - t.index) ?_ ⟨moved_here inside, rfl⟩ (by omega)
  rintro lvl t ⟨moved, same⟩
  rw [objectRound, meets_bind]
  apply meets_next
  · rw [moved.data]
    intro a read stands more
    have step := moved.advance more
    have smaller := Nat.sub_succ_lt_self _ _ more
    by_cases isQuote : a = quote
    · rw [isQuote] at read stands
      rw [isQuote, if_neg (by decide), if_neg (by decide), if_pos rfl, meets_bind, meets_back (Nat.succ_ne_zero _),
        moveTo_back, meets_bind]
      rw [objectLoop_readString lvl stands read] at same
      refine (readString_meets (moved.data ▸ moved.inside)).mono ?_ ?_
      · intro span u taken
        have ahead := taken.read
        rw [moved.data] at ahead
        rw [ahead] at same
        have further := (JsonText.readString_lt ahead).1
        have bound := taken.moved.inside
        rw [moved.data] at bound
        exact ⟨⟨moved.trans taken.moved, same⟩, Nat.sub_lt_sub_left (Nat.lt_of_lt_of_le further bound) further⟩
      · intro error u ⟨errorEq, refused, onward⟩
        rw [moved.data] at refused
        rw [refused] at same
        rw [same] at reading
        exact ⟨errorEq, reading, moved.onward.trans onward⟩
    · rw [stands, objectLoop] at same
      simp only [if_neg isQuote] at same ⊢
      by_cases opens : (a = openBrace || a = openBracket) = true
      · rw [if_pos opens] at same ⊢
        exact ⟨⟨step, same⟩, smaller⟩
      · rw [if_neg opens] at same ⊢
        by_cases closes : (a = closeBrace || a = closeBracket) = true
        · rw [if_pos closes] at same ⊢
          by_cases last : lvl - 1 = 0
          · rw [if_pos last] at same ⊢
            rw [same] at reading
            exact ⟨step, Nat.le_refl _, step.forward, Nat.le_refl _, reading⟩
          · rw [if_neg last] at same ⊢
            exact ⟨⟨step, same⟩, smaller⟩
        · rw [if_neg closes] at same ⊢
          exact ⟨⟨step, same⟩, smaller⟩
  · rw [moved.data]
    intro ended
    rw [List.drop_eq_nil_of_le (next_ended ended), objectLoop] at same
    rw [same] at reading
    exact ⟨rfl, reading, moved.onward⟩

/-! ### Members -/

/-- What the members of the scanner are in the model on texts. -/
def json (level : Nat) (s : Scanner) : Json where
  data := s.data
  status := s.status
  index := s.index
  key := part s.data s.key.start s.key.stop
  value := part s.data s.value.start s.value.stop
  level := level

/-- A member read behind an index: its key, then its value, then the new index. -/
structure Found (s t : Scanner) : Prop where
  data : t.data = s.data
  behind : s.index ≤ t.key.start
  key : t.key.start ≤ t.key.stop
  between : t.key.stop ≤ t.value.start
  value : t.value.start ≤ t.value.stop
  ahead : t.value.stop ≤ t.index
  forward : s.index < t.index
  inside : t.index ≤ s.data.length

theorem readerOf_meets (inside : s.index ≤ s.data.length) {a : UInt8} (read : Json.next s.data s.index = .ok a) :
    Meets (readerOf a) s (Takes JsonText.valueAt s) (Refuses (JsonText.valueAt s.data s.index) s) := by
  have follows : ∀ reading : Bytes → Nat → Except Exc (Bytes × Nat),
      JsonText.valueAt s.data s.index = reading s.data s.index → ∀ {routine : Scanning Span},
      Meets routine s (Takes reading s) (Refuses (reading s.data s.index) s) →
        Meets routine s (Takes JsonText.valueAt s) (Refuses (JsonText.valueAt s.data s.index) s) := by
    intro reading same routine meets
    refine meets.mono ?_ ?_
    · intro span t taken
      exact { taken with read := same.trans taken.read }
    · intro error t ⟨errorEq, refused, onward⟩
      exact ⟨errorEq, same.trans refused, onward⟩
  have value := JsonText.valueAt.eq_1 s.data s.index
  rw [read] at value
  simp only at value
  unfold readerOf
  by_cases isQuote : a = quote
  · rw [if_pos isQuote] at value ⊢
    exact follows Json.readString value (readString_meets inside)
  · rw [if_neg isQuote] at value ⊢
    by_cases opens : (a = openBrace || a = openBracket) = true
    · rw [if_pos opens] at value ⊢
      exact follows Json.readObject value (readObject_meets inside)
    · rw [if_neg opens] at value ⊢
      exact follows Json.readValue value (readValue_meets inside)

/-- The colon and the value. -/
def colonValue (data : Bytes) (index : Nat) : Except Exc (Bytes × Nat) := do
  let index ← Json.strip data index
  let colon ← Json.next data index
  if colon ≠ 58 then throw .invalidData
  let index ← Json.strip data (index + 1)
  JsonText.valueAt data index

theorem member_eq (json : Json) (index : Nat) :
    json.member index = do
      let index ← Json.strip json.data index
      let (key, index) ← Json.readString json.data index
      let (value, index) ← colonValue json.data index
      return ({ json with status := 1, index := index, key := key, value := value }, true) := by
  rw [Json.member]
  refine congrArg (Json.strip json.data index >>= ·) (funext fun index => ?_)
  refine congrArg (Json.readString json.data index >>= ·) (funext fun read => ?_)
  obtain ⟨key, index⟩ := read
  simp only [colonValue]
  cases Json.strip json.data index with
  | error error => rfl
  | ok index =>
      cases readColon : Json.next json.data index with
      | error error =>
          simp only [bind, Except.bind, readColon]
      | ok colon =>
          by_cases other : colon ≠ 58
          · simp only [bind, Except.bind, readColon, if_pos other]
            rfl
          · simp only [bind, Except.bind, readColon, if_neg other]
            cases Json.strip json.data (index + 1) with
            | error error => rfl
            | ok index =>
                simp only [JsonText.valueAt]
                cases Json.next json.data index with
                | error error => rfl
                | ok a =>
                    by_cases isQuote : a = quote
                    · simp only [if_pos isQuote]
                    · by_cases opens : (a = openBrace || a = openBracket) = true
                      · simp only [if_neg isQuote, if_pos opens]
                      · simp only [if_neg isQuote, if_neg opens]

theorem afterKey_meets (inside : s.index ≤ s.data.length) :
    Meets afterKey s
      (fun flag t => flag = true ∧ ∃ u, Takes colonValue s t.value u ∧ t = { u with value := t.value, status := 1 })
      (Refuses (colonValue s.data s.index) s) := by
  have reading := colonValue.eq_1 s.data s.index
  simp only [bind, Except.bind] at reading
  rw [afterKey, meets_bind]
  refine (strip_meets inside).mono ?_ ?_
  · rintro _ first ⟨toFirst, stripped⟩
    simp only [stripped] at reading
    rw [meets_bind]
    apply meets_next
    · rw [toFirst.data]
      intro colon readColon stands more
      have step := toFirst.advance more
      simp only [readColon] at reading
      by_cases other : colon ≠ 58
      · rw [if_pos other] at reading ⊢
        exact ⟨rfl, reading, step.onward⟩
      · rw [if_neg other] at reading ⊢
        rw [meets_bind]
        refine (strip_meets (step.data ▸ step.inside)).mono ?_ ?_
        · rintro _ second ⟨toSecond, strippedAgain⟩
          have strippedAgain : Json.strip s.data (first.index + 1) = .ok second.index := step.data ▸ strippedAgain
          simp only [strippedAgain] at reading
          have toSecond := step.trans toSecond
          rw [meets_bind]
          apply meets_next
          · intro a readValue _ _
            rw [meets_bind, meets_back (Nat.succ_ne_zero _), moveTo_back, meets_bind]
            refine (readerOf_meets (toSecond.data ▸ toSecond.inside) readValue).mono ?_ ?_
            · intro span u taken
              have valueRead := taken.read
              rw [toSecond.data] at valueRead
              rw [valueRead] at reading
              have behind := Nat.le_trans toSecond.forward taken.behind
              exact ⟨rfl, u, ⟨toSecond.trans taken.moved, behind, taken.ordered, taken.ahead, reading⟩, rfl⟩
            · rintro error t ⟨errorEq, refused, onward⟩
              rw [toSecond.data] at refused
              exact ⟨errorEq, reading.trans refused, toSecond.onward.trans onward⟩
          · rw [toSecond.data]
            intro ended
            rw [JsonText.valueAt, ended] at reading
            exact ⟨rfl, reading, toSecond.onward⟩
        · rintro error t ⟨errorEq, refused, onward⟩
          have refused : Json.strip s.data (first.index + 1) = .error .invalidData := step.data ▸ refused
          simp only [refused] at reading
          exact ⟨errorEq, reading, step.onward.trans onward⟩
    · rw [toFirst.data]
      intro ended
      simp only [ended] at reading
      exact ⟨rfl, reading, toFirst.onward⟩
  · rintro error t ⟨errorEq, refused, onward⟩
    simp only [refused] at reading
    exact ⟨errorEq, reading, onward⟩

theorem readMember_meets (level : Nat) (inside : s.index ≤ s.data.length) :
    Meets readMember s
      (fun flag t => flag = true ∧ Found s t ∧ (s.json level).member s.index = .ok (t.json level, true))
      (Refuses ((s.json level).member s.index) s) := by
  have reading := member_eq (s.json level) s.index
  have data : (s.json level).data = s.data := rfl
  rw [data] at reading
  simp only [bind, Except.bind] at reading
  rw [readMember, meets_bind]
  refine (strip_meets inside).mono ?_ ?_
  · intro _ first ⟨toFirst, stripped⟩
    simp only [stripped] at reading
    rw [meets_bind]
    refine (readString_meets (toFirst.data ▸ toFirst.inside)).mono ?_ ?_
    · intro key second keyTaken
      have keyRead := keyTaken.read
      have toSecond := toFirst.trans keyTaken.moved
      rw [toFirst.data] at keyRead
      simp only [keyRead] at reading
      rw [meets_bind, meets_change]
      refine (afterKey_meets (toSecond.data ▸ toSecond.inside)).mono ?_ ?_
      · intro flag t ⟨always, u, taken, same⟩
        have valueRead : colonValue s.data second.index = .ok (part s.data t.value.start t.value.stop, u.index) := by
          have read := taken.read
          change colonValue second.data second.index =
            .ok (part second.data t.value.start t.value.stop, u.index) at read
          rw [toSecond.data] at read
          exact read
        simp only [valueRead] at reading
        have data : u.data = s.data := taken.moved.data.trans toSecond.data
        have keyKept : u.key = key := by rw [taken.moved.same]; rfl
        have indexKept : t.index = u.index := by rw [same]
        have movedOn := (JsonText.readString_lt keyRead).1
        have behind := toFirst.forward
        have below := taken.behind
        have ahead := taken.ahead
        have bound := taken.moved.inside
        change second.index ≤ t.value.start at below
        change u.index ≤ second.data.length at bound
        rw [toSecond.data] at bound
        have keyEq : t.key = key := by rw [same]; exact keyKept
        have dataEq : t.data = s.data := by rw [same]; exact data
        refine ⟨always, ?_, ?_⟩
        · constructor
          · exact dataEq
          · rw [keyEq]
            exact Nat.le_trans behind keyTaken.behind
          · rw [keyEq]
            exact keyTaken.ordered
          · rw [keyEq]
            exact Nat.le_trans keyTaken.ahead below
          · exact taken.ordered
          · rw [indexKept]
            exact ahead
          · rw [indexKept]
            have ordered := taken.ordered
            omega
          · rw [indexKept]
            exact bound
        · have statusEq : t.status = 1 := by rw [same]
          have view : t.json level =
              { s.json level with
                status := 1
                index := u.index
                key := part s.data key.start key.stop
                value := part s.data t.value.start t.value.stop } := by
            rw [json.eq_1 level t, dataEq, statusEq, indexKept, keyEq]
            rfl
          rw [reading, view]
          rfl
      · intro error t ⟨errorEq, refused, onward⟩
        have refused : colonValue s.data second.index = .error .invalidData := toSecond.data ▸ refused
        simp only [refused] at reading
        exact ⟨errorEq, reading, toSecond.onward.trans ⟨onward.data, onward.forward, onward.inside⟩⟩
    · intro error t ⟨errorEq, refused, onward⟩
      rw [toFirst.data] at refused
      simp only [refused] at reading
      exact ⟨errorEq, reading, toFirst.onward.trans onward⟩
  · intro error t ⟨errorEq, refused, onward⟩
    simp only [refused] at reading
    exact ⟨errorEq, reading, onward⟩

/-- A call of `scan` has returned as the model on texts does. -/
def Scans (level : Nat) (s : Scanner) (flag : Bool) (t : Scanner) : Prop :=
  (if flag = true then Found s t else Moved s t) ∧ (s.json level).scan = .ok (t.json level, flag)

theorem scan_member (level : Nat) (moved : Moved s t) (same : (s.json level).scan = (s.json level).member t.index) :
    Meets readMember t (Scans level s) (Refuses (s.json level).scan s) := by
  have view : (t.json level).member t.index = (s.json level).member t.index := by
    rw [moved.same]
    rfl
  refine (readMember_meets level (moved.data ▸ moved.inside)).mono ?_ ?_
  · intro flag u ⟨always, found, read⟩
    rw [view] at read
    rw [always, Scans, if_pos rfl, same]
    have inside := found.inside
    rw [moved.data] at inside
    exact ⟨{ found with
      data := found.data.trans moved.data
      behind := Nat.le_trans moved.forward found.behind
      forward := Nat.lt_of_le_of_lt moved.forward found.forward
      inside := inside }, read⟩
  · intro error u ⟨errorEq, refused, onward⟩
    rw [view] at refused
    exact ⟨errorEq, same.trans refused, moved.onward.trans onward⟩

theorem scan_ended (level : Nat) (moved : Moved s t)
    (read : (s.json level).scan = .ok ({ s.json level with index := t.index }, false)) : Scans level s false t := by
  have view : t.json level = { s.json level with index := t.index } := by
    rw [moved.same]
    rfl
  rw [Scans, view]
  exact ⟨moved, read⟩

/-- `scan` ends with true at a member, with false, or with `InvalidData`, as the model on texts says. -/
theorem scan_meets (level : Nat) (inside : s.index ≤ s.data.length) :
    Meets scan s (Scans level s) (Refuses (s.json level).scan s) := by
  have reading := Json.scan.eq_1 (s.json level)
  have data : (s.json level).data = s.data := rfl
  have index : (s.json level).index = s.index := rfl
  rw [data, index] at reading
  rw [scan, meets_bind, meets_look]
  by_cases empty : s.data.isEmpty = true
  · rw [if_pos empty] at reading ⊢
    exact ⟨moved_here inside, reading⟩
  · rw [if_neg empty] at reading ⊢
    rw [meets_bind]
    refine (strip_meets inside).mono ?_ ?_
    · rintro _ first ⟨toFirst, stripped⟩
      have status : first.status = s.status := by rw [toFirst.same]; rfl
      rw [stripped] at reading
      simp only [bind, Except.bind] at reading
      rw [meets_bind, meets_look, status]
      have statusView : (s.json level).status = s.status := rfl
      rw [statusView] at reading
      by_cases fresh : s.status = 0
      · rw [if_pos fresh, meets_bind]
        apply meets_next
        · rw [toFirst.data]
          intro a readOpen _ more
          have step := toFirst.advance more
          simp only [readOpen, if_pos fresh] at reading
          by_cases other : a ≠ openBrace
          · rw [if_pos other] at reading ⊢
            exact ⟨rfl, reading, step.onward⟩
          · rw [if_neg other] at reading ⊢
            rw [meets_bind]
            refine (strip_meets (step.data ▸ step.inside)).mono ?_ ?_
            · rintro _ second ⟨toSecond, strippedAgain⟩
              have strippedAgain : Json.strip s.data (first.index + 1) = .ok second.index :=
                step.data ▸ strippedAgain
              have toSecond := step.trans toSecond
              simp only [strippedAgain] at reading
              rw [meets_bind]
              apply meets_next
              · rw [toSecond.data]
                intro b readToken _ moreAgain
                simp only [readToken] at reading
                by_cases closes : b = closeBrace
                · rw [if_pos closes] at reading ⊢
                  rw [meets_pure]
                  exact scan_ended level (toSecond.advance moreAgain) reading
                · rw [if_neg closes] at reading ⊢
                  rw [meets_bind, meets_back (Nat.succ_ne_zero _), moveTo_back]
                  exact scan_member level toSecond reading
              · rw [toSecond.data]
                intro nothing
                simp only [nothing] at reading
                exact ⟨rfl, reading, toSecond.onward⟩
            · rintro error t ⟨errorEq, refused, onward⟩
              have refused : Json.strip s.data (first.index + 1) = .error .invalidData := step.data ▸ refused
              simp only [refused] at reading
              exact ⟨errorEq, reading, step.onward.trans onward⟩
        · rw [toFirst.data]
          intro nothing
          simp only [nothing] at reading
          exact ⟨rfl, reading, toFirst.onward⟩
      · rw [if_neg fresh, meets_bind]
        apply meets_next
        · rw [toFirst.data]
          intro a read _ more
          have step := toFirst.advance more
          simp only [read, if_neg fresh] at reading
          by_cases closes : a = closeBrace
          · rw [if_pos closes] at reading ⊢
            rw [meets_pure]
            exact scan_ended level step reading
          · rw [if_neg closes] at reading ⊢
            by_cases other : a ≠ comma
            · rw [if_pos other] at reading ⊢
              exact ⟨rfl, reading, step.onward⟩
            · rw [if_neg other] at reading ⊢
              exact scan_member level step reading
        · rw [toFirst.data]
          intro nothing
          simp only [nothing] at reading
          exact ⟨rfl, reading, toFirst.onward⟩
    · rintro error t ⟨errorEq, refused, onward⟩
      rw [refused] at reading
      exact ⟨errorEq, reading, onward⟩

/-! ### Whole runs -/

/-- The states between the calls of `scan`, however often it is called, with the keys and
values returned so far. -/
inductive Visited (data : Bytes) : Scanner → List (Span × Span) → Prop where
  | loaded : Visited data (load data) []
  | found {s t : Scanner} {members : List (Span × Span)} (before : Visited data s members)
      (call : scan s = .returned t true) : Visited data t (members ++ [(t.key, t.value)])
  | ended {s t : Scanner} {members : List (Span × Span)} (before : Visited data s members)
      (call : scan s = .returned t false) : Visited data t members
  | refused {s t : Scanner} {members : List (Span × Span)} {error : Exc} (before : Visited data s members)
      (call : scan s = .thrown t error) : Visited data t members

/-- The keys and values in the order in which they were returned. -/
def views (members : List (Span × Span)) : List Span := members.flatMap fun member => [member.1, member.2]

/-- Views in increasing order, none of which overlap, in front of a place. -/
def Laid (bound : Nat) (spans : List Span) : Prop :=
  spans.Pairwise (fun a b => a.stop ≤ b.start) ∧ ∀ span ∈ spans, span.start ≤ span.stop ∧ span.stop ≤ bound

theorem Laid.mono {bound further : Nat} {spans : List Span} (laid : Laid bound spans) (more : bound ≤ further) :
    Laid further spans :=
  ⟨laid.1, fun span member => ⟨(laid.2 span member).1, Nat.le_trans (laid.2 span member).2 more⟩⟩

theorem Laid.append {bound further : Nat} {spans : List Span} {span : Span} (laid : Laid bound spans)
    (behind : bound ≤ span.start) (ordered : span.start ≤ span.stop) (ahead : span.stop ≤ further) :
    Laid further (spans ++ [span]) := by
  have more : bound ≤ further := Nat.le_trans behind (Nat.le_trans ordered ahead)
  constructor
  · rw [List.pairwise_append]
    refine ⟨laid.1, List.pairwise_singleton _ _, ?_⟩
    intro a member b last
    rw [List.mem_singleton.mp last]
    exact Nat.le_trans (laid.2 a member).2 behind
  · intro a member
    rcases List.mem_append.mp member with earlier | last
    · exact (laid.mono more).2 a earlier
    · rw [List.mem_singleton.mp last]
      exact ⟨ordered, ahead⟩

/-- What holds between the calls. -/
structure Kept (data : Bytes) (s : Scanner) (members : List (Span × Span)) : Prop where
  loaded : s.data = data
  inside : s.index ≤ data.length
  count : members.length ≤ s.index
  laid : Laid s.index (views members)

theorem Kept.found {data : Bytes} {members : List (Span × Span)} (kept : Kept data s members) (found : Found s t) :
    Kept data t (members ++ [(t.key, t.value)]) where
  loaded := found.data.trans kept.loaded
  inside := kept.loaded ▸ found.inside
  count := by
    rw [List.length_append, List.length_singleton]
    exact Nat.le_trans (Nat.succ_le_succ kept.count) found.forward
  laid := by
    have spans : views (members ++ [(t.key, t.value)]) = views members ++ [t.key] ++ [t.value] := by
      rw [views, List.flatMap_append, List.append_assoc]
      rfl
    rw [spans]
    exact (kept.laid.append found.behind found.key (Nat.le_refl _)).append found.between found.value found.ahead

theorem Kept.onward {data : Bytes} {members : List (Span × Span)} (kept : Kept data s members) (onward : Onward s t) :
    Kept data t members where
  loaded := onward.data.trans kept.loaded
  inside := kept.loaded ▸ onward.inside
  count := Nat.le_trans kept.count onward.forward
  laid := kept.laid.mono onward.forward

theorem Kept.scans {data : Bytes} {members : List (Span × Span)} (kept : Kept data s members) :
    Meets scan s (Scans 0 s) (Refuses (s.json 0).scan s) :=
  scan_meets 0 (kept.loaded ▸ kept.inside)

theorem Visited.kept {data : Bytes} {members : List (Span × Span)} (visited : Visited data s members) :
    Kept data s members := by
  induction visited with
  | loaded => exact ⟨rfl, Nat.zero_le _, Nat.le_refl _, List.Pairwise.nil, fun span nothing => by cases nothing⟩
  | found before call ih =>
      have meets := ih.scans
      rw [Meets, call] at meets
      exact ih.found meets.1
  | ended before call ih =>
      have meets := ih.scans
      rw [Meets, call] at meets
      exact ih.onward (Moved.onward meets.1)
  | refused before call ih =>
      have meets := ih.scans
      rw [Meets, call] at meets
      exact ih.onward meets.2.2

/-- Whatever the data are: each call of `scan` returns true, with a greater index, or false, or
throws `InvalidData`, without a read outside of the data and without a loop that goes on; the
members are at most as many as the bytes, and the keys and values lie in the data, one behind
the other. -/
theorem scan_bounded {data : Bytes} {members : List (Span × Span)} (visited : Visited data s members) :
    ((∃ t flag, scan s = .returned t flag ∧ (flag = true → s.index < t.index)) ∨
      ∃ t, scan s = .thrown t .invalidData) ∧
      members.length ≤ data.length ∧ Laid data.length (views members) := by
  have kept := visited.kept
  constructor
  · rcases kept.scans.outcome with ⟨t, flag, call, scans⟩ | ⟨t, error, call, refuses⟩
    · refine Or.inl ⟨t, flag, call, ?_⟩
      intro member
      have found := scans.1
      rw [if_pos member] at found
      exact found.forward
    · rw [refuses.1] at call
      exact Or.inr ⟨t, call⟩
  · exact ⟨Nat.le_trans kept.count kept.inside, kept.laid.mono kept.inside⟩

/-- The scanner behind the last of two members. -/
def behindMember : Scanner :=
  { data := ascii "\x7b\"a\":1,\"b\":[]\x7d"
    status := 1
    index := 13
    key := ⟨8, 9⟩
    value := ⟨11, 13⟩ }

theorem scan_bounded_member :
    ((∃ t flag, scan behindMember = .returned t flag ∧ (flag = true → behindMember.index < t.index)) ∨
      ∃ t, scan behindMember = .thrown t .invalidData) ∧
    2 ≤ 14 ∧ Laid 14 [⟨2, 3⟩, ⟨5, 6⟩, ⟨8, 9⟩, ⟨11, 13⟩] :=
  scan_bounded (.found (.found (@Visited.loaded behindMember.data) rfl) rfl)

end Scanner

end Ijson
