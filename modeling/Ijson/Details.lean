/-
The body of `rpc/details`.

`send_details` puts a JSON text together by hand: the names of queues are
pasted as they are, and of the ids of workers and the info texts only the
quotes are escaped, in place.  The text is read back here, and compared with
the value it is meant to be.
-/

import Ijson.JsonReader
import Ijson.Numerals
import Ijson.Machine
import Ijson.References

namespace Ijson

open JsonReader Routine

/-! ### Escaping in place -/

/-- `ptr[i]`. -/
def load (buffer : Bytes) (i : Int) : Option UInt8 := if 0 ≤ i then buffer[i.toNat]? else none

/-- The loop of `json::escape` downwards from `i`, with `col` quotes left. -/
def escapeLoop (start : Int) : Nat → Int → Nat → Bytes → Option Bytes
  | 0, _, _, _ => none
  | fuel + 1, i, col, buffer =>
      if i < start then some buffer
      else do
        let a ← load buffer (i - col)
        let buffer ← ScratchArray.store buffer i a
        if a = Json.quote then
          let buffer ← ScratchArray.store buffer (i - 1) Json.backslash
          if col - 1 = 0 then some buffer else escapeLoop start fuel (i - 2) (col - 1) buffer
        else escapeLoop start fuel (i - 1) col buffer

/-- `json::escape`; `garbage` is what the memory behind the text holds. -/
def escapeAt (garbage : Nat → UInt8) (start : Nat) (buffer : Bytes) : Option Bytes :=
  let col := (buffer.drop start).count Json.quote
  if col = 0 then some buffer
  else
    let grown := buffer ++ (List.range col).map fun k => garbage (buffer.length + k)
    escapeLoop start (grown.length + 1) (grown.length - 1) col grown

theorem escape_none {text : Bytes} (nothing : text.count Json.quote = 0) : escape text = text := by
  induction text with
  | nil => rfl
  | cons a text ih =>
      rw [List.count_eq_zero, List.mem_cons, not_or] at nothing
      rw [escape, List.flatMap_cons, if_neg (Ne.symm nothing.1), ← escape, ih (List.count_eq_zero.mpr nothing.2)]
      rfl

theorem load_at {front : Bytes} {a : UInt8} {back : Bytes} {i : Int} (place : i = front.length) :
    load (front ++ a :: back) i = some a := by
  rw [load, if_pos (by omega), show i.toNat = front.length by omega, List.getElem?_append_right (Nat.le_refl _),
    Nat.sub_self, List.getElem?_cons_zero]

theorem store_at {front : Bytes} {a : UInt8} {back : Bytes} {i : Int} (b : UInt8) (place : i = front.length) :
    ScratchArray.store (front ++ a :: back) i b = some (front ++ b :: back) := by
  rw [place, ScratchArray.store_inside (by rw [List.length_append, List.length_cons]; omega),
    List.set_append_right _ _ (Nat.le_refl _), Nat.sub_self, List.set_cons_zero]

/-- The text is moved up by the quotes left, from its end. -/
theorem escapeLoop_eq (front text : Bytes) {gap : Bytes} (col : text.count Json.quote = gap.length)
    (room : gap ≠ []) (done : Bytes) {fuel : Nat} (enough : text.length < fuel) :
    escapeLoop front.length fuel (front.length + text.length + gap.length - 1 : Int) gap.length
      (front ++ text ++ gap ++ done) = some (front ++ escape text ++ done) := by
  induction text using List.reverseRecOn generalizing gap done fuel with
  | nil =>
      rw [List.count_nil] at col
      exact absurd (List.eq_nil_of_length_eq_zero col.symm) room
  | append_singleton text a ih =>
      obtain ⟨fuel, rfl⟩ : ∃ k, fuel = k + 1 := ⟨fuel - 1, by omega⟩
      rw [List.length_append, List.length_singleton] at enough
      obtain ⟨behind, x, rfl⟩ : ∃ behind x, gap = behind ++ [x] :=
        ⟨gap.dropLast, gap.getLast room, (List.dropLast_append_getLast room).symm⟩
      -- the byte is copied to the end of the gap
      have read : load (front ++ (text ++ [a]) ++ (behind ++ [x]) ++ done)
          ((front.length + (text ++ [a]).length + (behind ++ [x]).length - 1 : Int) - (behind ++ [x]).length) = some a := by
        rw [show front ++ (text ++ [a]) ++ (behind ++ [x]) ++ done = (front ++ text) ++ a :: (behind ++ x :: done) by simp]
        exact load_at (by simp; omega)
      have copied : ScratchArray.store (front ++ (text ++ [a]) ++ (behind ++ [x]) ++ done)
          (front.length + (text ++ [a]).length + (behind ++ [x]).length - 1 : Int) a =
          some (front ++ text ++ (a :: behind) ++ a :: done) := by
        rw [show front ++ (text ++ [a]) ++ (behind ++ [x]) ++ done = (front ++ text ++ a :: behind) ++ x :: done by simp]
        exact store_at a (by simp; omega)
      rw [escapeLoop, if_neg (by simp; omega), read, Option.bind_eq_bind, Option.bind_some, copied,
        Option.bind_eq_bind, Option.bind_some]
      rw [List.count_append, List.length_append, List.length_singleton] at col
      have whole : escape (text ++ [a]) = escape text ++ if a = Json.quote then [Json.backslash, Json.quote] else [a] := by
        rw [escape, List.flatMap_append, List.flatMap_singleton]
        rfl
      by_cases isQuote : a = Json.quote
      · obtain ⟨front', z, moved⟩ : ∃ front' z, a :: behind = front' ++ [z] :=
          ⟨_, _, (List.dropLast_append_getLast (List.cons_ne_nil a behind)).symm⟩
        have length : front'.length = behind.length := by
          have both := congrArg List.length moved
          simp only [List.length_cons, List.length_append, List.length_nil] at both
          omega
        have marked : ScratchArray.store (front ++ text ++ (a :: behind) ++ a :: done)
            ((front.length + (text ++ [a]).length + (behind ++ [x]).length - 1 : Int) - 1) Json.backslash =
            some (front ++ text ++ front' ++ Json.backslash :: a :: done) := by
          rw [moved, show front ++ text ++ (front' ++ [z]) ++ a :: done = (front ++ text ++ front') ++ z :: a :: done by simp]
          exact store_at _ (by simp; omega)
        have counted : text.count Json.quote = front'.length := by
          rw [isQuote, List.count_singleton_self] at col
          omega
        have colEq : (behind ++ [x]).length - 1 = front'.length := by
          rw [List.length_append, List.length_singleton, length]
          omega
        rw [if_pos isQuote, marked, Option.bind_some, colEq, whole, if_pos isQuote]
        by_cases last : front'.length = 0
        · rw [if_pos last, List.eq_nil_of_length_eq_zero last, escape_none (counted.trans last), isQuote]
          simp
        · rw [if_neg last]
          have later := ih counted (fun empty => last (congrArg List.length empty)) (Json.backslash :: a :: done)
            (show text.length < fuel by omega)
          have place : (front.length + (text ++ [a]).length + (behind ++ [x]).length - 1 - 2 : Int) =
              front.length + text.length + front'.length - 1 := by
            simp only [List.length_append, List.length_singleton]
            omega
          rw [place, later, isQuote]
          simp
      · have counted : text.count Json.quote = (a :: behind).length := by
          rw [List.count_singleton, if_neg (by simpa using isQuote)] at col
          rw [List.length_cons]
          omega
        have later := ih counted (List.cons_ne_nil a behind) (a :: done) (show text.length < fuel by omega)
        have place : (front.length + (text ++ [a]).length + (behind ++ [x]).length - 1 - 1 : Int) =
            front.length + text.length + (a :: behind).length - 1 := by
          simp only [List.length_append, List.length_cons, List.length_nil]
          omega
        have colEq : (behind ++ [x]).length = (a :: behind).length := by
          rw [List.length_append, List.length_singleton, List.length_cons]
        rw [if_neg isQuote, whole, if_neg isQuote, place, colEq, later]
        simp

theorem escapeAt_eq (garbage : Nat → UInt8) (front text : Bytes) :
    escapeAt garbage front.length (front ++ text) = some (front ++ escape text) := by
  rw [escapeAt, List.drop_left]
  by_cases nothing : text.count Json.quote = 0
  · rw [if_pos nothing, escape_none nothing]
  · rw [if_neg nothing]
    obtain ⟨gap, gapEq⟩ : ∃ gap : Bytes, ((List.range (text.count Json.quote)).map fun k =>
      garbage ((front ++ text).length + k)) = gap := ⟨_, rfl⟩
    have length : text.count Json.quote = gap.length := by
      rw [← gapEq, List.length_map, List.length_range]
    have moved := escapeLoop_eq front text length (fun empty => nothing (length.trans (congrArg List.length empty))) []
      (show text.length < (front ++ text ++ gap).length + 1 by simp; omega)
    have place : ((front ++ text ++ gap).length - 1 : Int) = front.length + text.length + gap.length - 1 := by
      rw [List.length_append, List.length_append]
      omega
    rw [List.append_nil, List.append_nil] at moved
    rw [gapEq]
    simp only
    rw [place, length]
    exact moved

example : escapeAt (fun _ => 0) 2 (ascii "\"-a\"b\"") = some (ascii "\"-a\\\"b\\\"") := by decide

/-! ### The body -/

/-- The entries of workers in the deques of a queue. -/
def workerEntries (s : Server) (line : QueueLine) : List ConnId :=
  (line.queue.take s.threads).flatMap fun queue => queue.workers

/-- The ids of the workers of a queue. -/
def workerIds (s : Server) (line : QueueLine) : List Bytes :=
  (workerEntries s line).map fun w => (s.conns w).http.connectionId

def clientCount (s : Server) (line : QueueLine) : Nat :=
  ((line.queue.take s.threads).flatMap fun queue => queue.clients).length

/-- `w->connection_id`; a deleted connection is not to be read. -/
def idAt (s : Server) (w : ConnId) : Option Bytes :=
  if (s.conns w).freed then none else some (s.conns w).http.connectionId

section Building

variable (garbage : Nat → UInt8) (s : Server)

/-- The loop over the workers. -/
def addIds : Bool → List ConnId → Bytes → Option Bytes
  | _, [], res => some res
  | first, w :: rest, res => do
      let res := res ++ ascii (if first then "\"" else ",\"")
      let id ← idAt s w
      let res ← if id.isEmpty then some res else escapeAt garbage res.length (res ++ id)
      addIds false rest (res ++ ascii "\"")

def addLine (res : Bytes) (line : QueueLine) : Option Bytes := do
  let res := res ++ ascii "\"" ++ line.name ++ ascii "\":\x7b\"last_worker\":" ++ addNumber (i64 line.lastWorker) ++
    ascii ",\"worker_ids\":["
  let res ← addIds garbage s true (workerEntries s line) res
  let res := res ++ ascii "],\"workers\":" ++ addNumber (i32 (workerEntries s line).length) ++
    ascii ",\"clients\":" ++ addNumber (i32 (clientCount s line))
  let res ←
    if line.info.isEmpty then some res
    else do
      let res := res ++ ascii ",\"info\":\""
      let res ← escapeAt garbage res.length (res ++ line.info)
      some (res ++ ascii "\"")
  return res ++ ascii "\x7d,\n"

/-- `Connect::send_details` with its buffer. -/
def sendDetails (now : Nat) : Option Bytes := do
  let res := ascii "\x7b\"$info\":\x7b\"version\":\"" ++ s.version ++
    ascii "\",\"uptime\":" ++ addNumber (i64 (now - s.startTime)) ++
    ascii ",\"connect\":" ++ addNumber (i64 s.stats.connect) ++
    ascii ",\"request\":" ++ addNumber (i64 s.stats.request) ++
    ascii ",\"call\":" ++ addNumber (i64 s.stats.call) ++
    ascii ",\"result\":" ++ addNumber (i64 s.stats.result) ++
    ascii ",\"recv\":" ++ addNumber (i64 s.stats.recv) ++
    ascii ",\"send\":" ++ addNumber (i64 s.stats.send) ++
    ascii ",\"io_event\":" ++ addNumber (i64 s.stats.ioevent) ++ ascii "\x7d,\n"
  let res ← (liveLines s).foldlM (addLine garbage s) res
  return res.take (res.length - 2) ++ ascii "\x7d"

theorem joined_cons (separator text : Bytes) (rest : List Bytes) : joined separator (text :: rest) =
    text ++ (if rest.isEmpty then [] else separator) ++ joined separator rest := by
  cases rest with
  | nil => simp [joined]
  | cons second rest =>
      rw [joined]
      · simp
      · exact List.cons_ne_nil _ _

theorem addIds_eq (first : Bool) (workers : List ConnId) (res : Bytes) : addIds garbage s first workers res =
    if s.Kept workers then
      some (res ++ (if first || workers.isEmpty then [] else ascii ",") ++
        joined (ascii ",") (workers.map fun w => ascii "\"" ++ escape (s.conns w).http.connectionId ++ ascii "\""))
    else none := by
  induction workers generalizing first res with
  | nil => simp [addIds, joined, Server.Kept]
  | cons w rest ih =>
      have opened : ascii (if first then "\"" else ",\"") = (if first then [] else ascii ",") ++ ascii "\"" := by
        cases first <;> decide
      cases freed : (s.conns w).freed with
      | true =>
          have gone : ¬ s.Kept (w :: rest) := fun kept => by
            rw [kept w List.mem_cons_self] at freed
            cases freed
          rw [addIds, idAt, freed, if_pos rfl, if_neg gone]
          rfl
      | false =>
          have keeps : s.Kept (w :: rest) ↔ s.Kept rest := by
            rw [Server.Kept, List.forall_mem_cons]
            exact and_iff_right freed
          have added : addIds garbage s first (w :: rest) res = addIds garbage s false rest
              (res ++ ascii (if first then "\"" else ",\"") ++ escape (s.conns w).http.connectionId ++ ascii "\"") := by
            rw [addIds, idAt, freed, if_neg Bool.false_ne_true]
            by_cases empty : (s.conns w).http.connectionId.isEmpty = true
            · simp only [Option.bind_eq_bind, Option.bind_some, if_pos empty]
              rw [List.isEmpty_iff.mp empty, escape_none rfl, List.append_nil]
            · simp only [Option.bind_eq_bind, Option.bind_some, if_neg empty]
              rw [escapeAt_eq]
              rfl
          rw [added, ih, opened, List.map_cons, joined_cons]
          simp only [keeps]
          cases first <;> simp [List.append_assoc]

theorem addLine_eq (res : Bytes) (line : QueueLine) : addLine garbage s res line =
    if s.Kept (workerEntries s line) then some (res ++ lineDetails s line) else none := by
  unfold addLine lineDetails
  simp only [addIds_eq]
  by_cases kept : s.Kept (workerEntries s line)
  · rw [if_pos kept, if_pos kept]
    simp only [Option.bind_eq_bind, Option.bind_some, escapeAt_eq]
    by_cases empty : line.info.isEmpty = true
    · simp only [if_pos empty, Option.pure_def, workerEntries, clientCount]
      simp [List.append_assoc]
    · simp only [if_neg empty, Option.pure_def, workerEntries, clientCount]
      simp [List.append_assoc]
  · rw [if_neg kept, if_neg kept]
    rfl

theorem addLines_eq (lines : List QueueLine) (res : Bytes) : lines.foldlM (addLine garbage s) res =
    if s.Kept (lines.flatMap (workerEntries s)) then some (res ++ lines.flatMap (lineDetails s)) else none := by
  induction lines generalizing res with
  | nil => simp [Server.Kept]
  | cons line lines ih =>
      have keeps : s.Kept (workerEntries s line ++ lines.flatMap (workerEntries s)) ↔
          s.Kept (workerEntries s line) ∧ s.Kept (lines.flatMap (workerEntries s)) := List.forall_mem_append
      rw [List.foldlM_cons, addLine_eq, List.flatMap_cons, List.flatMap_cons]
      by_cases kept : s.Kept (workerEntries s line)
      · rw [if_pos kept, Option.bind_eq_bind, Option.bind_some, ih]
        simp only [keeps, kept, true_and, List.append_assoc]
      · rw [if_neg kept, if_neg fun whole => kept (keeps.mp whole).1]
        rfl

/-- The body is the one that is answered, unless an entry is a deleted connection. -/
theorem sendDetails_eq (now : Nat) : sendDetails garbage s now =
    if s.Kept (listedWorkers s) then some (details s now) else none := by
  have listed : listedWorkers s = (liveLines s).flatMap (workerEntries s) := rfl
  unfold sendDetails details
  simp only [addLines_eq, listed]
  by_cases kept : s.Kept ((liveLines s).flatMap (workerEntries s))
  · rw [if_pos kept, if_pos kept]
    rfl
  · rw [if_neg kept, if_neg kept]
    rfl

theorem useAll_outcome (workers : List ConnId) : (useAll workers).outcome Action.apply s =
    if s.Kept workers then .returned s () else .fault := by
  induction workers with
  | nil => rfl
  | cons w rest ih =>
      rw [useAll, use_outcome, ih]
      cases freed : (s.conns w).freed with
      | true =>
          have gone : ¬ s.Kept (w :: rest) := fun kept => by
            rw [kept w List.mem_cons_self] at freed
            cases freed
          rw [if_pos rfl, if_neg gone]
      | false =>
          have keeps : s.Kept (w :: rest) ↔ s.Kept rest := by
            rw [Server.Kept, List.forall_mem_cons]
            exact and_iff_right freed
          rw [if_neg Bool.false_ne_true]
          simp only [keeps]

theorem answerDetails_outcome (env : Env) (c : ConnId) : (answerDetails env c).outcome Action.apply s =
    ((sendDetails garbage s (env.now s.tick)).map fun body =>
      (Action.respond c ⟨"200 OK", [], .bytes body⟩).apply s).getD .fault := by
  rw [answerDetails, get_outcome, Program.outcome_bind, useAll_outcome, sendDetails_eq]
  by_cases kept : s.Kept (listedWorkers s)
  · rw [if_pos kept, if_pos kept]
    exact Program.outcome_perform _
  · rw [if_neg kept, if_neg kept]
    rfl

end Building

/-! ### Numbers -/

theorem isNumber_negative (digits : Bytes) : isNumber (45 :: digits) = isUnsigned digits := rfl

theorem isNumber_positive {a : UInt8} {rest : Bytes} (unsigned : a ≠ 45) :
    isNumber (a :: rest) = isUnsigned (a :: rest) := by
  rw [isNumber]
  exact fun digits same => unsigned (List.cons.inj same).1

/-- The decimal text of a number is a number of JSON. -/
theorem decimalText_scalar (n : Int) : (∀ a ∈ decimalText n, isWord a = true) ∧ isScalar (decimalText n) = true := by
  rw [decimalText]
  by_cases zero : n = 0
  · rw [if_pos zero]
    exact ⟨forall_of_all (by decide), by decide⟩
  · rw [if_neg zero]
    obtain ⟨d, rest, split, positive, small⟩ := digits_front (Int.natAbs_ne_zero.mpr zero)
    have digits : ∀ a ∈ ((Nat.digits 10 n.natAbs).map decimalDigit).reverse, (digit? a).isSome = true := by
      intro a member
      obtain ⟨e, inside, rfl⟩ := List.mem_map.mp (List.mem_reverse.mp member)
      rw [digit?_decimalDigit (Nat.digits_lt_base (by decide) inside)]
      rfl
    have words : ∀ a : UInt8, (digit? a).isSome = true → isWord a = true := by
      intro a digit
      rw [isWord, digit]
      simp
    have unsigned : isUnsigned ((Nat.digits 10 n.natAbs).map decimalDigit).reverse = true := by
      rw [split] at digits ⊢
      have first := (decimalDigit_ne small).2 positive
      rw [isUnsigned, List.takeWhile_eq_self_iff.mpr digits, List.dropWhile_eq_nil_iff.mpr digits]
      simp [isFraction, isExponent, first]
    by_cases negative : n < 0
    · rw [if_pos negative, show ascii "-" = [45] by decide, List.singleton_append]
      constructor
      · exact List.forall_mem_cons.mpr ⟨by decide, fun a member => words a (digits a member)⟩
      · rw [isScalar, isNumber_negative, unsigned, Bool.or_true]
    · rw [if_neg negative, List.nil_append]
      refine ⟨fun a member => words a (digits a member), ?_⟩
      rw [split] at unsigned ⊢
      rw [isScalar, isNumber_positive (decimalDigit_ne small).1, unsigned, Bool.or_true]

/-- A number as it is printed, where another one is meant. -/
def numberMark (printed value : Int) : Mark := .scalar (addNumber printed) (decimalText value)

theorem numberMark_fits {printed : Int} (low : -2 ^ 63 ≤ printed) (high : printed < 2 ^ 63) (value : Int)
    {a : UInt8} {rest : List Mark} : (numberMark printed value).Fits (.punctuation a :: rest) := by
  refine ⟨⟨a, rest, rfl⟩, ?_⟩
  by_cases least : printed = -2 ^ 63
  · subst least
    exact ⟨⟨45, (addNumber (-2 ^ 63)).drop 1, by decide, by decide⟩, Or.inr (by decide)⟩
  · rw [addNumber_decimal (by omega) high]
    obtain ⟨words, scalar⟩ := decimalText_scalar printed
    refine ⟨?_, Or.inl words⟩
    cases text : decimalText printed with
    | nil =>
        rw [text] at scalar
        exact absurd scalar (by decide)
    | cons b more =>
        rw [text] at words
        exact ⟨b, more, rfl, words b List.mem_cons_self⟩

theorem numberMark_reads {printed : Int} (low : -2 ^ 63 ≤ printed) (high : printed < 2 ^ 63) (value : Int) :
    (numberMark printed value).Reads ↔ printed = value ∧ printed ≠ -2 ^ 63 := by
  by_cases least : printed = -2 ^ 63
  · subst least
    refine ⟨fun reads => ?_, fun both => absurd rfl both.2⟩
    have words : ∀ a ∈ addNumber (-2 ^ 63), isWord a = true := reads.2.1
    exact absurd words (by decide)
  · obtain ⟨words, scalar⟩ := decimalText_scalar printed
    rw [numberMark, Mark.Reads, addNumber_decimal (by omega) high]
    exact ⟨fun reads => ⟨decimalText_injective reads.1, least⟩, fun both => ⟨by rw [both.1], words, scalar⟩⟩

/-! ### The value -/

def number (n : Int) : Value := .scalar (decimalText n)

/-- What `$info` counts, in its order and in 64 bits. -/
def infoNumbers (s : Server) (now : Nat) : List (Bytes × Int) :=
  [(ascii "uptime", i64 (now - s.startTime)), (ascii "connect", i64 s.stats.connect),
    (ascii "request", i64 s.stats.request), (ascii "call", i64 s.stats.call), (ascii "result", i64 s.stats.result),
    (ascii "recv", i64 s.stats.recv), (ascii "send", i64 s.stats.send), (ascii "io_event", i64 s.stats.ioevent)]

/-- What is said of a queue. -/
def lineValue (s : Server) (line : QueueLine) : Bytes × Value :=
  (line.name, .object ([(ascii "last_worker", number (i64 line.lastWorker)),
    (ascii "worker_ids", .array ((workerIds s line).map .string)),
    (ascii "workers", number (workerIds s line).length),
    (ascii "clients", number (clientCount s line))] ++
    if line.info.isEmpty then [] else [(ascii "info", .string line.info)]))

def infoValue (s : Server) (now : Nat) : Bytes × Value :=
  (ascii "$info", .object ((ascii "version", .string s.version) ::
    (infoNumbers s now).map fun entry => (entry.1, number entry.2)))

/-- What the body is meant to say. -/
def detailsValue (s : Server) (now : Nat) : Value :=
  .object (((infoValue s now).1, (infoValue s now).2) :: (liveLines s).map (lineValue s))

/-! ### The marks -/

def keyMarks (key : Bytes) : List Mark := [.string false key, .punctuation colon]

def idMarks : List Bytes → List Mark
  | [] => []
  | [id] => [.string true id]
  | id :: rest => .string true id :: .punctuation Json.comma :: idMarks rest

def infoMarks (s : Server) (now : Nat) : List Mark :=
  keyMarks (ascii "$info") ++ [.punctuation Json.openBrace] ++ keyMarks (ascii "version") ++
    [.string false s.version] ++ ((infoNumbers s now).flatMap fun entry =>
      [.punctuation Json.comma] ++ keyMarks entry.1 ++ [numberMark entry.2 entry.2]) ++
    [.punctuation Json.closeBrace]

def lineMarks (s : Server) (line : QueueLine) : List Mark :=
  keyMarks line.name ++ [.punctuation Json.openBrace] ++ keyMarks (ascii "last_worker") ++
    [numberMark (i64 line.lastWorker) (i64 line.lastWorker), .punctuation Json.comma] ++ keyMarks (ascii "worker_ids") ++
    [.punctuation Json.openBracket] ++ idMarks (workerIds s line) ++
    [.punctuation Json.closeBracket, .punctuation Json.comma] ++ keyMarks (ascii "workers") ++
    [numberMark (i32 (workerIds s line).length) (workerIds s line).length, .punctuation Json.comma] ++
    keyMarks (ascii "clients") ++ [numberMark (i32 (clientCount s line)) (clientCount s line)] ++
    (if line.info.isEmpty then []
      else [.punctuation Json.comma] ++ keyMarks (ascii "info") ++ [.string true line.info]) ++
    [.punctuation Json.closeBrace]

def linesMarks (s : Server) (lines : List QueueLine) : List Mark :=
  lines.flatMap fun line => .punctuation Json.comma :: .gap newline :: lineMarks s line

def detailsMarks (s : Server) (now : Nat) : List Mark :=
  .punctuation Json.openBrace :: infoMarks s now ++ linesMarks s (liveLines s) ++ [.punctuation Json.closeBrace]

theorem written_false (text : Bytes) : written false text = text := by
  rw [written]
  simp

theorem written_true (text : Bytes) : written true text = escape text := by
  rw [written, escape]
  simp

theorem keyMarks_bytes (key : Bytes) : (keyMarks key).flatMap Mark.bytes = Json.quote :: key ++ [Json.quote, colon] := by
  simp [keyMarks, Mark.bytes, written_false]

theorem idMarks_bytes (ids : List Bytes) : (idMarks ids).flatMap Mark.bytes =
    joined (ascii ",") (ids.map fun id => ascii "\"" ++ escape id ++ ascii "\"") := by
  have quoted : ascii "\"" = [Json.quote] := by decide
  have separated : ascii "," = [Json.comma] := by decide
  induction ids with
  | nil => rfl
  | cons id rest ih =>
      rw [List.map_cons, joined_cons, ← ih, quoted, separated]
      cases rest with
      | nil => simp [idMarks, Mark.bytes, written_true]
      | cons second rest => simp [idMarks, Mark.bytes, written_true]

theorem lineMarks_bytes (s : Server) (line : QueueLine) :
    lineDetails s line = (lineMarks s line).flatMap Mark.bytes ++ ascii ",\n" := by
  have opened : ascii "\"" = [Json.quote] := by decide
  have last : ascii "\":\x7b\"last_worker\":" =
    [Json.quote, colon, Json.openBrace, Json.quote] ++ ascii "last_worker" ++ [Json.quote, colon] := by decide
  have ids : ascii ",\"worker_ids\":[" =
    [Json.comma, Json.quote] ++ ascii "worker_ids" ++ [Json.quote, colon, Json.openBracket] := by decide
  have workers : ascii "],\"workers\":" =
    [Json.closeBracket, Json.comma, Json.quote] ++ ascii "workers" ++ [Json.quote, colon] := by decide
  have clients : ascii ",\"clients\":" = [Json.comma, Json.quote] ++ ascii "clients" ++ [Json.quote, colon] := by
    decide
  have info : ascii ",\"info\":\"" = [Json.comma, Json.quote] ++ ascii "info" ++ [Json.quote, colon, Json.quote] := by
    decide
  have closed : ascii "\x7d,\n" = Json.closeBrace :: ascii ",\n" := by decide
  have listed : (idMarks (workerIds s line)).flatMap Mark.bytes =
      joined (ascii ",") (((line.queue.take s.threads).flatMap fun queue => queue.workers).map fun w =>
        [Json.quote] ++ escape (s.conns w).http.connectionId ++ [Json.quote]) := by
    rw [idMarks_bytes, opened, workerIds, List.map_map]
    rfl
  have count : ((line.queue.take s.threads).flatMap fun queue => queue.workers).length = (workerIds s line).length :=
    (List.length_map _).symm
  unfold lineDetails lineMarks
  simp only [last, ids, workers, clients, info, closed, opened, count, clientCount]
  rw [← listed]
  by_cases empty : line.info.isEmpty = true
  · simp only [if_pos empty]
    simp -implicitDefEqProofs [keyMarks_bytes, Mark.bytes, numberMark]
  · simp only [if_neg empty]
    simp -implicitDefEqProofs [keyMarks_bytes, Mark.bytes, numberMark, written_true]

/-- The end of every line is the beginning of the next. -/
theorem flatMap_turn {α : Type} (separator : Bytes) (f : α → Bytes) (items : List α) :
    separator ++ items.flatMap (fun item => f item ++ separator) =
      items.flatMap (fun item => separator ++ f item) ++ separator := by
  induction items with
  | nil => simp
  | cons item items ih => simp [ih]

theorem infoMarks_bytes (s : Server) (now : Nat) : (infoMarks s now).flatMap Mark.bytes ++ ascii ",\n" =
    ascii "\"$info\":\x7b\"version\":\"" ++ s.version ++
    ascii "\",\"uptime\":" ++ addNumber (i64 (now - s.startTime)) ++
    ascii ",\"connect\":" ++ addNumber (i64 s.stats.connect) ++
    ascii ",\"request\":" ++ addNumber (i64 s.stats.request) ++
    ascii ",\"call\":" ++ addNumber (i64 s.stats.call) ++
    ascii ",\"result\":" ++ addNumber (i64 s.stats.result) ++
    ascii ",\"recv\":" ++ addNumber (i64 s.stats.recv) ++
    ascii ",\"send\":" ++ addNumber (i64 s.stats.send) ++
    ascii ",\"io_event\":" ++ addNumber (i64 s.stats.ioevent) ++ ascii "\x7d,\n" := by
  have front : ascii "\"$info\":\x7b\"version\":\"" =
    [Json.quote] ++ ascii "$info" ++ [Json.quote, colon, Json.openBrace, Json.quote] ++ ascii "version" ++
      [Json.quote, colon, Json.quote] := by decide
  have uptime : ascii "\",\"uptime\":" =
    [Json.quote, Json.comma, Json.quote] ++ ascii "uptime" ++ [Json.quote, colon] := by decide
  have connect : ascii ",\"connect\":" = [Json.comma, Json.quote] ++ ascii "connect" ++ [Json.quote, colon] := by decide
  have request : ascii ",\"request\":" = [Json.comma, Json.quote] ++ ascii "request" ++ [Json.quote, colon] := by decide
  have call : ascii ",\"call\":" = [Json.comma, Json.quote] ++ ascii "call" ++ [Json.quote, colon] := by decide
  have result : ascii ",\"result\":" = [Json.comma, Json.quote] ++ ascii "result" ++ [Json.quote, colon] := by decide
  have recv : ascii ",\"recv\":" = [Json.comma, Json.quote] ++ ascii "recv" ++ [Json.quote, colon] := by decide
  have send : ascii ",\"send\":" = [Json.comma, Json.quote] ++ ascii "send" ++ [Json.quote, colon] := by decide
  have event : ascii ",\"io_event\":" = [Json.comma, Json.quote] ++ ascii "io_event" ++ [Json.quote, colon] := by decide
  have closed : ascii "\x7d,\n" = Json.closeBrace :: ascii ",\n" := by decide
  unfold infoMarks infoNumbers
  simp only [front, uptime, connect, request, call, result, recv, send, event, closed]
  simp -implicitDefEqProofs [keyMarks_bytes, Mark.bytes, numberMark, written_false]

theorem detailsMarks_bytes (s : Server) (now : Nat) : details s now = (detailsMarks s now).flatMap Mark.bytes := by
  have front : ascii "\x7b\"$info\":\x7b\"version\":\"" =
    Json.openBrace :: ascii "\"$info\":\x7b\"version\":\"" := by decide
  have back : ascii "\x7d" = [Json.closeBrace] := by decide
  have ends : ascii ",\n" = [Json.comma, newline] := by decide
  have parts : details s now = (fun all : Bytes => all.take (all.length - 2) ++ ascii "\x7d")
      (Json.openBrace :: ((infoMarks s now).flatMap Mark.bytes ++ ascii ",\n") ++
        (liveLines s).flatMap (lineDetails s)) := by
    rw [infoMarks_bytes, details, front]
    simp only [List.cons_append, List.append_assoc]
  have lines : (liveLines s).flatMap (lineDetails s) =
      (liveLines s).flatMap fun line => (lineMarks s line).flatMap Mark.bytes ++ ascii ",\n" :=
    congrArg (fun f => (liveLines s).flatMap f) (funext fun line => lineMarks_bytes s line)
  have turned := flatMap_turn (ascii ",\n") (fun line => (lineMarks s line).flatMap Mark.bytes) (liveLines s)
  have cut : ∀ text : Bytes, (text ++ ascii ",\n").take ((text ++ ascii ",\n").length - 2) = text := by
    intro text
    rw [List.length_append, show (ascii ",\n").length = 2 by decide, Nat.add_sub_cancel, List.take_left]
  rw [parts, lines, List.cons_append, List.append_assoc, turned, ← List.append_assoc, ← List.cons_append]
  simp only [cut]
  rw [detailsMarks, linesMarks, back, ends]
  simp only [List.flatMap_append, List.flatMap_assoc, List.flatMap_cons, List.flatMap_nil, Mark.bytes,
    List.cons_append, List.nil_append, List.append_nil]

/-! ### Tokens -/

theorem idMarks_tokens (ids : List Bytes) : (idMarks ids).flatMap Mark.tokens = elementsTokens (ids.map .string) := by
  induction ids with
  | nil => rfl
  | cons id rest ih =>
      cases rest with
      | nil => rfl
      | cons second rest =>
          rw [List.map_cons, elementsTokens_cons _ (by simp), ← ih]
          rfl

theorem lineMarks_tokens (s : Server) (line : QueueLine) : (lineMarks s line).flatMap Mark.tokens =
    .string (lineValue s line).1 :: .punctuation colon :: (lineValue s line).2.tokens := by
  unfold lineMarks lineValue
  by_cases empty : line.info.isEmpty = true
  · simp only [if_pos empty]
    simp [keyMarks, Mark.tokens, numberMark, number, Value.tokens, membersTokens, idMarks_tokens]
  · simp only [if_neg empty]
    simp [keyMarks, Mark.tokens, numberMark, number, Value.tokens, membersTokens, idMarks_tokens]

theorem infoMarks_tokens (s : Server) (now : Nat) : (infoMarks s now).flatMap Mark.tokens =
    .string (infoValue s now).1 :: .punctuation colon :: (infoValue s now).2.tokens := by
  unfold infoMarks infoValue
  simp [keyMarks, Mark.tokens, numberMark, number, Value.tokens, membersTokens_flat, List.flatMap_assoc,
    List.flatMap_map]

theorem detailsMarks_tokens (s : Server) (now : Nat) :
    (detailsMarks s now).flatMap Mark.tokens = (detailsValue s now).tokens := by
  rw [detailsMarks, linesMarks, detailsValue, Value.tokens, membersTokens_flat, List.flatMap_map]
  simp only [List.flatMap_append, List.flatMap_assoc, infoMarks_tokens, lineMarks_tokens, List.flatMap_cons,
    List.flatMap_nil, Mark.tokens, List.cons_append, List.nil_append, List.append_nil]

/-! ### Places -/

theorem i64_range (n : Int) : -2 ^ 63 ≤ i64 n ∧ i64 n < 2 ^ 63 := by
  have low := Int.le_bmod (x := n) (m := 2 ^ 64) (by decide)
  have high := Int.bmod_lt (x := n) (m := 2 ^ 64) (by decide)
  rw [i64]
  omega

theorem i32_range (n : Int) : -2 ^ 31 ≤ i32 n ∧ i32 n < 2 ^ 31 := by
  have low := Int.le_bmod (x := n) (m := 2 ^ 32) (by decide)
  have high := Int.bmod_lt (x := n) (m := 2 ^ 32) (by decide)
  rw [i32]
  omega

section Places

variable {rest : List Mark}

theorem placed_mark {a : UInt8} (punctuation : isPunctuation a = true) (placed : Mark.Placed rest) :
    Mark.Placed (.punctuation a :: rest) := ⟨punctuation, placed⟩

theorem placed_gap {a : UInt8} (space : JsonText.isSpace a = true) (placed : Mark.Placed rest) :
    Mark.Placed (.gap a :: rest) := ⟨space, placed⟩

/-- A string does not go on over the end of a line. -/
theorem closes_line (rest : List Mark) : Mark.Closes (.punctuation Json.comma :: .gap newline :: rest) :=
  show newline.toNat < 32 by decide

theorem placed_key (key : Bytes) (front : Readable false key ∨ Mark.Closes rest) (placed : Mark.Placed rest) :
    Mark.Placed (keyMarks key ++ rest) :=
  ⟨front.imp_right fun closes => ⟨colon, rest, rfl, closes⟩, placed_mark (by decide) placed⟩

theorem placed_number {printed : Int} (value : Int) {a : UInt8} (low : -2 ^ 63 ≤ printed) (high : printed < 2 ^ 63)
    (placed : Mark.Placed (.punctuation a :: rest)) : Mark.Placed (numberMark printed value :: .punctuation a :: rest) :=
  ⟨numberMark_fits low high value, placed⟩

theorem placed_i64 (n value : Int) {a : UInt8} (placed : Mark.Placed (.punctuation a :: rest)) :
    Mark.Placed (numberMark (i64 n) value :: .punctuation a :: rest) :=
  placed_number value (i64_range n).1 (i64_range n).2 placed

theorem placed_i32 (n value : Int) {a : UInt8} (placed : Mark.Placed (.punctuation a :: rest)) :
    Mark.Placed (numberMark (i32 n) value :: .punctuation a :: rest) := by
  have range := i32_range n
  exact placed_number value (by omega) (by omega) placed

theorem placed_ids (ids : List Bytes) (closes : Mark.Closes rest) (placed : Mark.Placed rest) :
    Mark.Placed (idMarks ids ++ .punctuation Json.closeBracket :: rest) := by
  have ending : Mark.Placed (.punctuation Json.closeBracket :: rest) := placed_mark (by decide) placed
  induction ids with
  | nil => exact ending
  | cons id more ih =>
      cases more with
      | nil => exact ⟨Or.inr ⟨_, _, rfl, closes⟩, ending⟩
      | cons second more =>
          have next : Mark.Closes (idMarks (second :: more) ++ .punctuation Json.closeBracket :: rest) := by
            cases more with
            | nil => trivial
            | cons third more => trivial
          exact ⟨Or.inr ⟨_, _, rfl, next⟩, placed_mark (by decide) ih⟩

theorem placed_line (s : Server) (line : QueueLine) (closes : Mark.Closes rest) (placed : Mark.Placed rest) :
    Mark.Placed (lineMarks s line ++ rest) := by
  have ending : Mark.Placed (.punctuation Json.closeBrace :: rest) := placed_mark (by decide) placed
  have counts : Mark.Placed (numberMark (i32 (clientCount s line)) (clientCount s line) ::
      ((if line.info.isEmpty then []
        else [.punctuation Json.comma] ++ keyMarks (ascii "info") ++ [.string true line.info]) ++
        .punctuation Json.closeBrace :: rest)) := by
    by_cases empty : line.info.isEmpty = true
    · rw [if_pos empty]
      exact placed_i32 _ _ ending
    · rw [if_neg empty, List.append_assoc, List.append_assoc]
      have info : Mark.Placed (.string true line.info :: .punctuation Json.closeBrace :: rest) :=
        ⟨Or.inr ⟨_, _, rfl, closes⟩, ending⟩
      exact placed_i32 _ _ (placed_mark (by decide) (placed_key _ (Or.inl (by decide)) info))
  have workers := placed_i32 (workerIds s line).length (workerIds s line).length
    (placed_mark (show isPunctuation Json.comma = true by decide)
      (placed_key (ascii "clients") (Or.inl (by decide)) counts))
  have named := placed_mark (show isPunctuation Json.comma = true by decide)
    (placed_key (ascii "workers") (Or.inl (by decide)) workers)
  have ids := placed_ids (workerIds s line) (by exact trivial) named
  have last := placed_i64 line.lastWorker (i64 line.lastWorker)
    (placed_mark (show isPunctuation Json.comma = true by decide)
      (placed_key (ascii "worker_ids") (Or.inl (by decide))
        (placed_mark (show isPunctuation Json.openBracket = true by decide) ids)))
  have opened := placed_mark (show isPunctuation Json.openBrace = true by decide)
    (placed_key (ascii "last_worker") (Or.inl (by decide)) last)
  have whole := placed_key line.name (Or.inr (by exact trivial)) opened
  simpa [lineMarks] using whole

theorem placed_numbers {entries : List (Bytes × Int)} (keys : ∀ entry ∈ entries, Readable false entry.1)
    (ranges : ∀ entry ∈ entries, -2 ^ 63 ≤ entry.2 ∧ entry.2 < 2 ^ 63)
    (placed : Mark.Placed (.punctuation Json.closeBrace :: rest)) :
    Mark.Placed ((entries.flatMap fun entry =>
      [.punctuation Json.comma] ++ keyMarks entry.1 ++ [numberMark entry.2 entry.2]) ++
        .punctuation Json.closeBrace :: rest) := by
  induction entries with
  | nil => exact placed
  | cons entry more ih =>
      have later := ih (fun _ member => keys _ (List.mem_cons_of_mem _ member))
        (fun _ member => ranges _ (List.mem_cons_of_mem _ member))
      have range := ranges entry List.mem_cons_self
      have value : Mark.Placed (numberMark entry.2 entry.2 :: ((more.flatMap fun entry =>
          [.punctuation Json.comma] ++ keyMarks entry.1 ++ [numberMark entry.2 entry.2]) ++
            .punctuation Json.closeBrace :: rest)) := by
        cases more with
        | nil => exact placed_number _ range.1 range.2 later
        | cons second more => exact placed_number _ range.1 range.2 later
      have whole := placed_mark (show isPunctuation Json.comma = true by decide)
        (placed_key _ (Or.inl (keys entry List.mem_cons_self)) value)
      simpa using whole

theorem infoNumbers_keys (s : Server) (now : Nat) : ∀ entry ∈ infoNumbers s now, Readable false entry.1 := by
  unfold infoNumbers
  simp only [List.forall_mem_cons, List.not_mem_nil, false_imp_iff, implies_true, and_true]
  decide

theorem infoNumbers_range (s : Server) (now : Nat) :
    ∀ entry ∈ infoNumbers s now, -2 ^ 63 ≤ entry.2 ∧ entry.2 < 2 ^ 63 := by
  unfold infoNumbers
  simp only [List.forall_mem_cons, List.not_mem_nil, false_imp_iff, implies_true, i64_range, and_self]

theorem placed_info (s : Server) (now : Nat) (placed : Mark.Placed rest) : Mark.Placed (infoMarks s now ++ rest) := by
  have ending : Mark.Placed (.punctuation Json.closeBrace :: rest) := placed_mark (by decide) placed
  have numbers := placed_numbers (infoNumbers_keys s now) (infoNumbers_range s now) ending
  have version : Mark.Placed (.string false s.version :: ((infoNumbers s now).flatMap fun entry =>
      [.punctuation Json.comma] ++ keyMarks entry.1 ++ [numberMark entry.2 entry.2]) ++
        .punctuation Json.closeBrace :: rest) := ⟨Or.inr ⟨_, _, rfl, trivial⟩, numbers⟩
  have whole := placed_key (ascii "$info") (Or.inl (by decide))
    (placed_mark (show isPunctuation Json.openBrace = true by decide)
      (placed_key (ascii "version") (Or.inl (by decide)) version))
  simpa [infoMarks] using whole

end Places

theorem detailsMarks_placed (s : Server) (now : Nat) : Mark.Placed (detailsMarks s now) := by
  have lines : ∀ lines : List QueueLine, Mark.Closes (linesMarks s lines ++ [.punctuation Json.closeBrace]) ∧
      Mark.Placed (linesMarks s lines ++ [.punctuation Json.closeBrace]) := by
    intro lines
    induction lines with
    | nil => exact ⟨trivial, placed_mark (by decide) trivial⟩
    | cons line lines ih =>
        rw [linesMarks, List.flatMap_cons, ← linesMarks, List.append_assoc, List.cons_append, List.cons_append]
        have broken := placed_line s line ih.1 ih.2
        exact ⟨closes_line _, placed_mark (by decide) (placed_gap (by decide) broken)⟩
  rw [detailsMarks, List.append_assoc, List.cons_append]
  exact placed_mark (by decide) (placed_info s now (lines (liveLines s)).2)

/-! ### What is read back -/

/-- No text of the body needs an escape that it does not get. -/
def PlainTexts (s : Server) : Prop :=
  Readable false s.version ∧ ∀ line ∈ liveLines s,
    Readable false line.name ∧ (∀ id ∈ workerIds s line, Readable true id) ∧ Readable true line.info

/-- No number of the body is out of range. -/
def InRange (s : Server) (now : Nat) : Prop :=
  (∀ entry ∈ infoNumbers s now, entry.2 ≠ -2 ^ 63) ∧ ∀ line ∈ liveLines s,
    i64 line.lastWorker ≠ -2 ^ 63 ∧ (workerIds s line).length < 2 ^ 31 ∧ clientCount s line < 2 ^ 31

theorem i32_reads (n : Nat) : (numberMark (i32 n) n).Reads ↔ n < 2 ^ 31 := by
  have range := i32_range n
  rw [numberMark_reads (by omega) (by omega)]
  constructor
  · intro both
    omega
  · intro small
    have same : i32 n = n := by
      rw [i32, Int.bmod_eq_of_le] <;> omega
    omega

theorem i64_reads {printed : Int} (low : -2 ^ 63 ≤ printed) (high : printed < 2 ^ 63) :
    (numberMark printed printed).Reads ↔ printed ≠ -2 ^ 63 := by
  rw [numberMark_reads low high]
  exact and_iff_right rfl

theorem keyMarks_reads (key : Bytes) : (∀ mark ∈ keyMarks key, mark.Reads) ↔ Readable false key := by
  simp [keyMarks]

theorem idMarks_reads (ids : List Bytes) :
    (∀ mark ∈ idMarks ids, mark.Reads) ↔ ∀ id ∈ ids, Readable true id := by
  induction ids with
  | nil => simp [idMarks]
  | cons id more ih =>
      cases more with
      | nil => simp [idMarks]
      | cons second more =>
          have shape : idMarks (id :: second :: more) =
              .string true id :: .punctuation Json.comma :: idMarks (second :: more) := rfl
          rw [shape, List.forall_mem_cons, List.forall_mem_cons, ih]
          simp only [List.forall_mem_cons, Mark.reads_punctuation, Mark.reads_string, true_and]

theorem lineMarks_reads (s : Server) (line : QueueLine) : (∀ mark ∈ lineMarks s line, mark.Reads) ↔
    (Readable false line.name ∧ (∀ id ∈ workerIds s line, Readable true id) ∧ Readable true line.info) ∧
      i64 line.lastWorker ≠ -2 ^ 63 ∧ (workerIds s line).length < 2 ^ 31 ∧ clientCount s line < 2 ^ 31 := by
  have keys : Readable false (ascii "last_worker") ∧ Readable false (ascii "worker_ids") ∧
      Readable false (ascii "workers") ∧ Readable false (ascii "clients") ∧ Readable false (ascii "info") := by decide
  have last := i64_reads (i64_range line.lastWorker).1 (i64_range line.lastWorker).2
  have said : (∀ mark ∈ (if line.info.isEmpty then []
      else [.punctuation Json.comma] ++ keyMarks (ascii "info") ++ [.string true line.info]), Mark.Reads mark) ↔
        Readable true line.info := by
    by_cases empty : line.info.isEmpty = true
    · rw [if_pos empty, List.isEmpty_iff.mp empty]
      exact ⟨fun _ _ member => absurd member List.not_mem_nil, fun _ _ member => absurd member List.not_mem_nil⟩
    · rw [if_neg empty]
      simp only [List.forall_mem_append, List.forall_mem_singleton, keyMarks_reads, Mark.reads_punctuation,
        Mark.reads_string, keys, true_and]
  unfold lineMarks
  simp only [List.forall_mem_append, List.forall_mem_cons, keyMarks_reads, idMarks_reads, i32_reads, last, said,
    Mark.reads_punctuation, keys, List.not_mem_nil, IsEmpty.forall_iff, implies_true, and_true]
  constructor
  · rintro ⟨⟨⟨⟨⟨name, last⟩, ids⟩, workers⟩, clients⟩, info⟩
    exact ⟨⟨name, ids, info⟩, last, workers, clients⟩
  · rintro ⟨⟨name, ids, info⟩, last, workers, clients⟩
    exact ⟨⟨⟨⟨⟨name, last⟩, ids⟩, workers⟩, clients⟩, info⟩

theorem infoMarks_reads (s : Server) (now : Nat) : (∀ mark ∈ infoMarks s now, mark.Reads) ↔
    Readable false s.version ∧ ∀ entry ∈ infoNumbers s now, entry.2 ≠ -2 ^ 63 := by
  have fixed : Readable false (ascii "$info") ∧ Readable false (ascii "version") := by decide
  have entries : (∀ mark ∈ (infoNumbers s now).flatMap fun entry =>
      [.punctuation Json.comma] ++ keyMarks entry.1 ++ [numberMark entry.2 entry.2], Mark.Reads mark) ↔
        ∀ entry ∈ infoNumbers s now, entry.2 ≠ -2 ^ 63 := by
    rw [List.forall_mem_flatMap]
    refine forall₂_congr fun entry member => ?_
    have range := infoNumbers_range s now entry member
    simp only [List.forall_mem_append, List.forall_mem_singleton, keyMarks_reads, i64_reads range.1 range.2,
      Mark.reads_punctuation, infoNumbers_keys s now entry member, true_and]
  unfold infoMarks
  simp only [List.forall_mem_append, List.forall_mem_singleton, keyMarks_reads, entries, Mark.reads_punctuation, Mark.reads_string, fixed, true_and,
    and_true]

theorem details_reads (s : Server) (now : Nat) :
    (∀ mark ∈ detailsMarks s now, mark.Reads) ↔ PlainTexts s ∧ InRange s now := by
  have lines : (∀ mark ∈ linesMarks s (liveLines s), mark.Reads) ↔
      ∀ line ∈ liveLines s, ∀ mark ∈ lineMarks s line, mark.Reads := by
    rw [linesMarks, List.forall_mem_flatMap]
    refine forall₂_congr fun line _ => ?_
    simp only [List.forall_mem_cons, Mark.reads_punctuation, Mark.reads_gap, true_and]
  unfold detailsMarks PlainTexts InRange
  simp only [List.forall_mem_append, List.forall_mem_cons, infoMarks_reads, lines, lineMarks_reads,
    Mark.reads_punctuation, List.not_mem_nil, IsEmpty.forall_iff, implies_true,
    true_and, and_true, forall_and]
  exact and_and_and_comm

/-- The body says what it is meant to say when no entry is a deleted connection, its
texts are plain and its numbers in range. -/
theorem details_parsed (garbage : Nat → UInt8) (s : Server) (now : Nat) :
    (sendDetails garbage s now).bind parse = some (detailsValue s now) ↔
      s.Kept (listedWorkers s) ∧ PlainTexts s ∧ InRange s now := by
  rw [sendDetails_eq]
  by_cases kept : s.Kept (listedWorkers s)
  · rw [if_pos kept, Option.bind_some, parse_iff, detailsMarks_bytes, ← detailsMarks_tokens,
      lex_marks (detailsMarks_placed s now), details_reads]
    exact (and_iff_right kept).symm
  · rw [if_neg kept]
    exact iff_of_false (fun read => by cases read) fun both => kept both.1

/-- Somebody makes a queue with a quote in its name. -/
def quotedQueue : List Input :=
  [.accept 0 ⟨false, false, false⟩, .recv 0 (ascii "POST /a\"b HTTP/1.1\r\nType: create\r\n\r\n") atRest]

theorem details_unquoted : ¬ ∀ (garbage : Nat → UInt8) (s : Server) (now : Nat), Reachable anything s →
    ((sendDetails garbage s now).bind parse).isSome := by
  intro parses
  have ran : (afterAll quotedQueue (Server.new 1 false (ascii "0.3") 0)).map (fun s => (parse (details s 0)).isSome) =
      some false := by
    decide +kernel
  obtain ⟨s, sEq, unread⟩ := Option.map_eq_some_iff.mp ran
  have read := parses (fun _ => 0) s 0 (reachable_afterAll (.new 1 false (ascii "0.3") 0) sEq)
  rw [sendDetails_eq] at read
  by_cases kept : s.Kept (listedWorkers s)
  · rw [if_pos kept, Option.bind_some] at read
    rw [read] at unread
    cases unread
  · rw [if_neg kept] at read
    cases read

end Ijson
