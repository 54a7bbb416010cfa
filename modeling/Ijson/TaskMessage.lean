/-
What a worker reads of the tasks it is handed.

The bytes `HttpSender` writes are read back with the line grammar of `on_recv`:
lines up to a blank one, each stripped at its end, then as many bytes as the
last `Content-Length` says.
-/

import Ijson.Effects
import Ijson.Numerals
import Ijson.RequestStream

namespace Ijson

/-- A task for a worker; the id is missing when the worker answers on the same
connection, and for asynchronous tasks. -/
structure Task where
  id : Option Bytes
  name : Bytes
  async : Bool
  body : Bytes
  deriving DecidableEq

/-- One message of a stream and the bytes behind it. -/
structure Parsed where
  first : Bytes
  headers : List Bytes
  body : Bytes
  rest : Bytes
  deriving DecidableEq

namespace Task

def headers (task : Task) : List (String × Bytes) :=
  (match task.id with
    | none => []
    | some id => [("Id", id)]) ++
    ("Name", task.name) :: if task.async then [("Async", ascii "true")] else []

def response (task : Task) : Response := ⟨"200 OK", task.headers, .bytes task.body⟩

/-- The header lines the server means to send. -/
def headerLines (keepAlive : Bool) (task : Task) : List Bytes :=
  (if keepAlive then [ascii "Connection: keep-alive"] else []) ++
    task.headers.map (fun header => ascii header.1 ++ ascii ": " ++ header.2) ++
    [ascii "Content-Length: " ++ addNumber task.body.length]

/-- The one message the server means to send. -/
def meant (keepAlive : Bool) (task : Task) : Parsed :=
  { first := ascii "HTTP/1.1 200 OK"
    headers := task.headerLines keepAlive
    body := task.body
    rest := [] }

end Task

/-- A value that a header line gives back: no line feed in it, and nothing at
its end that is stripped. -/
def Plain (value : Bytes) : Prop :=
  newline ∉ value ∧ ∃ a, value.getLast? = some a ∧ a ≠ blank ∧ a ≠ 13

/-- The lines up to a blank one, and what follows it. -/
def headLines : Nat → Bytes → Option (List Bytes × Bytes)
  | 0, _ => none
  | fuel + 1, data =>
      match popLine data with
      | none => none
      | some (raw, rest) =>
          if (rstrip raw).isEmpty then some ([], rest)
          else (headLines fuel rest).map fun found => (rstrip raw :: found.1, found.2)

/-- The first message of a stream; `none` when it is not complete. -/
def parseMessage (data : Bytes) : Option Parsed :=
  match headLines (data.length + 1) data with
  | some (first :: headers, rest) =>
      match readHeaders Http.new headers with
      | .error _ => none
      | .ok http =>
          if http.contentLength < 0 ∨ rest.length < http.contentLength then none
          else
            some
              { first := first
                headers := headers
                body := rest.take http.contentLength.toNat
                rest := rest.drop http.contentLength.toNat }
  | _ => none

/-! ### Lines -/

/-- A byte `rstrip` takes away. -/
def stripped (a : UInt8) : Bool := a = blank || a = newline || a = 13

theorem rstrip_append_stripped (line : Bytes) {a : UInt8} (ends : stripped a = true) :
    rstrip (line ++ [a]) = rstrip line := by
  change ((line ++ [a]).reverse.dropWhile stripped).reverse = (line.reverse.dropWhile stripped).reverse
  rw [List.reverse_append, List.reverse_singleton, List.singleton_append,
    List.dropWhile_cons_of_pos ends]

theorem rstrip_concat (line : Bytes) {a : UInt8} (stays : stripped a = false) :
    rstrip (line ++ [a]) = line ++ [a] := by
  change ((line ++ [a]).reverse.dropWhile stripped).reverse = line ++ [a]
  rw [List.reverse_append, List.reverse_singleton, List.singleton_append,
    List.dropWhile_cons_of_neg (by rw [stays]; decide), List.reverse_cons, List.reverse_reverse]

theorem rstrip_sublist (line : Bytes) : (rstrip line).Sublist line := by
  rw [← List.reverse_sublist, rstrip, List.reverse_reverse]
  exact (List.dropWhile_suffix _).sublist

theorem rstrip_rstrip (line : Bytes) : rstrip (rstrip line) = rstrip line := by
  induction line using List.reverseRecOn with
  | nil => rfl
  | append_singleton line a ih =>
      cases ends : stripped a with
      | true => rw [rstrip_append_stripped line ends, ih]
      | false => rw [rstrip_concat line ends, rstrip_concat line ends]

/-- The end of a line that `rstrip` leaves alone. -/
theorem getLast?_of_rstrip {line : Bytes} (same : rstrip line = line) {a : UInt8}
    (last : line.getLast? = some a) : stripped a = false := by
  cases ends : stripped a with
  | false => rfl
  | true =>
      obtain ⟨front, frontEq⟩ := List.getLast?_eq_some_iff.mp last
      rw [frontEq, rstrip_append_stripped front ends] at same
      have shorter := (rstrip_sublist front).length_le
      rw [same, List.length_append, List.length_singleton] at shorter
      omega

/-- A line as `HttpSender` means it: read back as it is. -/
structure Clean (line : Bytes) : Prop where
  plain : newline ∉ line
  same : rstrip line = line

theorem lineText_clean {line : Bytes} (clean : Clean line) : lineText line = line := by
  rw [lineText, rstrip_append_stripped line (by decide), clean.same]

theorem headLines_clean {fuel : Nat} {data rest : Bytes} {lines : List Bytes}
    (found : headLines fuel data = some (lines, rest)) : ∀ line ∈ lines, Clean line := by
  induction fuel generalizing data lines with
  | zero => cases found
  | succ fuel ih =>
      rw [headLines] at found
      rcases line_cases data with absent | ⟨front, behind, dataEq, plain⟩
      · rw [popLine_none absent] at found
        cases found
      · rw [dataEq, popLine_some plain behind] at found
        simp only at found
        split at found
        · cases found
          intro line member
          cases member
        · cases laterEq : headLines fuel behind with
          | none =>
              rw [laterEq] at found
              cases found
          | some later =>
              rw [laterEq] at found
              cases found
              intro line member
              rcases List.mem_cons.mp member with first | below
              · rw [first, rstrip_append_stripped front (by decide)]
                exact
                  { plain := fun inside => plain ((rstrip_sublist front).subset inside)
                    same := rstrip_rstrip front }
              · exact ih laterEq line below

/-- Clean lines with their line ends are read back. -/
theorem headLines_written (lines : List Bytes) (rest : Bytes) {fuel : Nat}
    (enough : lines.length < fuel) (clean : ∀ line ∈ lines, Clean line ∧ line ≠ []) :
    headLines fuel (lines.flatMap (· ++ ascii "\r\n") ++ ascii "\r\n" ++ rest) =
      some (lines, rest) := by
  have lineEnd : ascii "\r\n" = [13, newline] := by decide
  rw [lineEnd]
  induction lines generalizing fuel with
  | nil =>
      cases fuel with
      | zero => cases enough
      | succ fuel =>
          have popped : popLine ([13] ++ newline :: rest) = some ([13] ++ [newline], rest) :=
            popLine_some (by decide) rest
          change headLines (fuel + 1) ([13] ++ newline :: rest) = some ([], rest)
          rw [headLines, popped]
          rfl
  | cons line lines ih =>
      cases fuel with
      | zero => cases enough
      | succ fuel =>
          obtain ⟨lineClean, nonempty⟩ := clean line List.mem_cons_self
          have popped := @popLine_some (line ++ [13])
            (by simpa using ⟨lineClean.plain, by decide⟩)
            (lines.flatMap (· ++ [13, newline]) ++ [13, newline] ++ rest)
          have textEq : rstrip (line ++ [13] ++ [newline]) = line := by
            rw [rstrip_append_stripped _ (by decide), rstrip_append_stripped _ (by decide),
              lineClean.same]
          have splitEq : (line :: lines).flatMap (· ++ [13, newline]) ++ [13, newline] ++ rest =
              line ++ [13] ++
                newline :: (lines.flatMap (· ++ [13, newline]) ++ [13, newline] ++ rest) := by
            simp [List.flatMap_cons]
          rw [splitEq, headLines, popped]
          simp only [textEq]
          rw [if_neg (by simpa using nonempty),
            ih (by simpa using enough) fun other member => clean other (List.mem_cons_of_mem _ member)]
          rfl

/-! ### Header lines -/

/-- The line `header` writes. -/
def headerLine (key : String) (value : Bytes) : Bytes := ascii key ++ ascii ": " ++ value

theorem headerLine_clean {key : String} {value : Bytes} (keyPlain : newline ∉ ascii key) :
    Clean (headerLine key value) ↔ Plain value := by
  have separator : ascii ": " = [58, blank] := by decide
  rw [headerLine, separator]
  constructor
  · intro clean
    refine ⟨fun inside => clean.plain (List.mem_append_right _ inside), ?_⟩
    cases last : value.getLast? with
    | none =>
        -- an empty value leaves the blank of the separator at the end
        rw [List.getLast?_eq_none_iff] at last
        have stays := getLast?_of_rstrip clean.same (a := blank) (by simp [last])
        cases stays
    | some a =>
        have stays := getLast?_of_rstrip clean.same (a := a) (by
          rw [List.getLast?_append, last, Option.some_or])
        refine ⟨a, rfl, ?_, ?_⟩
        · intro same
          rw [same] at stays
          cases stays
        · intro same
          rw [same] at stays
          cases stays
  · intro plain
    obtain ⟨noFeed, a, last, notBlank, notReturn⟩ := plain
    obtain ⟨front, frontEq⟩ := List.getLast?_eq_some_iff.mp last
    refine { plain := ?_, same := ?_ }
    · intro inside
      rcases List.mem_append.mp inside with early | late
      · rcases List.mem_append.mp early with inKey | inSeparator
        · exact keyPlain inKey
        · revert inSeparator
          decide
      · exact noFeed late
    · have notFeed : a ≠ newline := fun same => noFeed (by rw [frontEq, same]; simp)
      rw [frontEq, ← List.append_assoc, rstrip_concat]
      simp [stripped, notBlank, notReturn, notFeed]

/-- A header line that `read_header` accepts. -/
structure Readable (line : Bytes) : Prop where
  clean : Clean line
  nonempty : line ≠ []
  accepted : ∃ header, Http.Header.read line = .ok header

theorem readHeaders_readable (http : Http) {lines : List Bytes}
    (readable : ∀ line ∈ lines, Readable line) : ∃ read, readHeaders http lines = .ok read := by
  induction lines generalizing http with
  | nil => exact ⟨http, rfl⟩
  | cons line lines ih =>
      obtain ⟨header, headerEq⟩ := (readable line List.mem_cons_self).accepted
      obtain ⟨read, readEq⟩ := ih (http.store 0 .array 0 header)
        fun other member => readable other (List.mem_cons_of_mem _ member)
      refine ⟨read, ?_⟩
      rw [readHeaders, lineText_clean (readable line List.mem_cons_self).clean, Http.readHeader,
        headerEq]
      exact readEq

theorem read_id (id : Bytes) : Http.Header.read (headerLine "Id" id) = .ok (.id id) := by
  simp [Http.Header.read, headerLine, ascii, startsWithLc, lowerCase]

theorem read_name (name : Bytes) : Http.Header.read (headerLine "Name" name) = .ok (.name name) := by
  simp [Http.Header.read, headerLine, ascii, startsWithLc, lowerCase]

theorem read_contentLength {n : Nat} (small : n < 2 ^ 31) :
    Http.Header.read (headerLine "Content-Length" (addNumber n)) = .ok (.contentLength n) := by
  have length : Http.Header.read (headerLine "Content-Length" (addNumber n)) =
      (atoi (addNumber n)).map Http.Header.contentLength := by
    simp [Http.Header.read, headerLine, ascii, startsWithLc, lowerCase]
  rw [length, atoi_addNumber (by omega) (by omega)]
  rfl

theorem plain_addNumber (n : Nat) : Plain (addNumber n) := by
  have digits := addNumber_digits n
  refine ⟨fun inside => absurd (digits _ inside) (by decide), ?_⟩
  cases last : (addNumber n).getLast? with
  | none => exact absurd (List.getLast?_eq_none_iff.mp last) (addNumber_ne_nil n)
  | some a =>
      have isDigit := digits a (List.mem_of_getLast? last)
      refine ⟨a, rfl, ?_, ?_⟩
      · intro same
        rw [same] at isDigit
        revert isDigit
        decide
      · intro same
        rw [same] at isDigit
        revert isDigit
        decide

namespace Task

/-- The values a task brings into header lines can be given back by them. -/
def Plain (task : Task) : Prop := (∀ id, task.id = some id → Ijson.Plain id) ∧ Ijson.Plain task.name

theorem headerLines_eq (keepAlive : Bool) (task : Task) :
    task.headerLines keepAlive =
      ((if keepAlive then [headerLine "Connection" (ascii "keep-alive")] else []) ++
        task.headers.map fun header => headerLine header.1 header.2) ++
        [headerLine "Content-Length" (addNumber task.body.length)] := by
  cases keepAlive with
  | false => rfl
  | true => rfl

/-- The bytes of a task: its lines, a blank one and the body. -/
theorem written_eq (keepAlive : Bool) (task : Task) :
    task.response.head keepAlive ++ Response.withLength task.body =
      ((task.meant keepAlive).first :: (task.meant keepAlive).headers).flatMap (· ++ ascii "\r\n") ++
        ascii "\r\n" ++ task.body := by
  have status : ascii "HTTP/1.1 " ++ ascii "200 OK" = ascii "HTTP/1.1 200 OK" := by decide
  have blankLine : ascii "\r\n\r\n" = ascii "\r\n" ++ ascii "\r\n" := by decide
  have alive : ascii "Connection: keep-alive\r\n" = ascii "Connection: keep-alive" ++ ascii "\r\n" := by
    decide
  simp only [Response.head, response, Response.withLength, meant, headerLines]
  rw [status, blankLine, alive]
  cases keepAlive with
  | false => simp [List.flatMap_append, List.flatMap_map, List.append_assoc]
  | true => simp [List.flatMap_append, List.flatMap_map, List.append_assoc]

theorem headers_keys (task : Task) :
    ∀ header ∈ task.headers, (∃ id, task.id = some id ∧ header = ("Id", id)) ∨
      header = ("Name", task.name) ∨ header = ("Async", ascii "true") := by
  intro header member
  rcases List.mem_append.mp member with front | own
  · cases idEq : task.id with
    | none =>
        rw [idEq] at front
        cases front
    | some id =>
        rw [idEq] at front
        exact Or.inl ⟨id, rfl, List.mem_singleton.mp front⟩
  · rcases List.mem_cons.mp own with isName | last
    · exact Or.inr (Or.inl isName)
    · cases async : task.async with
      | false =>
          rw [async] at last
          cases last
      | true =>
          rw [async] at last
          exact Or.inr (Or.inr (List.mem_singleton.mp last))

theorem readable_headers {task : Task} (plain : task.Plain) :
    ∀ header ∈ task.headers, Readable (headerLine header.1 header.2) := by
  have written : ∀ (key : String) {value : Bytes}, newline ∉ ascii key → Ijson.Plain value →
      (∃ header, Http.Header.read (headerLine key value) = .ok header) →
        Readable (headerLine key value) := by
    intro key value keyPlain valuePlain accepted
    refine { clean := (headerLine_clean keyPlain).mpr valuePlain, nonempty := ?_,
             accepted := accepted }
    simp [headerLine, ascii]
  intro header member
  rcases task.headers_keys header member with ⟨id, idEq, isId⟩ | isName | isAsync
  · rw [isId]
    exact written "Id" (by decide) (plain.1 id idEq) ⟨_, read_id id⟩
  · rw [isName]
    exact written "Name" (by decide) plain.2 ⟨_, read_name task.name⟩
  · rw [isAsync]
    exact written "Async" (by decide) ⟨by decide, 101, by decide⟩
      ⟨.other, by simp [Http.Header.read, headerLine, ascii, startsWithLc, lowerCase]⟩

theorem readable_front (keepAlive : Bool) {task : Task} (plain : task.Plain) :
    ∀ line ∈ (if keepAlive then [headerLine "Connection" (ascii "keep-alive")] else []) ++
      task.headers.map (fun header => headerLine header.1 header.2), Readable line := by
  intro line member
  rcases List.mem_append.mp member with alive | own
  · cases keepAlive with
    | false => cases alive
    | true =>
        rw [List.mem_singleton.mp alive]
        refine { clean := (headerLine_clean (by decide)).mpr ⟨by decide, 101, by decide⟩,
                 nonempty := by decide, accepted := ⟨.other, ?_⟩ }
        simp [Http.Header.read, headerLine, ascii, startsWithLc, lowerCase]
  · obtain ⟨header, headerMember, lineEq⟩ := List.mem_map.mp own
    rw [← lineEq]
    exact readable_headers plain header headerMember

theorem length_le_written (lines : List Bytes) :
    lines.length ≤ (lines.flatMap (· ++ ascii "\r\n")).length := by
  have lineEnd : (ascii "\r\n").length = 2 := by decide
  induction lines with
  | nil => exact Nat.le_refl 0
  | cons line lines ih =>
      rw [List.flatMap_cons, List.length_append, List.length_append, List.length_cons, lineEnd]
      omega

/-- A task whose values are plain reads back as the message that is meant. -/
theorem parse_plain (keepAlive : Bool) {task : Task} (plain : task.Plain)
    (small : task.body.length < 2 ^ 31) :
    parseMessage (task.response.head keepAlive ++ Response.withLength task.body) =
      some (task.meant keepAlive) := by
  obtain ⟨read, readEq⟩ := readHeaders_readable Http.new (readable_front keepAlive plain)
  have lengthClean : Clean (headerLine "Content-Length" (addNumber task.body.length)) :=
    (headerLine_clean (by decide)).mpr (plain_addNumber _)
  have headersEq : readHeaders Http.new (task.headerLines keepAlive) =
      .ok { read with contentLength := task.body.length } := by
    rw [headerLines_eq, readHeaders_append readEq, readHeaders, lineText_clean lengthClean,
      Http.readHeader, read_contentLength small]
    change Except.ok { read with contentLength := i32 task.body.length } = _
    rw [i32_of_small small]
  have clean : ∀ line ∈ (task.meant keepAlive).first :: (task.meant keepAlive).headers,
      Clean line ∧ line ≠ [] := by
    intro line member
    rcases List.mem_cons.mp member with first | later
    · change line = ascii "HTTP/1.1 200 OK" at first
      rw [first]
      exact ⟨{ plain := by decide, same := by decide }, by decide⟩
    · change line ∈ task.headerLines keepAlive at later
      rw [headerLines_eq] at later
      rcases List.mem_append.mp later with front | last
      · have readable := readable_front keepAlive plain line front
        exact ⟨readable.clean, readable.nonempty⟩
      · rw [List.mem_singleton.mp last]
        exact ⟨lengthClean, by simp [headerLine, ascii]⟩
  rw [written_eq, parseMessage, headLines_written _ _ _ clean]
  · simp only [meant]
    rw [headersEq]
    simp
  · have counted := length_le_written ((task.meant keepAlive).first :: (task.meant keepAlive).headers)
    rw [List.length_append, List.length_append]
    omega

theorem plain_of_parse {keepAlive : Bool} {task : Task} {data : Bytes}
    (parsed : parseMessage data = some (task.meant keepAlive)) : task.Plain := by
  unfold parseMessage at parsed
  split at parsed
  · rename_i first headers rest linesEq
    have clean := headLines_clean linesEq
    have headersEq : headers = task.headerLines keepAlive := by
      split at parsed
      · cases parsed
      · split at parsed
        · cases parsed
        · exact congrArg Parsed.headers (Option.some.inj parsed)
    have written : ∀ header ∈ task.headers, Clean (headerLine header.1 header.2) := by
      intro header member
      apply clean
      rw [headersEq, headerLines_eq]
      apply List.mem_cons_of_mem
      apply List.mem_append_left
      apply List.mem_append_right
      exact List.mem_map.mpr ⟨header, member, rfl⟩
    refine ⟨?_, ?_⟩
    · intro id idEq
      exact (@headerLine_clean "Id" id (by decide)).mp
        (written ("Id", id) (by simp [Task.headers, idEq]))
    · exact (@headerLine_clean "Name" task.name (by decide)).mp
        (written ("Name", task.name) (by simp [Task.headers]))
  · cases parsed

theorem readHeaders_contentLength {http read : Http} {lines : List Bytes}
    (small : http.contentLength < 2 ^ 31) (readEq : readHeaders http lines = .ok read) :
    read.contentLength < 2 ^ 31 := by
  induction lines generalizing http with
  | nil =>
      cases readEq
      exact small
  | cons line lines ih =>
      rw [readHeaders] at readEq
      cases lineEq : http.readHeader 0 .array 0 (lineText line) with
      | error error =>
          rw [lineEq] at readEq
          cases readEq
      | ok next =>
          rw [lineEq] at readEq
          refine ih ?_ readEq
          rw [Http.readHeader] at lineEq
          cases headerEq : Http.Header.read (lineText line) with
          | error error =>
              rw [headerEq] at lineEq
              cases lineEq
          | ok header =>
              rw [headerEq] at lineEq
              rw [← Except.ok.inj lineEq]
              cases header with
              | contentLength value =>
                  change i32 value < 2 ^ 31
                  rw [i32]
                  have bound := Int.bmod_lt (x := value) (m := 2 ^ 32) (by decide)
                  omega
              | _ => exact small

theorem small_of_parse {keepAlive : Bool} {task : Task} {data : Bytes}
    (parsed : parseMessage data = some (task.meant keepAlive)) : task.body.length < 2 ^ 31 := by
  unfold parseMessage at parsed
  split at parsed
  · rename_i first headers rest linesEq
    split at parsed
    · cases parsed
    · rename_i http httpEq
      split at parsed
      · cases parsed
      · have bodyEq := congrArg Parsed.body (Option.some.inj parsed)
        have bound := readHeaders_contentLength (by decide) httpEq
        change List.take _ rest = task.body at bodyEq
        rw [← bodyEq, List.length_take]
        omega
  · cases parsed

end Task

end Ijson
