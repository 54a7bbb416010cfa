/-
What a client reads of the bytes it is sent.

A client that reads header lines up to a blank one, and then as many bytes as
`Content-Length` says, finds the messages as they were meant, wherever the stream
breaks off.
-/

import Ijson.Framing
import Ijson.TaskMessage
import Ijson.Wire

namespace Ijson

/-! ### Reading -/

theorem headLines_append {fuel enough : Nat} {data rest : Bytes} {lines : List Bytes} (more : Bytes)
    (found : headLines fuel data = some (lines, rest)) (longer : fuel ≤ enough) :
    headLines enough (data ++ more) = some (lines, rest ++ more) := by
  induction fuel generalizing data lines enough with
  | zero => cases found
  | succ fuel ih =>
      cases enough with
      | zero => exact absurd longer (Nat.not_succ_le_zero _)
      | succ enough =>
          rcases line_cases data with absent | ⟨line, behind, rfl, plain⟩
          · rw [headLines, popLine_none absent] at found
            cases found
          · rw [headLines, popLine_some plain] at found
            rw [List.append_assoc, List.cons_append, headLines, popLine_some plain]
            simp only at found ⊢
            by_cases blankLine : (rstrip (line ++ [newline])).isEmpty = true
            · rw [if_pos blankLine] at found ⊢
              cases found
              rfl
            · rw [if_neg blankLine] at found ⊢
              obtain ⟨later, laterEq, pair⟩ := Option.map_eq_some_iff.mp found
              rw [Prod.mk.injEq] at pair
              have below : headLines fuel behind = some (later.1, rest) := by rw [laterEq, ← pair.2]
              rw [ih below (Nat.le_of_succ_le_succ longer), ← pair.1]
              rfl

theorem headLines_shorter {fuel : Nat} {data rest : Bytes} {lines : List Bytes}
    (found : headLines fuel data = some (lines, rest)) : rest.length < data.length := by
  induction fuel generalizing data lines with
  | zero => cases found
  | succ fuel ih =>
      rcases line_cases data with absent | ⟨line, behind, rfl, plain⟩
      · rw [headLines, popLine_none absent] at found
        cases found
      · have longer : behind.length < (line ++ newline :: behind).length := by
          rw [List.length_append, List.length_cons]
          omega
        rw [headLines, popLine_some plain] at found
        simp only at found
        by_cases blankLine : (rstrip (line ++ [newline])).isEmpty = true
        · rw [if_pos blankLine] at found
          cases found
          exact longer
        · rw [if_neg blankLine] at found
          obtain ⟨later, laterEq, pair⟩ := Option.map_eq_some_iff.mp found
          rw [Prod.mk.injEq] at pair
          have below : headLines fuel behind = some (later.1, rest) := by rw [laterEq, ← pair.2]
          exact Nat.lt_trans (ih below) longer

/-- What stands behind a message does not change it. -/
theorem parseMessage_append {data : Bytes} {parsed : Parsed} (more : Bytes)
    (found : parseMessage data = some parsed) :
    parseMessage (data ++ more) = some { parsed with rest := parsed.rest ++ more } := by
  unfold parseMessage at found ⊢
  split at found
  · rename_i first headers rest linesEq
    rw [headLines_append more linesEq (by rw [List.length_append]; omega)]
    simp only
    cases headersEq : readHeaders Http.new headers with
    | error error =>
        rw [headersEq] at found
        cases found
    | ok http =>
        simp only [headersEq] at found ⊢
        split at found
        · cases found
        · rename_i whole
          rw [not_or, Int.not_lt, Int.not_lt] at whole
          have room : http.contentLength.toNat ≤ rest.length := by omega
          cases found
          rw [if_neg (by rw [List.length_append]; omega), List.take_append_of_le_length room,
            List.drop_append_of_le_length room]
  · cases found

theorem parseMessage_shorter {data : Bytes} {parsed : Parsed} (found : parseMessage data = some parsed) :
    parsed.rest.length < data.length := by
  unfold parseMessage at found
  split at found
  · rename_i first headers rest linesEq
    have shorter := headLines_shorter linesEq
    split at found
    · cases found
    · split at found
      · cases found
      · cases found
        exact Nat.lt_of_le_of_lt (by simp) shorter
  · cases found

/-- A client reads one message after another. -/
def replies : Framing UInt8 Parsed where
  read := fun data => (parseMessage data).map fun parsed => ({ parsed with rest := [] }, parsed.rest)
  extends_read := by
    intro data rest value more found
    obtain ⟨parsed, parsedEq, pair⟩ := Option.map_eq_some_iff.mp found
    rw [Prod.mk.injEq] at pair
    rw [parseMessage_append more parsedEq, Option.map_some, ← pair.1, ← pair.2]
  consumes := by
    intro data rest value found
    obtain ⟨parsed, parsedEq, pair⟩ := Option.map_eq_some_iff.mp found
    rw [Prod.mk.injEq] at pair
    exact pair.2 ▸ parseMessage_shorter parsedEq

/-! ### Writing -/

namespace Response

/-- A response whose lines are read as they are written. -/
structure Plain (jsonrpc2 : Bool) (response : Response) : Prop where
  status : Clean (ascii "HTTP/1.1 " ++ ascii response.status)
  headers : ∀ header ∈ response.headers, Readable (headerLine header.1 header.2)
  body : (response.body jsonrpc2).length < 2 ^ 31

theorem readable_frontLines {jsonrpc2 : Bool} {response : Response} (plain : response.Plain jsonrpc2)
    (keepAlive : Bool) : ∀ line ∈ response.frontLines keepAlive, Readable line := by
  intro line member
  rcases List.mem_append.mp member with alive | own
  · cases keepAlive with
    | false => cases alive
    | true =>
        rw [List.mem_singleton.mp alive]
        refine { clean := (headerLine_clean (by decide)).mpr ⟨by decide, 101, by decide⟩,
                 nonempty := by decide, accepted := ⟨.other, ?_⟩ }
        simp [Http.Header.read, headerLine, ascii, startsWithLc, lowerCase]
  · obtain ⟨header, headerMember, rfl⟩ := List.mem_map.mp own
    exact plain.headers header headerMember

theorem Plain.frames {jsonrpc2 : Bool} {response : Response} (plain : response.Plain jsonrpc2) (keepAlive : Bool) :
    replies.Frames (response.meant jsonrpc2 keepAlive).written (response.meant jsonrpc2 keepAlive) := by
  have front := readable_frontLines plain keepAlive
  have lengthClean : Clean (headerLine "Content-Length" (addNumber (response.body jsonrpc2).length)) :=
    (headerLine_clean (by decide)).mpr (plain_addNumber _)
  obtain ⟨read, readEq⟩ := readHeaders_readable Http.new front
  have headersEq : readHeaders Http.new (response.meant jsonrpc2 keepAlive).headers =
      .ok { read with contentLength := (response.body jsonrpc2).length } := by
    rw [meant, readHeaders_append readEq, readHeaders, lineText_clean lengthClean, Http.readHeader,
      read_contentLength plain.body]
    change Except.ok { read with contentLength := i32 (response.body jsonrpc2).length } = _
    rw [i32_of_small plain.body]
  have clean : ∀ line ∈ (response.meant jsonrpc2 keepAlive).first :: (response.meant jsonrpc2 keepAlive).headers,
      Clean line ∧ line ≠ [] := by
    intro line member
    rcases List.mem_cons.mp member with first | later
    · rw [first]
      exact ⟨plain.status, by simp [meant, ascii]⟩
    · rcases List.mem_append.mp later with inFront | last
      · exact ⟨(front line inFront).clean, (front line inFront).nonempty⟩
      · rw [List.mem_singleton.mp last]
        exact ⟨lengthClean, by simp [headerLine, ascii]⟩
  have parsed : parseMessage (response.meant jsonrpc2 keepAlive).written =
      some (response.meant jsonrpc2 keepAlive) := by
    rw [parseMessage, Parsed.written, headLines_written _ _ _ clean]
    · simp only
      rw [headersEq]
      simp [meant]
    · have counted := Task.length_le_written
        ((response.meant jsonrpc2 keepAlive).first :: (response.meant jsonrpc2 keepAlive).headers)
      rw [List.length_append, List.length_append]
      omega
  change (parseMessage _).map _ = _
  rw [parsed]
  rfl

end Response

/-- The task that a published message carries. -/
def announcement (name body : Bytes) : Task := ⟨none, name, true, body⟩

theorem published_text (jsonrpc2 : Bool) (name body : Bytes) :
    Routine.published name body = ((announcement name body).response.meant jsonrpc2 true).written := by
  have first : ascii "HTTP/1.1 200 OK\r\nConnection: keep-alive\r\nName: " =
      ascii "HTTP/1.1 " ++ ascii "200 OK" ++ ascii "\r\n" ++ ascii "Connection: keep-alive\r\n" ++
        (ascii "Name" ++ ascii ": ") := by
    decide
  have async : ascii "\r\nAsync: true\r\n" =
      ascii "\r\n" ++ (ascii "Async" ++ ascii ": " ++ ascii "true" ++ ascii "\r\n") := by
    decide
  rw [← Response.text_eq, Routine.published, first, async]
  simp [Response.text, Response.head, Response.tail, announcement, Task.response, Task.headers,
    List.append_assoc]

/-- The tasks a worker is handed are plain responses when their values are plain. -/
theorem Task.plain_response {task : Task} (plain : task.Plain) (small : task.body.length < 2 ^ 31)
    (jsonrpc2 : Bool) : task.response.Plain jsonrpc2 where
  status := by
    change Clean (ascii "HTTP/1.1 " ++ ascii "200 OK")
    exact { plain := by decide, same := by decide }
  headers := readable_headers plain
  body := small

namespace Said

/-- What a client is to make of a message. -/
inductive Means (jsonrpc2 : Bool) : Said → Parsed → Prop where
  | response (keepAlive : Bool) {response : Response} : response.Plain jsonrpc2 →
      Means jsonrpc2 (.response keepAlive response) (response.meant jsonrpc2 keepAlive)
  | published (d : Nat) {name body : Bytes} : Plain name → body.length < 2 ^ 31 →
      Means jsonrpc2 (.published d (Routine.published name body))
        ((announcement name body).response.meant jsonrpc2 true)

theorem Means.frames {jsonrpc2 : Bool} {said : Said} {parsed : Parsed} (means : said.Means jsonrpc2 parsed) :
    replies.Frames (said.text jsonrpc2) parsed := by
  cases means with
  | response keepAlive plain => exact plain.frames keepAlive
  | @published d name body plain small =>
      have task : (announcement name body).Plain := ⟨fun id (same : none = some id) => absurd same (by simp), plain⟩
      rw [text, published_text jsonrpc2]
      exact (Task.plain_response task small jsonrpc2).frames true

end Said

/-- Wherever the stream of a client breaks off, it has read those of the messages it was
told that have arrived as a whole, as they were meant, each once and in order. -/
theorem messages_read_back {moments : List (Action × Server)} {s : Server} {c : ConnId} {meant : List Parsed}
    (trail : Trail moments s) (means : List.Forall₂ (Said.Means s.jsonrpc2) (s.said c) meant) :
    ∃ whole ≤ (s.said c).length,
      replies.readAll ((wire c moments).length + 1) (wire c moments) = meant.take whole ∧
        ((s.said c).take whole).flatMap (Said.text s.jsonrpc2) <+: wire c moments ∧
        (whole < (s.said c).length →
          (wire c moments).length < (((s.said c).take (whole + 1)).flatMap (Said.text s.jsonrpc2)).length) := by
  have story := (trail.voiced c).story
  have frames : List.Forall₂ replies.Frames ((s.said c).map (Said.text s.jsonrpc2)) meant :=
    List.forall₂_map_left_iff.mpr (means.imp fun _ _ means => means.frames)
  have part : wire c moments <+: ((s.said c).map (Said.text s.jsonrpc2)).flatten := story.written
  obtain ⟨whole, within, readEq, arrived, next⟩ := Framing.readAll_part frames part (Nat.lt_succ_self _)
  rw [List.length_map] at within next
  rw [← List.map_take] at arrived next
  exact ⟨whole, within, readEq, arrived, next⟩

/-- The message of `fortyWritten` is written in two pieces, behind the response. -/
def twiceWritten : List Input := fortyWritten ++ [.send 0 (some 44)]

theorem messages_read_back_once : ∃ moments s, Trail moments s ∧ (wire 0 moments).length = 153 ∧
    replies.readAll 154 (wire 0 moments) =
      [Response.meant false true ⟨"404 Not Found", [], .code (-32601)⟩,
        (announcement (ascii "a") []).response.meant false true] := by
  have ran : (afterAll twiceWritten (Server.new 1 false [] 0)).map (fun s =>
      ((wire 0 (momentsAll twiceWritten (Server.new 1 false [] 0))).length, s.said 0, s.jsonrpc2)) =
      some (153, [.response true ⟨"404 Not Found", [], .code (-32601)⟩,
        .published 0 (Routine.published (ascii "a") [])], false) := by
    decide +kernel
  obtain ⟨s, sEq, facts⟩ := Option.map_eq_some_iff.mp ran
  simp only [Prod.mk.injEq] at facts
  obtain ⟨length, told, plain⟩ := facts
  have trail := trail_afterAll (.new 1 false [] 0) sEq
  rw [List.nil_append] at trail
  have means : List.Forall₂ (Said.Means s.jsonrpc2) (s.said 0)
      [Response.meant false true ⟨"404 Not Found", [], .code (-32601)⟩,
        (announcement (ascii "a") []).response.meant false true] := by
    rw [told, plain]
    have refusal : Response.Plain false ⟨"404 Not Found", [], .code (-32601)⟩ :=
      { status := { plain := by decide, same := by decide }
        headers := fun header member => by cases member
        body := by decide }
    exact .cons (.response true refusal) (.cons (.published 0 ⟨by decide, 97, by decide⟩ (by decide)) .nil)
  obtain ⟨whole, within, readEq, arrived, next⟩ := messages_read_back trail means
  rw [told] at within next
  have texts : (([.response true ⟨"404 Not Found", [], .code (-32601)⟩,
      .published 0 (Routine.published (ascii "a") [])] : List Said).flatMap (Said.text s.jsonrpc2)).length = 153 := by
    rw [plain]
    decide +kernel
  have two : whole = 2 := by
    by_contra fewer
    have few : whole + 1 ≤ 2 := Nat.lt_of_le_of_ne within fewer
    have short := next few
    have bounded : ((([.response true ⟨"404 Not Found", [], .code (-32601)⟩,
        .published 0 (Routine.published (ascii "a") [])] : List Said).take (whole + 1)).flatMap
          (Said.text s.jsonrpc2)).length ≤ 153 := by
      rw [← texts]
      exact ((List.take_prefix _ _).flatMap _).length_le
    rw [length] at short
    omega
  rw [length, two] at readEq
  exact ⟨_, s, trail, length, readEq⟩

end Ijson
