/-
The line loop of `on_recv` on a stream of well-formed requests that are
answered at once.

`Standing` says where the parser of a connection stands and accounts for every
byte and every request so far.  One iteration moves it over one line; by
induction the loop moves it over all lines of its data.
-/

import Ijson.Receive
import Ijson.RequestStream

namespace Ijson

/-- The bytes of connection `c` that the parser has taken. -/
def takenOf (c : ConnId) (log : List Event) : Bytes :=
  log.flatMap fun event =>
    match event with
    | .taken d bytes => if d = c then bytes else []
    | _ => []

/-- The requests of connection `c` handed to `header_completed`. -/
def requestsOf (c : ConnId) (log : List Event) : List Request :=
  log.filterMap fun event =>
    match event with
    | .request d request => if d = c then some request else none
    | _ => none

@[simp] theorem takenOf_append (c : ConnId) (left right : List Event) :
    takenOf c (left ++ right) = takenOf c left ++ takenOf c right := List.flatMap_append

@[simp] theorem requestsOf_append (c : ConnId) (left right : List Event) :
    requestsOf c (left ++ right) = requestsOf c left ++ requestsOf c right := List.filterMap_append

@[simp] theorem takenOf_taken (c : ConnId) (bytes : Bytes) :
    takenOf c [.taken c bytes] = bytes := by simp [takenOf]

@[simp] theorem requestsOf_taken (c d : ConnId) (bytes : Bytes) :
    requestsOf c [.taken d bytes] = [] := rfl

@[simp] theorem takenOf_response (c d : ConnId) (keepAlive : Bool) (given : Response) :
    takenOf c [.response d keepAlive given] = [] := rfl

@[simp] theorem requestsOf_response (c d : ConnId) (keepAlive : Bool) (given : Response) :
    requestsOf c [.response d keepAlive given] = [] := rfl

/-- An open connection that waits for nothing. -/
structure Calm (conn : Conn) : Prop where
  status : conn.status = .net
  mode : conn.workerMode = false
  client : conn.client = none
  opened : conn.closed = false

/-- `after` differs from `s` by one answered request of `c`. -/
structure Answered (c : ConnId) (s after : Server) : Prop where
  calm : Calm (after.conns c)
  step : (after.conns c).http.step = (s.conns c).http.step
  buffer : (after.conns c).http.buffer = (s.conns c).http.buffer
  taken : takenOf c after.log = takenOf c s.log
  requests : requestsOf c after.log = requestsOf c s.log ++ [(s.conns c).http.request]

/-- The handler answers the given requests at once: it returns, or throws the
`InvalidData` that `on_recv` answers, and leaves the connection calm. -/
def AnswersAtOnce (completed : Routine Unit) (c : ConnId) (requests : List Request) : Prop :=
  ∀ s, Calm (s.conns c) → (s.conns c).http.request ∈ requests →
    match completed.outcome Action.apply s with
    | .returned after _ => Answered c s after
    | .thrown after error => error = .invalidData ∧ Answered c s after
    | .fault => False

/-- The parser of `c` stands at `position` in the stream `rs`, of which it has
taken what `base` lacks and handed over what `handed` lacks. -/
structure Standing (rs : List RawRequest) (base : Bytes) (handed : List Request) (c : ConnId)
    (s : Server) (position : Position) : Prop where
  calm : Calm (s.conns c)
  valid : position.Valid
  stands : position.Stands (s.conns c).http
  located : ∃ taken, takenOf c s.log = base ++ taken ∧ position.Located rs taken
  requests : requestsOf c s.log ++ position.upcoming = handed ++ rs.map RawRequest.request

namespace Routine

open Program

variable {rs : List RawRequest} {base : Bytes} {handed : List Request} {c : ConnId} {s : Server}
  {env : Env} {completed : Routine Unit}

theorem rewind_standing (rs : List RawRequest) (base : Bytes) (handed : List Request) {s : Server}
    (rest : List RawRequest) (calm : Calm (s.conns c))
    (valid : (Position.between rest).Valid)
    (located : ∃ taken, takenOf c s.log = base ++ taken ∧ (Position.between rest).Located rs taken)
    (requests : requestsOf c s.log ++ rest.map RawRequest.request =
      handed ++ rs.map RawRequest.request) :
    ∃ after, (Action.rewind c).apply s = .returned after () ∧
      Standing rs base handed c after (.between rest) ∧
      (after.conns c).http.buffer = (s.conns c).http.buffer := by
  refine ⟨_, rfl, ?_, ?_⟩
  · exact
      { calm :=
          { status := by simpa using calm.status
            mode := by simpa using calm.mode
            client := by simpa using calm.client
            opened := by simpa using calm.opened }
        valid := valid
        stands := by simp [Position.Stands]
        located := located
        requests := requests }
  · simp

/-- `header_completed` and the answer to `InvalidData`. -/
theorem answering_outcome {requests : List Request}
    (answers : AnswersAtOnce completed c requests) (calm : Calm (s.conns c))
    (known : (s.conns c).http.request ∈ requests) :
    ∃ after, (answering completed c).outcome Action.apply s = .returned after () ∧
      Answered c s after := by
  have ends := answers s calm known
  rw [answering, outcome_catching]
  cases outcomeEq : completed.outcome Action.apply s with
  | returned after value =>
      rw [outcomeEq] at ends
      exact ⟨after, rfl, ends⟩
  | thrown after error =>
      rw [outcomeEq] at ends
      obtain ⟨rfl, answered⟩ := ends
      have opened := answered.calm.opened
      simp only [Outcome.handle, if_pos, outcome_perform, Action.apply, Server.send, opened,
        Result.andThen]
      refine ⟨_, rfl, ?_⟩
      exact
        { calm :=
            { status := by simpa using answered.calm.status
              mode := by simpa using answered.calm.mode
              client := by simpa using answered.calm.client
              opened := by simpa using answered.calm.opened }
          step := by simpa using answered.step
          buffer := by simpa using answered.buffer
          taken := by simpa using answered.taken
          requests := by simpa using answered.requests }
  | fault => rw [outcomeEq] at ends; cases ends

/-- The block at `HTTP_START` on a calm connection. -/
theorem begin_calm (calm : Calm (s.conns c)) (taken : Bytes) {line : Bytes}
    (path : (Http.readMethod line).1 ≠ []) :
    ∃ after, s.begin c taken line = .returned after () ∧ Calm (after.conns c) ∧
      (after.conns c).http = { (s.conns c).http.clearRequest false with
        path := (Http.readMethod line).1
        httpVersion := (Http.readMethod line).2
        step := .header } ∧
      after.log = s.log ++ [.taken c taken] := by
  obtain ⟨status, mode, client, opened⟩ := calm
  have nonempty : (Http.readMethod line).1.isEmpty = false := by
    rw [List.isEmpty_eq_false_iff]
    exact path
  simp only [Server.begin, Server.modify_self, Server.note_conns, status, mode, client,
    reduceCtorEq, if_false, Bool.false_eq_true, Result.andThen]
  refine ⟨_, rfl, ?_, ?_, rfl⟩
  · exact
      { status := by simpa using status
        mode := by simpa using mode
        client := by simp
        opened := by simpa [nonempty] using opened }
  · simp [nonempty, mode]

theorem readLines_start {r : RawRequest} {rest : List RawRequest} (fuel : Nat) (cursor : Cursor)
    (standing : Standing rs base handed c s (.between (r :: rest))) {data : Bytes}
    (dataEq : cursor.data = r.start ++ newline :: data) :
    ∃ after start, (readLines env completed c (fuel + 1) cursor).outcome Action.apply s =
        (readLines env completed c fuel ⟨cursor.place, start, data⟩).outcome Action.apply after ∧
      Standing rs base handed c after (.inHead r r.started r.headers rest) ∧
      (after.conns c).http.buffer = (s.conns c).http.buffer := by
  obtain ⟨valid, plain, _, _, locate⟩ := Position.start_line standing.valid
  have wellFormed := standing.valid r List.mem_cons_self
  have text : rstrip (r.start ++ [newline]) ≠ [] := lineText_start wellFormed
  have stepEq : (s.conns c).http.step = .start := standing.stands
  have popped : popLine cursor.data = some (r.start ++ [newline], data) := by
    rw [dataEq, popLine_some plain]
  obtain ⟨after, beginEq, calm, httpEq, logEq⟩ :=
    begin_calm standing.calm (r.start ++ [newline]) wellFormed.path
  refine ⟨after, cursor.start + (r.start ++ [newline]).length, ?_, ?_, by rw [httpEq]; rfl⟩
  · rw [lineText] at beginEq
    rw [readLines]
    simp only [popped, List.isEmpty_iff, text, outcome_bind, outcome_get, Outcome.bind, stepEq,
      if_true, if_false, outcome_perform, Action.apply, beginEq, calm.opened, Bool.false_eq_true]
  · obtain ⟨taken, takenEq, located⟩ := standing.located
    exact
      { calm := calm
        valid := valid
        stands := by
          refine ⟨by rw [httpEq], ?_⟩
          rw [httpEq]
          exact ⟨rfl, rfl⟩
        located := by
          refine ⟨taken ++ (r.start ++ [newline]), ?_, locate _ _ located⟩
          rw [logEq, takenOf_append, takenOf_taken, takenEq, List.append_assoc]
        requests := by
          rw [logEq, requestsOf_append, requestsOf_taken, List.append_nil]
          exact standing.requests }

theorem readLines_header {r : RawRequest} {http : Http} {line : Bytes} {lines : List Bytes}
    {rest : List RawRequest} (fuel : Nat) (cursor : Cursor)
    (standing : Standing rs base handed c s (.inHead r http (line :: lines) rest)) {data : Bytes}
    (dataEq : cursor.data = line ++ newline :: data) :
    ∃ after start read, (readLines env completed c (fuel + 1) cursor).outcome Action.apply s =
        (readLines env completed c fuel ⟨cursor.place, start, data⟩).outcome Action.apply after ∧
      Standing rs base handed c after (.inHead r read lines rest) ∧
      (after.conns c).http.buffer = (s.conns c).http.buffer ∧
      http.readHeader 0 .array 0 (lineText line) = .ok read := by
  obtain ⟨read, readEq, text, valid, plain, _, _, locate⟩ := Position.header_line standing.valid
  obtain ⟨stepEq, same⟩ := standing.stands
  obtain ⟨other, otherEq, otherSame, otherStep, otherBuffer⟩ :=
    same.readHeader (env.now s.tick) cursor.start cursor.place (lineText line) readEq
  have popped : popLine cursor.data = some (line ++ [newline], data) := by
    rw [dataEq, popLine_some plain]
  have calm := standing.calm
  refine ⟨(s.note (.taken c (line ++ [newline]))).modify c fun conn => { conn with http := other },
    cursor.start + (line ++ [newline]).length, read, ?_, ?_, ?_, readEq⟩
  · rw [lineText] at text otherEq
    rw [readLines]
    simp only [popped, List.isEmpty_iff, text, outcome_bind, outcome_get, Outcome.bind, stepEq,
      reduceCtorEq, if_true, if_false, otherEq, outcome_perform, Action.apply]
  · obtain ⟨taken, takenEq, located⟩ := standing.located
    exact
      { calm :=
          { status := by simpa using calm.status
            mode := by simpa using calm.mode
            client := by simpa using calm.client
            opened := by simpa using calm.opened }
        valid := valid
        stands := by
          refine ⟨?_, ?_⟩
          · rw [Server.modify_self, otherStep, stepEq]
          · rw [Server.modify_self]
            exact otherSame
        located := by
          refine ⟨taken ++ (line ++ [newline]), ?_, locate _ _ located⟩
          rw [Server.modify_log, Server.note_log, takenOf_append, takenOf_taken, takenEq,
            List.append_assoc]
        requests := by
          rw [Server.modify_log, Server.note_log, requestsOf_append, requestsOf_taken,
            List.append_nil]
          exact standing.requests }
  · rw [Server.modify_self, otherBuffer]

/-- The blank line and the part of the body that has arrived. -/
theorem endHead_standing {r : RawRequest} {http : Http} {rest : List RawRequest}
    (standing : Standing rs base handed c s (.inHead r http [] rest)) {got : Bytes}
    (part : got <+: r.body) :
    ∃ after, (Action.endHead c (r.blankLine ++ [newline] ++ got) got).apply s = .returned after () ∧
      Calm (after.conns c) ∧
      (after.conns c).http.buffer = (s.conns c).http.buffer.clear ∧
      (after.conns c).http.step =
        (if got.length < r.body.length then .readBody else .requestCompleted) ∧
      (after.conns c).http.contentLength = r.body.length ∧
      (after.conns c).http.body = got ∧
      { (after.conns c).http.request with body := r.body } = r.request ∧
      requestsOf c after.log = requestsOf c s.log ∧
      ∃ done, takenOf c after.log = base ++ (streamBytes done ++ r.head ++ got) ∧
        rs = done ++ r :: rest := by
  obtain ⟨_, _, lengthEq, bodyEq, requestEq, _, _, locate⟩ := Position.blank_line standing.valid
  obtain ⟨stepEq, requestSame, lengthSame⟩ := standing.stands
  obtain ⟨taken, takenEq, located⟩ := standing.located
  obtain ⟨done, split, headEq⟩ := locate _ _ located
  obtain ⟨status, mode, client, opened⟩ := standing.calm
  have announced : (s.conns c).http.contentLength = r.body.length := by rw [lengthSame, lengthEq]
  have oldBody : (s.conns c).http.body = [] := by
    have sameBody := congrArg Request.body requestSame
    exact sameBody.trans bodyEq
  have emptyGot : r.body.length = 0 → got = [] := by
    intro nothing
    rw [List.length_eq_zero_iff.mp nothing, List.prefix_nil] at part
    exact part
  refine ⟨_, rfl, ?_, ?_, ?_, ?_, ?_, ?_, ?_, done, ?_, split⟩
  · exact
      { status := by simpa [Server.endHead] using status
        mode := by simpa [Server.endHead] using mode
        client := by simpa [Server.endHead] using client
        opened := by simpa [Server.endHead] using opened }
  · simp [Server.endHead]
  · simp only [Server.endHead, Server.modify_self, Server.note_conns, announced]
    by_cases shorter : got.length < r.body.length
    · rw [if_pos shorter, if_pos]
      exact ⟨by omega, by exact_mod_cast shorter⟩
    · rw [if_neg shorter, if_neg]
      rintro ⟨_, less⟩
      exact shorter (by exact_mod_cast less)
  · simp only [Server.endHead, Server.modify_self, Server.note_conns, announced]
  · simp only [Server.endHead, Server.modify_self, Server.note_conns, announced]
    by_cases nothing : r.body.length = 0
    · rw [emptyGot nothing, oldBody]
      split <;> rfl
    · rw [if_pos (by exact_mod_cast nothing)]
  · rw [← requestEq, ← requestSame]
    simp [Server.endHead, Http.request]
  · simp [Server.endHead]
  · simp only [Server.endHead, Server.modify_log, Server.note_log, takenOf_append, takenOf_taken,
      takenEq]
    rw [← headEq]
    simp only [List.append_assoc]

/-- The iteration that reads the blank line, when the body has not all arrived. -/
theorem readLines_awaitBody {r : RawRequest} {http : Http} {rest : List RawRequest} (fuel : Nat)
    (cursor : Cursor) (standing : Standing rs base handed c s (.inHead r http [] rest))
    {data future : Bytes} (dataEq : cursor.data = r.blankLine ++ newline :: data)
    (streamEq : data ++ future = r.body ++ streamBytes rest)
    (shorter : data.length < r.body.length) :
    ∃ after missing, (readLines env completed c (fuel + 1) cursor).outcome Action.apply s =
        .returned after () ∧
      Standing rs base handed c after (.inBody r missing rest) ∧
      missing ++ streamBytes rest = future ∧
      (after.conns c).http.buffer = (s.conns c).http.buffer.clear := by
  obtain ⟨plain, text, lengthEq, _, _, _, _, _⟩ := Position.blank_line standing.valid
  obtain ⟨wellFormed, others, _⟩ := standing.valid
  obtain ⟨stepEq, _, lengthSame⟩ := standing.stands
  have part : data <+: r.body := by
    apply List.prefix_of_prefix_length_le (List.prefix_append data future) _ (Nat.le_of_lt shorter)
    rw [streamEq]
    exact List.prefix_append r.body _
  obtain ⟨missing, bodyEq⟩ := part
  have futureEq : missing ++ streamBytes rest = future := by
    rw [← bodyEq, List.append_assoc] at streamEq
    exact (List.append_cancel_left streamEq).symm
  have nonempty : missing ≠ [] := by
    intro nothing
    rw [← bodyEq, nothing, List.append_nil] at shorter
    exact Nat.lt_irrefl _ shorter
  obtain ⟨after, endEq, calm, buffer, step, announced, body, request, requests, done, takenEq, split⟩ :=
    endHead_standing standing ⟨missing, bodyEq⟩
  have popped : popLine cursor.data = some (r.blankLine ++ [newline], data) := by
    rw [dataEq, popLine_some plain]
  have contentLength : (s.conns c).http.contentLength = r.body.length := by rw [lengthSame, lengthEq]
  have nonnegative : ¬ ((r.body.length : Int) < 0) := Int.not_lt.mpr (Int.natCast_nonneg _)
  have whole : min r.body.length data.length = data.length := Nat.min_eq_right (Nat.le_of_lt shorter)
  rw [if_pos shorter] at step
  refine ⟨after, missing, ?_, ?_, futureEq, buffer⟩
  · rw [lineText] at text
    rw [readLines]
    simp only [popped, text, List.isEmpty_nil, outcome_bind, outcome_get, outcome_pure,
      Outcome.bind, stepEq, if_true, ne_eq, not_true_eq_false, if_false, contentLength,
      nonnegative, Int.toNat_natCast, whole, List.take_length, outcome_perform,
      endEq, step, reduceCtorEq]
  · exact
      { calm := calm
        valid := ⟨wellFormed, others, nonempty, data, bodyEq.symm⟩
        stands := ⟨step, announced, by rw [body, bodyEq], request⟩
        located := ⟨_, takenEq, done, data, split, rfl, bodyEq.symm⟩
        requests := by
          rw [requests]
          exact standing.requests }

theorem readLines_complete {r : RawRequest} {http : Http} {rest : List RawRequest} (fuel : Nat)
    (cursor : Cursor) (answers : AnswersAtOnce completed c (rs.map RawRequest.request))
    (standing : Standing rs base handed c s (.inHead r http [] rest)) {more : Bytes}
    (dataEq : cursor.data = r.blankLine ++ newline :: (r.body ++ more)) :
    ∃ after start, (readLines env completed c (fuel + 1) cursor).outcome Action.apply s =
        (if more = [] then .returned after ()
          else (readLines env completed c fuel ⟨cursor.place, start, more⟩).outcome Action.apply
            after) ∧
      Standing rs base handed c after (.between rest) ∧
      (after.conns c).http.buffer = (s.conns c).http.buffer.clear := by
  obtain ⟨plain, text, lengthEq, _, _, _, _, _⟩ := Position.blank_line standing.valid
  obtain ⟨_, others, _⟩ := standing.valid
  obtain ⟨stepEq, _, lengthSame⟩ := standing.stands
  obtain ⟨ended, endEq, calm, buffer, step, announced, body, request, requests, done, takenEq, split⟩ :=
    endHead_standing standing (List.prefix_refl r.body)
  have popped : popLine cursor.data = some (r.blankLine ++ [newline], r.body ++ more) := by
    rw [dataEq, popLine_some plain]
  have contentLength : (s.conns c).http.contentLength = r.body.length := by rw [lengthSame, lengthEq]
  have nonnegative : ¬ ((r.body.length : Int) < 0) := Int.not_lt.mpr (Int.natCast_nonneg _)
  have whole : min r.body.length (r.body ++ more).length = r.body.length := by
    rw [List.length_append]
    exact Nat.min_eq_left (Nat.le_add_right _ _)
  rw [if_neg (Nat.lt_irrefl _)] at step
  have requestEq : (ended.conns c).http.request = r.request := by
    rw [← request]
    simp only [Http.request, body]
  have known : (ended.conns c).http.request ∈ rs.map RawRequest.request := by
    rw [requestEq, split]
    exact List.mem_map_of_mem (List.mem_append_right done List.mem_cons_self)
  obtain ⟨answered, answerEq, effect⟩ := answering_outcome answers calm known
  obtain ⟨after, rewindEq, rewound, sameBuffer⟩ :=
    rewind_standing rs base handed rest effect.calm others
      ⟨streamBytes done ++ r.head ++ r.body, by rw [effect.taken, takenEq],
        done ++ [r], by rw [split, List.append_assoc]; rfl,
        by simp [streamBytes, RawRequest.bytes, List.append_assoc]⟩
      (by
        rw [effect.requests, requests, requestEq, List.append_assoc]
        exact standing.requests)
  refine ⟨after, cursor.start + (r.blankLine ++ [newline]).length + r.body.length, ?_, rewound, ?_⟩
  · rw [lineText] at text
    rw [readLines]
    simp only [popped, text, List.isEmpty_nil, outcome_bind, outcome_get,
      Outcome.bind, stepEq, if_true, ne_eq, not_true_eq_false, if_false, contentLength,
      nonnegative, Int.toNat_natCast, whole, List.take_left, List.drop_left,
      outcome_perform, endEq, step, answerEq]
    cases more with
    | nil =>
        simp only [List.isEmpty_nil, Bool.not_true, Bool.false_eq_true, if_false, if_true,
          outcome_perform, rewindEq]
    | cons a more =>
        simp only [List.isEmpty_cons, Bool.not_false, if_true, reduceCtorEq, if_false,
          outcome_bind, outcome_get, Outcome.bind, effect.calm.status, outcome_perform, rewindEq]
  · rw [sameBuffer, effect.buffer, buffer]

/-- How the loop leaves the parser: at `left` without a line feed, which is
about to be kept, or at the end of its data. -/
def LoopEnd (completed : Routine Unit) (env : Env) (c : ConnId) (fuel : Nat) (cursor : Cursor)
    (s after : Server) (position : Position) (left : Bytes) : Prop :=
  (left = [] ∧ (readLines env completed c fuel cursor).outcome Action.apply s = .returned after ()) ∨
    (newline ∉ left ∧ position.readsLines ∧
      ∃ start, (readLines env completed c fuel cursor).outcome Action.apply s =
        (keepRest c ⟨cursor.place, start, left⟩).outcome Action.apply after)

/-- The loop did not reach the end of the head in front of it. -/
def HeadOpen (position : Position) (data : Bytes) : Prop :=
  data.length < position.headRest.length ∨ data = []

theorem plain_length {data line future tail : Bytes} (plain : newline ∉ data)
    (same : data ++ future = line ++ newline :: tail) : data.length ≤ line.length := by
  by_contra longer
  have inside : line ++ [newline] <+: data := by
    apply List.prefix_of_prefix_length_le _ (List.prefix_append data future)
    · rw [List.length_append, List.length_singleton]
      omega
    · rw [same]
      exact ⟨tail, by rw [List.append_assoc]; rfl⟩
  exact plain (inside.subset (List.mem_append_right _ List.mem_cons_self))

theorem headOpen_of_plain {position : Position} {data future : Bytes} (valid : position.Valid)
    (reads : position.readsLines) (plain : newline ∉ data)
    (streamEq : data ++ future = position.rest) : HeadOpen position data := by
  cases position with
  | between all =>
      cases all with
      | nil => exact .inr (List.append_eq_nil_iff.mp streamEq).1
      | cons r rest =>
          obtain ⟨_, _, restEq, headEq, _⟩ := Position.start_line valid
          rw [restEq] at streamEq
          have short := plain_length plain streamEq
          left
          rw [headEq, List.length_append, List.length_cons]
          omega
  | inHead r http lines rest =>
      cases lines with
      | nil =>
          obtain ⟨_, _, _, _, _, restEq, headEq, _⟩ := Position.blank_line valid
          rw [restEq] at streamEq
          have short := plain_length plain streamEq
          left
          rw [headEq, List.length_append, List.length_singleton]
          omega
      | cons line lines =>
          obtain ⟨_, _, _, _, _, restEq, headEq, _⟩ := Position.header_line valid
          rw [restEq] at streamEq
          have short := plain_length plain streamEq
          left
          rw [headEq, List.length_append, List.length_cons]
          omega
  | inBody r missing rest => exact absurd reads id

theorem headRest_inHead_pos (r : RawRequest) (http : Http) (lines : List Bytes)
    (rest : List RawRequest) : 0 < (Position.inHead r http lines rest).headRest.length := by
  cases lines with
  | nil => simp [Position.headRest, unlines]
  | cons line lines =>
      simp only [Position.headRest, List.cons_append, unlines_cons, List.length_append,
        List.length_cons]
      omega

/-- Reading on after one more line of the same head. -/
theorem headOpen_line {position next : Position} {line data : Bytes}
    (headEq : position.headRest = line ++ newline :: next.headRest)
    (positive : 0 < next.headRest.length) :
    HeadOpen next data ↔ HeadOpen position (line ++ newline :: data) := by
  simp only [HeadOpen, headEq, List.length_append, List.length_cons, List.append_eq_nil_iff,
    reduceCtorEq, and_false, or_false]
  constructor
  · rintro (shorter | rfl)
    · omega
    · rw [List.length_nil]; omega
  · intro shorter
    left
    omega

/-- What the loop does with its data, which `future` follows in the stream: it
keeps the buffer while the head is open, and has cleared it otherwise. -/
def LoopSpec (completed : Routine Unit) (env : Env) (rs : List RawRequest) (base : Bytes)
    (handed : List Request) (c : ConnId) (fuel : Nat) (cursor : Cursor) (s : Server)
    (position : Position) (future : Bytes) : Prop :=
  ∃ after next left, Standing rs base handed c after next ∧ next.rest = left ++ future ∧
    left.length ≤ cursor.data.length ∧
    LoopEnd completed env c fuel cursor s after next left ∧
    ((HeadOpen position cursor.data ∧ newline ∉ left ∧ next.readsLines ∧
        (after.conns c).http.buffer = (s.conns c).http.buffer) ∨
      (¬ HeadOpen position cursor.data ∧
        (after.conns c).http.buffer = (s.conns c).http.buffer.clear))

theorem readLines_spec (env : Env) (answers : AnswersAtOnce completed c (rs.map RawRequest.request))
    (fuel : Nat) (cursor : Cursor) (position : Position)
    (standing : Standing rs base handed c s position) (reads : position.readsLines)
    {future : Bytes} (streamEq : cursor.data ++ future = position.rest)
    (enough : cursor.data.length < fuel) :
    LoopSpec completed env rs base handed c fuel cursor s position future := by
  induction fuel generalizing cursor s position with
  | zero => exact absurd enough (Nat.not_lt_zero _)
  | succ fuel ih =>
      cases line_cases cursor.data with
      | inl plain =>
          have step : (s.conns c).http.step = .start ∨ (s.conns c).http.step = .header := by
            cases position with
            | between rest => exact .inl standing.stands
            | inHead r http lines rest => exact .inr standing.stands.1
            | inBody r missing rest => exact absurd reads id
          refine ⟨s, position, cursor.data, standing, streamEq.symm, Nat.le_refl _,
            .inr ⟨plain, reads, cursor.start, ?_⟩,
            .inl ⟨headOpen_of_plain standing.valid reads plain streamEq, plain, reads, rfl⟩⟩
          rw [readLines]
          simp only [popLine_none plain, outcome_bind, outcome_get, Outcome.bind, if_pos step]
      | inr found =>
          obtain ⟨line, data, dataEq, plain⟩ := found
          have shorter : data.length < fuel := by
            rw [dataEq, List.length_append, List.length_cons] at enough
            omega
          have within : data.length ≤ cursor.data.length := by
            rw [dataEq, List.length_append, List.length_cons]
            omega
          rw [dataEq, List.append_assoc, List.cons_append] at streamEq
          -- one iteration that stays in the head, and the iterations after it
          have onward : ∀ middle start (position' : Position),
              (readLines env completed c (fuel + 1) cursor).outcome Action.apply s =
                (readLines env completed c fuel ⟨cursor.place, start, data⟩).outcome Action.apply
                  middle →
              Standing rs base handed c middle position' → position'.readsLines →
              (middle.conns c).http.buffer = (s.conns c).http.buffer →
              position.headRest = line ++ newline :: position'.headRest →
              0 < position'.headRest.length → data ++ future = position'.rest →
              LoopSpec completed env rs base handed c (fuel + 1) cursor s position future := by
            intro middle start position' outcomeEq middleStanding middleReads bufferEq headEq positive
              restEq
            obtain ⟨after, next, left, afterStanding, leftEq, leftLength, ends, buffers⟩ :=
              ih ⟨cursor.place, start, data⟩ position' middleStanding middleReads restEq shorter
            refine ⟨after, next, left, afterStanding, leftEq, Nat.le_trans leftLength within, ?_, ?_⟩
            · unfold LoopEnd at ends ⊢
              rw [outcomeEq]
              exact ends
            · rw [dataEq, ← headOpen_line headEq positive, ← bufferEq]
              exact buffers
          cases position with
          | between all =>
              cases all with
              | nil =>
                  have nothing : line ++ newline :: (data ++ future) = [] := streamEq
                  exact absurd (List.append_eq_nil_iff.mp nothing).2 (List.cons_ne_nil _ _)
              | cons r rest =>
                  obtain ⟨_, linePlain, restEq, headEq, _⟩ := Position.start_line standing.valid
                  rw [restEq] at streamEq
                  obtain ⟨rfl, tailEq⟩ := first_line_unique plain linePlain streamEq
                  obtain ⟨middle, start, outcomeEq, middleStanding, bufferEq⟩ :=
                    readLines_start fuel cursor standing dataEq
                  exact onward middle start _ outcomeEq middleStanding trivial bufferEq headEq
                    (headRest_inHead_pos _ _ _ _) tailEq
          | inHead r http lines rest =>
              cases lines with
              | cons header lines =>
                  obtain ⟨read, readEq, _, _, linePlain, restEq, headEq, _⟩ :=
                    Position.header_line standing.valid
                  rw [restEq] at streamEq
                  obtain ⟨rfl, tailEq⟩ := first_line_unique plain linePlain streamEq
                  obtain ⟨middle, start, other, outcomeEq, middleStanding, bufferEq, otherEq⟩ :=
                    readLines_header fuel cursor standing dataEq
                  rw [readEq, Except.ok.injEq] at otherEq
                  subst otherEq
                  exact onward middle start _ outcomeEq middleStanding trivial bufferEq headEq
                    (headRest_inHead_pos _ _ _ _) tailEq
              | nil =>
                  obtain ⟨linePlain, _, _, _, _, restEq, headEq, _⟩ :=
                    Position.blank_line standing.valid
                  rw [restEq] at streamEq
                  obtain ⟨rfl, tailEq⟩ := first_line_unique plain linePlain streamEq
                  have closed : ¬ HeadOpen (.inHead r http [] rest) cursor.data := by
                    rw [HeadOpen, headEq, dataEq]
                    simp
                  by_cases arriving : data.length < r.body.length
                  · obtain ⟨after, missing, outcomeEq, afterStanding, futureEq, bufferEq⟩ :=
                      readLines_awaitBody fuel cursor standing dataEq tailEq arriving
                    exact ⟨after, _, [], afterStanding, futureEq, Nat.zero_le _,
                      .inl ⟨rfl, outcomeEq⟩, .inr ⟨closed, bufferEq⟩⟩
                  · have whole : r.body <+: data := by
                      apply List.prefix_of_prefix_length_le _ (List.prefix_append data future)
                        (Nat.le_of_not_lt arriving)
                      rw [tailEq]
                      exact List.prefix_append _ _
                    obtain ⟨more, rfl⟩ := whole
                    rw [List.append_assoc] at tailEq
                    have moreEq := List.append_cancel_left tailEq
                    obtain ⟨middle, start, outcomeEq, middleStanding, bufferEq⟩ :=
                      readLines_complete fuel cursor answers standing dataEq
                    by_cases nothing : more = []
                    · subst nothing
                      rw [if_pos rfl] at outcomeEq
                      exact ⟨middle, _, [], middleStanding, moreEq.symm, Nat.zero_le _,
                        .inl ⟨rfl, outcomeEq⟩, .inr ⟨closed, bufferEq⟩⟩
                    · rw [if_neg nothing] at outcomeEq
                      have moreShorter : more.length < fuel := by
                        rw [List.length_append] at shorter
                        omega
                      have moreWithin : more.length ≤ cursor.data.length := by
                        rw [List.length_append] at within
                        omega
                      obtain ⟨after, next, left, afterStanding, leftEq, leftLength, ends, buffers⟩ :=
                        ih ⟨cursor.place, start, more⟩ (.between rest) middleStanding trivial moreEq
                          moreShorter
                      refine ⟨after, next, left, afterStanding, leftEq,
                        Nat.le_trans leftLength moreWithin, ?_, .inr ⟨closed, ?_⟩⟩
                      · unfold LoopEnd at ends ⊢
                        rw [outcomeEq]
                        exact ends
                      · cases buffers with
                        | inl kept => rw [kept.2.2.2, bufferEq]
                        | inr cleared => rw [cleared.2, bufferEq]; rfl
          | inBody r missing rest => exact absurd reads id

end Routine

end Ijson
