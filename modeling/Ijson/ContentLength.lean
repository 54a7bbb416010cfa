/-
How many bytes `on_recv` takes as the body of a request.

The header is read as an `i64` and kept in an `int`.  Where the number fits and
is not negative, exactly so many bytes behind the blank line become the body,
however they are cut into chunks.
-/

import Ijson.Chunks
import Ijson.TaskMessage

namespace Ijson

open Program Routine

/-! ### The number in the header -/

/-- The number behind digits, not cut off. -/
def digitsValue : Bytes → Int → Option Int
  | [], value => some value
  | a :: rest, value =>
      match digit? a with
      | none => none
      | some d => digitsValue rest (value * 10 + d)

/-- The number a text that `atoi` accepts stands for. -/
def written : Bytes → Option Int
  | [] => none
  | a :: rest =>
      if a = 45 then
        if rest.isEmpty then none else (digitsValue rest 0).map fun value => -value
      else digitsValue (a :: rest) 0

theorem atoiLoop_eq (data : Bytes) (value : Int) :
    (atoiLoop data (i64 value)).toOption = (digitsValue data value).map i64 := by
  induction data generalizing value with
  | nil => rfl
  | cons a data ih =>
      rw [atoiLoop, digitsValue]
      cases digit? a with
      | none => rfl
      | some d =>
          have wraps : i64 (i64 value * 10 + d) = i64 (value * 10 + d) := by
            unfold i64
            rw [← Int.bmod_add_bmod, Int.bmod_mul_bmod, Int.bmod_add_bmod]
          simp only [wraps, ih]

theorem atoi_eq (data : Bytes) : (atoi data).toOption = (written data).map i64 := by
  cases data with
  | nil => rfl
  | cons a rest =>
      have zero : i64 0 = 0 := by decide
      rw [atoi, written]
      by_cases minus : a = 45
      · rw [if_pos minus, if_pos minus]
        cases empty : rest.isEmpty with
        | true => rfl
        | false =>
            have loop := atoiLoop_eq rest 0
            rw [zero] at loop
            simp only [Bool.false_eq_true, if_false, Option.map_map]
            cases readEq : atoiLoop rest 0 with
            | error error =>
                rw [readEq] at loop
                cases valueEq : digitsValue rest 0 with
                | none => rfl
                | some value =>
                    rw [valueEq] at loop
                    cases loop
            | ok read =>
                rw [readEq] at loop
                cases valueEq : digitsValue rest 0 with
                | none =>
                    rw [valueEq] at loop
                    cases loop
                | some value =>
                    rw [valueEq] at loop
                    obtain rfl : read = i64 value := Option.some.inj loop
                    have negated : i64 (-i64 value) = i64 (-value) := by
                      simp only [i64, Int.bmod_neg_bmod]
                    change some (i64 (-i64 value)) = some (i64 (-value))
                    rw [negated]
      · rw [if_neg minus, if_neg minus]
        have loop := atoiLoop_eq (a :: rest) 0
        rw [zero] at loop
        exact loop

theorem atoi_of_written {data : Bytes} {n : Int} (writtenEq : written data = some n) :
    atoi data = .ok (i64 n) := by
  have equal := atoi_eq data
  rw [writtenEq] at equal
  cases readEq : atoi data with
  | error error =>
      rw [readEq] at equal
      cases equal
  | ok value =>
      rw [readEq] at equal
      exact congrArg Except.ok (Option.some.inj equal)

theorem i32_i64 (n : Int) : i32 (i64 n) = i32 n := by
  rw [i32, i64, Int.bmod_bmod_of_dvd (by decide)]
  rfl

theorem i32_eq_iff (n : Int) : i32 n = n ↔ -2 ^ 31 ≤ n ∧ n < 2 ^ 31 := by
  rw [i32, Int.bmod_eq_iff (by decide)]
  omega

/-! ### The head -/

/-- The line is a length header. -/
def announces (line : Bytes) : Bool := startsWithLc (lineText line) (ascii "content-length: ")

/-- The head has been read up to its blank line, and `v` is what its last
length header says. -/
structure Announced (v : Bytes) (http : Http) : Prop where
  step : http.step = .header
  body : http.body = []
  lines : ∃ base line after read, announces line = true ∧ (lineText line).drop 16 = v ∧
    (∀ other ∈ after, announces other = false) ∧ readHeaders base (line :: after) = .ok read ∧
    http.contentLength = read.contentLength

theorem readHeaders_cons {http read : Http} {line : Bytes} {lines : List Bytes}
    (readEq : readHeaders http (line :: lines) = .ok read) :
    ∃ header, Http.Header.read (lineText line) = .ok header ∧
      readHeaders (http.store 0 .array 0 header) lines = .ok read := by
  rw [readHeaders, Http.readHeader] at readEq
  cases headerEq : Http.Header.read (lineText line) with
  | error error =>
      rw [headerEq] at readEq
      cases readEq
  | ok header =>
      rw [headerEq] at readEq
      exact ⟨header, rfl, readEq⟩

theorem map_ne_ok {α β : Type} {f : α → β} {b : β} (never : ∀ a, f a ≠ b) (result : Except Exc α) :
    result.map f ≠ .ok b := by
  cases result with
  | error error => exact fun same => by cases same
  | ok a => exact fun same => never a (Except.ok.inj same)

theorem read_announces {data : Bytes} {value : Int}
    (readEq : Http.Header.read data = .ok (.contentLength value)) :
    startsWithLc data (ascii "content-length: ") = true := by
  by_contra other
  rw [Http.Header.read, if_neg other] at readEq
  repeat' split at readEq
  all_goals first
    | exact map_ne_ok (fun _ => Http.Header.noConfusion) _ readEq
    | cases readEq

theorem readHeaders_silent {http read : Http} {lines : List Bytes}
    (silent : ∀ line ∈ lines, announces line = false) (readEq : readHeaders http lines = .ok read) :
    read.contentLength = http.contentLength := by
  induction lines generalizing http with
  | nil =>
      cases readEq
      rfl
  | cons line lines ih =>
      obtain ⟨header, headerEq, restEq⟩ := readHeaders_cons readEq
      rw [ih (fun other member => silent other (List.mem_cons_of_mem line member)) restEq]
      have quiet := silent line List.mem_cons_self
      cases header with
      | contentLength value =>
          rw [announces, read_announces headerEq] at quiet
          cases quiet
      | _ => rfl

theorem Announced.contentLength {v : Bytes} {n : Int} {http : Http} (announced : Announced v http)
    (writtenEq : written v = some n) : http.contentLength = i32 n := by
  obtain ⟨base, line, after, read, isLength, rfl, silent, readEq, lengthEq⟩ := announced.lines
  obtain ⟨header, headerEq, restEq⟩ := readHeaders_cons readEq
  rw [announces] at isLength
  rw [Http.Header.read, if_pos isLength, atoi_of_written writtenEq] at headerEq
  cases headerEq
  rw [lengthEq, readHeaders_silent silent restEq]
  exact i32_i64 n

/-! ### The body -/

def Action.completes (c : ConnId) : Action → Bool
  | .complete d => d = c
  | _ => false

/-- The body of the first request of `c` that is handed to `header_completed`. -/
def handedBody (c : ConnId) (moments : List (Action × Server)) : Option Bytes :=
  (moments.find? fun moment => moment.1.completes c).map fun moment => (moment.2.conns c).http.body

/-- Chunks one after another. -/
def receiveAll (env : Env) (c : ConnId) : List Bytes → Routine Unit
  | [] => return
  | chunk :: chunks => do
      receiveChunk env (headerCompleted env c) c chunk
      receiveAll env c chunks

/-- The loop over the lines comes to the end of a head, and the chunks after
this one follow. -/
def arriving (env : Env) (c : ConnId) (fuel : Nat) (cursor : Cursor) (chunks : List Bytes) :
    Routine Unit := do
  readLines env (headerCompleted env c) c fuel cursor
  receiveAll env c chunks

/-- The request is answered with an error, or ends with one, before it has been
handed over. -/
def RefusedBefore (c : ConnId) (run : List (Action × Server) × Outcome Server Exc Unit) : Prop :=
  handedBody c run.1 = none ∧ ((∃ error after, run.2 = .thrown after error) ∨
    ∃ moment ∈ run.1, moment.1 = .refuseHeader c)

/-- The state in which `header_completed` starts on the first request of `c`. -/
def completion (c : ConnId) (moments : List (Action × Server)) : Option Server :=
  (moments.find? fun moment => moment.1.completes c).map Prod.snd

theorem handedBody_eq (c : ConnId) (moments : List (Action × Server)) :
    handedBody c moments = (completion c moments).map fun t => (t.conns c).http.body := by
  unfold handedBody completion
  rw [Option.map_map]
  rfl

theorem completion_append {c : ConnId} {front : List (Action × Server)}
    (silent : ∀ moment ∈ front, moment.1.completes c = false) (tail : List (Action × Server)) :
    completion c (front ++ tail) = completion c tail := by
  unfold completion
  rw [List.find?_append, List.find?_eq_none.mpr fun moment member => by simp [silent moment member]]
  rfl

theorem completion_of_first {c : ConnId} {front : List (Action × Server)} {t : Server}
    (found : completion c front = some t) (tail : List (Action × Server)) :
    completion c (front ++ tail) = some t := by
  unfold completion at found ⊢
  rw [Option.map_eq_some_iff] at found
  obtain ⟨moment, momentEq, same⟩ := found
  rw [List.find?_append, momentEq]
  exact congrArg some same

theorem completion_first (c : ConnId) (s : Server) (tail : List (Action × Server)) :
    completion c ((.complete c, s) :: tail) = some s := by
  simp [completion, Action.completes]

/-- The option of the request is where it was, and so is the buffer. -/
structure SameView (c : ConnId) (s after : Server) : Prop where
  headerOption : (after.conns c).http.headerOption = (s.conns c).http.headerOption
  mem : (after.conns c).http.buffer.mem = (s.conns c).http.buffer.mem
  block : (after.conns c).http.buffer.block = (s.conns c).http.buffer.block
  nloop : (after.conns c).nloop = (s.conns c).nloop

theorem SameView.trans {c : ConnId} {s t after : Server} (first : SameView c s t) (second : SameView c t after) :
    SameView c s after :=
  { headerOption := second.headerOption.trans first.headerOption
    mem := second.mem.trans first.mem
    block := second.block.trans first.block
    nloop := second.nloop.trans first.nloop }

/-- The routine returns and hands nothing over. -/
structure Quietly (c : ConnId) (routine : Routine Unit) (s after : Server) : Prop where
  returns : routine.outcome Action.apply s = .returned after ()
  silent : ∀ moment ∈ (routine.run Action.apply s).1, moment.1.completes c = false

namespace Quietly

variable {c : ConnId} {s t u : Server}

theorem pure (c : ConnId) (s : Server) : Quietly c (Pure.pure ()) s s :=
  ⟨rfl, List.forall_mem_nil _⟩

theorem perform {action : Action} (applied : action.apply s = .returned t ())
    (silent : action.completes c = false) : Quietly c (Program.perform action) s t := by
  constructor
  · rw [outcome_perform, applied]
  · rw [moments_perform]
    exact List.forall_mem_singleton.mpr silent

theorem look {rest : Server → Routine Unit} (quiet : Quietly c (rest s) s t) :
    Quietly c (get >>= rest) s t :=
  ⟨quiet.returns, quiet.silent⟩

theorem bind {routine : Routine Unit} {rest : Unit → Routine Unit} (first : Quietly c routine s t)
    (later : Quietly c (rest ()) t u) : Quietly c (routine >>= rest) s u := by
  constructor
  · rw [outcome_bind, first.returns]
    exact later.returns
  · rw [moments_bind, first.returns]
    exact List.forall_mem_append.mpr ⟨first.silent, later.silent⟩

theorem completion {routine : Routine Unit} (first : Quietly c routine s t)
    (rest : Unit → Routine Unit) :
    completion c ((routine >>= rest).run Action.apply s).1 =
      Ijson.completion c ((rest ()).run Action.apply t).1 := by
  rw [moments_bind, first.returns, completion_append first.silent]

end Quietly

/-- The first moment of a request that is handed over. -/
theorem answering_moments (env : Env) (c : ConnId) (rest : Unit → Routine Unit) (s : Server) :
    ∃ tail, ((answering (headerCompleted env c) c >>= rest).run Action.apply s).1 =
      (.complete c, s) :: tail := by
  have first : ∃ tail, ((headerCompleted env c).run Action.apply s).1 = (.complete c, s) :: tail := by
    unfold headerCompleted
    rw [moments_bind, moments_perform]
    exact ⟨_, rfl⟩
  obtain ⟨tail, moments⟩ := first
  unfold answering
  rw [moments_bind, moments_catching, moments]
  exact ⟨_, rfl⟩

section

variable (env : Env) (fuel : Nat) {c : ConnId} {s : Server} {cursor : Cursor} {raw rest : Bytes} {n : Nat}

theorem endHead_sameView (s : Server) (c : ConnId) (taken body : Bytes) : SameView c s (s.endHead c taken body) := by
  constructor <;> (rw [Server.endHead, Server.modify_self]; rfl)

/-- The blank line, with the whole body behind it. -/
theorem blank_whole (step : (s.conns c).http.step = .header) (popped : popLine cursor.data = some (raw, rest))
    (blank : rstrip raw = []) (length : (s.conns c).http.contentLength = n) (whole : n ≤ rest.length)
    (clean : (s.conns c).http.body = []) :
    ∃ ended, completion c ((readLines env (headerCompleted env c) c (fuel + 1) cursor).run Action.apply s).1 =
      some ended ∧ (ended.conns c).http.body = rest.take n ∧ SameView c s ended ∧ ended.arrays = s.arrays := by
  have notNegative : ¬ (s.conns c).http.contentLength < 0 := by omega
  have toRead : min (s.conns c).http.contentLength.toNat rest.length = n := by omega
  obtain ⟨ended, endedEq⟩ : ∃ ended, s.endHead c (raw ++ rest.take n) (rest.take n) = ended := ⟨_, rfl⟩
  have completed : (ended.conns c).http.step = .requestCompleted := by
    rw [← endedEq, Server.endHead, Server.modify_self]
    have enough : ¬ ((s.conns c).http.contentLength ≠ 0 ∧
        ((rest.take n).length : Int) < (s.conns c).http.contentLength) := by
      rw [List.length_take]
      omega
    exact if_neg enough
  have body : (ended.conns c).http.body = rest.take n := by
    rw [← endedEq, Server.endHead, Server.modify_self]
    change (if (s.conns c).http.contentLength ≠ 0 then rest.take n else (s.conns c).http.body) = _
    by_cases zero : (s.conns c).http.contentLength = 0
    · have nothing : n = 0 := by omega
      rw [if_neg (by simpa using zero), clean, nothing, List.take_zero]
    · rw [if_pos zero]
  refine ⟨ended, ?_, body, endedEq ▸ endHead_sameView s c _ _, by rw [← endedEq]; rfl⟩
  rw [readLines, popped]
  simp only [blank, List.isEmpty_nil, if_true]
  rw [moments_bind, outcome_get, moments_get, List.nil_append]
  simp only [step, ne_eq, not_true_eq_false, if_false, if_neg notNegative, toRead]
  rw [moments_bind, outcome_perform, moments_perform]
  simp only [Action.apply, endedEq]
  rw [completion_append (List.forall_mem_singleton.mpr rfl), moments_bind, outcome_get, moments_get,
    List.nil_append]
  simp only [if_pos completed]
  obtain ⟨tail, moments⟩ := answering_moments env c _ ended
  rw [moments, completion_first]

/-- The body goes on in the next chunk. -/
structure AwaitsBody (c : ConnId) (n : Nat) (got : Bytes) (s : Server) : Prop where
  step : (s.conns c).http.step = .readBody
  length : (s.conns c).http.contentLength = n
  body : (s.conns c).http.body = got
  missing : got.length < n
  ready : (s.conns c).ready = true
  empty : (s.conns c).http.buffer.size = 0

/-- The blank line, with a part of the body behind it. -/
theorem blank_part (step : (s.conns c).http.step = .header) (popped : popLine cursor.data = some (raw, rest))
    (blank : rstrip raw = []) (length : (s.conns c).http.contentLength = n) (part : rest.length < n)
    (ready : (s.conns c).ready = true) :
    ∃ after, Quietly c (readLines env (headerCompleted env c) c (fuel + 1) cursor) s after ∧
      AwaitsBody c n rest after ∧ SameView c s after ∧ after.arrays = s.arrays := by
  have notNegative : ¬ (s.conns c).http.contentLength < 0 := by omega
  have toRead : min (s.conns c).http.contentLength.toNat rest.length = rest.length := by omega
  obtain ⟨ended, endedEq⟩ : ∃ ended, s.endHead c (raw ++ rest) rest = ended := ⟨_, rfl⟩
  have missing : (s.conns c).http.contentLength ≠ 0 ∧
      (rest.length : Int) < (s.conns c).http.contentLength := by omega
  have awaits : AwaitsBody c n rest ended := by
    rw [← endedEq]
    constructor
    · rw [Server.endHead, Server.modify_self]
      exact if_pos missing
    · rw [Server.endHead, Server.modify_self]
      exact length
    · rw [Server.endHead, Server.modify_self]
      exact if_pos missing.1
    · exact part
    · rw [Server.endHead, Server.modify_self]
      exact ready
    · rw [Server.endHead, Server.modify_self]
      rfl
  refine ⟨ended, ?_, awaits, endedEq ▸ endHead_sameView s c _ _, by rw [← endedEq]; rfl⟩
  rw [readLines, popped]
  simp only [blank, List.isEmpty_nil, if_true]
  apply Quietly.look
  simp only [step, ne_eq, not_true_eq_false, if_false, if_neg notNegative, toRead, List.take_length]
  have waits : ¬ (ended.conns c).http.step = .requestCompleted := by
    rw [awaits.step]
    exact HttpStep.noConfusion
  refine Quietly.bind (Quietly.perform (congrArg (Outcome.returned · ()) endedEq) rfl) (Quietly.look ?_)
  rw [if_neg waits]
  exact Quietly.pure c ended

/-- One routine does what another does from a later state. -/
structure GoesOn (c : ConnId) (routine later : Routine Unit) (s middle : Server) : Prop where
  comes : ∃ front, Comes Action.apply routine s front later middle ∧
    ∀ moment ∈ front, moment.1.completes c = false

namespace GoesOn

variable {t u : Server} {routine later : Routine Unit}

theorem quietly (goesOn : GoesOn c routine later s t) {after : Server} (quiet : Quietly c later t after) :
    Quietly c routine s after := by
  obtain ⟨front, comes, silent⟩ := goesOn.comes
  constructor
  · rw [comes.outcome_eq, quiet.returns]
  · rw [comes.moments_eq]
    exact List.forall_mem_append.mpr ⟨silent, quiet.silent⟩

theorem handed (goesOn : GoesOn c routine later s t) :
    completion c (routine.run Action.apply s).1 = completion c (later.run Action.apply t).1 := by
  obtain ⟨front, comes, silent⟩ := goesOn.comes
  rw [comes.moments_eq, completion_append silent]

theorem look {rest : Server → Routine Unit} (goesOn : GoesOn c (rest s) later s t) :
    GoesOn c (get >>= rest) later s t := by
  obtain ⟨front, comes, silent⟩ := goesOn.comes
  exact ⟨front, comes.look, silent⟩

theorem perform {action : Action} {rest : Unit → Routine Unit}
    (applied : action.apply s = .returned t ()) (silent : action.completes c = false)
    (goesOn : GoesOn c (rest ()) later t u) :
    GoesOn c (Program.perform action >>= rest) later s u := by
  obtain ⟨front, comes, others⟩ := goesOn.comes
  exact ⟨(action, s) :: front, comes.perform applied, List.forall_mem_cons.mpr ⟨silent, others⟩⟩

theorem here (later : Routine Unit) (s : Server) : GoesOn c later later s s :=
  ⟨[], comes_here later s, List.forall_mem_nil _⟩

theorem trans {first second third : Routine Unit} (one : GoesOn c first second s t)
    (two : GoesOn c second third t u) : GoesOn c first third s u := by
  obtain ⟨front, before, silent⟩ := one.comes
  obtain ⟨back, behind, others⟩ := two.comes
  exact ⟨front ++ back, before.trans behind, List.forall_mem_append.mpr ⟨silent, others⟩⟩

end GoesOn

theorem receiveChunk_parses {got : Bytes} (awaits : AwaitsBody c n got s) (chunk : Bytes) :
    ∃ middle, AwaitsBody c n got middle ∧ GoesOn c (receiveChunk env (headerCompleted env c) c chunk)
      (parse env (headerCompleted env c) c { place := .array, start := 0, data := chunk }) s middle ∧
      SameView c s middle ∧ middle.arrays =
        Function.update s.arrays (s.conns c).nloop (chunk ++ (s.arrays (s.conns c).nloop).drop chunk.length) := by
  obtain ⟨received, receivedEq⟩ : ∃ received, (Action.receive (s.conns c).nloop chunk).apply s =
    .returned received () := ⟨_, rfl⟩
  have receivedConns : received.conns = s.conns := by
    cases receivedEq
    rfl
  have arrays : received.arrays = Function.update s.arrays (s.conns c).nloop
      (chunk ++ (s.arrays (s.conns c).nloop).drop chunk.length) := by
    cases receivedEq
    rfl
  have view : SameView c s received := by
    constructor <;> rw [receivedConns]
  have stored : ∀ t, AwaitsBody c n got t → GoesOn c
      (storeOrParse env (headerCompleted env c) c chunk)
      (parse env (headerCompleted env c) c { place := .array, start := 0, data := chunk }) t t := by
    intro t still
    unfold storeOrParse
    apply GoesOn.look
    simp only [still.ready, still.empty, Bool.not_true, Bool.false_eq_true, if_false, ne_eq,
      not_true_eq_false]
    exact GoesOn.here _ t
  have same : AwaitsBody c n got received := by
    obtain ⟨step, length, body, missing, ready, empty⟩ := awaits
    constructor <;> first | exact missing | (rw [receivedConns]; assumption)
  by_cases ping : (received.conns c).http.ping = 0
  · refine ⟨received, same, ?_, view, arrays⟩
    unfold receiveChunk
    refine GoesOn.look (GoesOn.perform receivedEq rfl ?_)
    unfold onRecvWith
    apply GoesOn.look
    simp only [ping, ne_eq, not_true_eq_false, if_false]
    exact stored received same
  · obtain ⟨pinged, pingedEq⟩ : ∃ pinged, (Action.edit c [] fun http => { http with
      pingTimeout := u32 (env.now received.tick + (received.conns c).http.ping) }).apply received =
        .returned pinged () := ⟨_, rfl⟩
    have still : AwaitsBody c n got pinged := by
      obtain ⟨step, length, body, missing, ready, empty⟩ := same
      cases pingedEq
      constructor
      · simpa using step
      · simpa using length
      · simpa using body
      · exact missing
      · rw [Server.modify_self]
        exact ready
      · rw [Server.modify_self]
        exact empty
    have kept : SameView c received pinged ∧ pinged.arrays = received.arrays := by
      cases pingedEq
      refine ⟨?_, rfl⟩
      constructor <;> (rw [Server.modify_self]; rfl)
    refine ⟨pinged, still, ?_, view.trans kept.1, kept.2.trans arrays⟩
    unfold receiveChunk
    refine GoesOn.look (GoesOn.perform receivedEq rfl ?_)
    unfold onRecvWith
    apply GoesOn.look
    simp only [ping, ne_eq, not_false_eq_true, if_true]
    exact GoesOn.perform pingedEq rfl (stored pinged still)

theorem parse_part {got chunk : Bytes} (awaits : AwaitsBody c n got s)
    (part : (got ++ chunk).length < n) :
    ∃ after, Quietly c (parse env (headerCompleted env c) c
        { place := .array, start := 0, data := chunk }) s after ∧
      AwaitsBody c n (got ++ chunk) after ∧ SameView c s after ∧ after.arrays = s.arrays := by
  obtain ⟨step, length, body, missing, ready, empty⟩ := awaits
  rw [List.length_append] at part
  have notNegative : ¬ (s.conns c).http.contentLength - (s.conns c).http.body.length < 0 := by
    rw [body]
    omega
  have toRead : ((s.conns c).http.contentLength - (s.conns c).http.body.length).toNat =
      n - got.length := by
    rw [body]
    omega
  have more : n - got.length > chunk.length := by omega
  obtain ⟨read, readEq⟩ : ∃ read, (s.note (.taken c chunk)).modify c (fun conn =>
      { conn with http := { conn.http with
        body := conn.http.body ++ chunk, buffer := conn.http.buffer.clear } }) = read := ⟨_, rfl⟩
  refine ⟨read, ?_, ?_, ?_, by rw [← readEq]; rfl⟩
  · unfold parse
    apply Quietly.look
    simp only [step, if_true, if_neg notNegative, toRead, if_pos more]
    exact Quietly.perform (congrArg (Outcome.returned · ()) readEq) rfl
  · rw [← readEq]
    constructor
    · simpa using step
    · simpa using length
    · simp [body]
    · rw [List.length_append]
      exact part
    · rw [Server.modify_self]
      exact ready
    · rw [Server.modify_self]
      rfl
  · rw [← readEq]
    constructor <;> (rw [Server.modify_self]; rfl)

theorem parse_whole {got chunk : Bytes} (awaits : AwaitsBody c n got s)
    (whole : n ≤ (got ++ chunk).length) :
    ∃ after, completion c ((parse env (headerCompleted env c) c
        { place := .array, start := 0, data := chunk }).run Action.apply s).1 = some after ∧
      (after.conns c).http.body = (got ++ chunk).take n ∧ SameView c s after ∧ after.arrays = s.arrays := by
  obtain ⟨step, length, body, missing, ready, empty⟩ := awaits
  rw [List.length_append] at whole
  have notNegative : ¬ (s.conns c).http.contentLength - (s.conns c).http.body.length < 0 := by
    rw [body]
    omega
  have toRead : ((s.conns c).http.contentLength - (s.conns c).http.body.length).toNat =
      n - got.length := by
    rw [body]
    omega
  have enough : ¬ n - got.length > chunk.length := by omega
  obtain ⟨read, readEq⟩ : ∃ read, (s.note (.taken c (chunk.take (n - got.length)))).modify c (fun conn =>
      { conn with http := { conn.http with
        body := conn.http.body ++ chunk.take (n - got.length) } }) = read := ⟨_, rfl⟩
  have readBody : (read.conns c).http.body = (got ++ chunk).take n := by
    rw [← readEq, Server.modify_self, List.take_append, List.take_of_length_le (Nat.le_of_lt missing)]
    simp [body]
  have view : SameView c s read := by
    rw [← readEq]
    constructor <;> (rw [Server.modify_self]; rfl)
  refine ⟨read, ?_, readBody, view, by rw [← readEq]; rfl⟩
  unfold parse
  rw [moments_bind, outcome_get, moments_get, List.nil_append]
  simp only [step, if_true, if_neg notNegative, toRead, if_neg enough]
  have edited : Quietly c (perform (.edit c (chunk.take (n - got.length)) fun http =>
      { http with body := http.body ++ chunk.take (n - got.length) })) s read :=
    Quietly.perform (congrArg (Outcome.returned · ()) readEq) rfl
  rw [edited.completion]
  obtain ⟨tail, moments⟩ := answering_moments env c _ read
  rw [moments, completion_first]

theorem receiveAll_part {got : Bytes} (chunks : List Bytes) (awaits : AwaitsBody c n got s)
    (part : (got ++ chunks.flatten).length < n) :
    ∃ after, Quietly c (receiveAll env c chunks) s after ∧
      AwaitsBody c n (got ++ chunks.flatten) after := by
  induction chunks generalizing s got with
  | nil =>
      refine ⟨s, Quietly.pure c s, ?_⟩
      rw [List.flatten_nil, List.append_nil]
      exact awaits
  | cons chunk chunks ih =>
      rw [List.flatten_cons, ← List.append_assoc] at part ⊢
      have shorter : (got ++ chunk).length < n := by
        rw [List.length_append] at part
        omega
      obtain ⟨middle, parses, goesOn, _⟩ := receiveChunk_parses env awaits chunk
      obtain ⟨read, quiet, next, _⟩ := parse_part env parses shorter
      obtain ⟨after, later, still⟩ := ih next part
      exact ⟨after, (goesOn.quietly quiet).bind later, still⟩

theorem receiveAll_whole {got : Bytes} (chunks : List Bytes) (awaits : AwaitsBody c n got s)
    (whole : n ≤ (got ++ chunks.flatten).length) :
    handedBody c ((receiveAll env c chunks).run Action.apply s).1 =
      some ((got ++ chunks.flatten).take n) := by
  induction chunks generalizing s got with
  | nil =>
      rw [List.flatten_nil, List.append_nil] at whole
      exact absurd awaits.missing (Nat.not_lt.mpr whole)
  | cons chunk chunks ih =>
      rw [List.flatten_cons, ← List.append_assoc] at whole ⊢
      obtain ⟨middle, parses, goesOn, _⟩ := receiveChunk_parses env awaits chunk
      rw [receiveAll]
      by_cases shorter : (got ++ chunk).length < n
      · obtain ⟨read, quiet, next, _⟩ := parse_part env parses shorter
        rw [handedBody_eq, (goesOn.quietly quiet).completion, ← handedBody_eq]
        exact ih next whole
      · obtain ⟨after, complete, body, _⟩ := parse_whole env parses (Nat.le_of_not_lt shorter)
        rw [← goesOn.handed] at complete
        rw [handedBody_eq, moments_bind, completion_of_first complete, Option.map_some, body,
          List.take_append_of_le_length (Nat.le_of_not_lt shorter)]

end

/-- A request whose length header says `n`: the length is kept, and behind the
blank line exactly `n` bytes become the body, unless it is refused. -/
structure TakesExactly (v : Bytes) (n : Int) : Prop where
  kept : ∀ http, Announced v http → http.contentLength = n
  whole : ∀ env c s fuel cursor raw rest chunks, Announced v (s.conns c).http →
    (s.conns c).ready = true → popLine cursor.data = some (raw, rest) → rstrip raw = [] →
    n ≤ (rest ++ chunks.flatten).length →
    handedBody c ((arriving env c (fuel + 1) cursor chunks).run Action.apply s).1 =
        some ((rest ++ chunks.flatten).take n.toNat) ∨
      RefusedBefore c ((arriving env c (fuel + 1) cursor chunks).run Action.apply s)
  part : ∀ env c s fuel cursor raw rest chunks, Announced v (s.conns c).http →
    (s.conns c).ready = true → popLine cursor.data = some (raw, rest) → rstrip raw = [] →
    ((rest ++ chunks.flatten).length : Int) < n →
    (∃ after, Quietly c (arriving env c (fuel + 1) cursor chunks) s after ∧
        (after.conns c).http.step = .readBody ∧ (after.conns c).http.body = rest ++ chunks.flatten) ∨
      RefusedBefore c ((arriving env c (fuel + 1) cursor chunks).run Action.apply s)

theorem takesExactly_of_fits {v : Bytes} {n : Int} (accepted : written v = some n) (nonnegative : 0 ≤ n)
    (small : n < 2 ^ 31) : TakesExactly v n := by
  have kept : ∀ http, Announced v http → http.contentLength = n := by
    intro http announced
    rw [announced.contentLength accepted, (i32_eq_iff n).mpr ⟨by omega, small⟩]
  have natural : (n.toNat : Int) = n := Int.toNat_of_nonneg nonnegative
  constructor
  · exact kept
  · intro env c s fuel cursor raw rest chunks announced ready popped blank enough
    have length : (s.conns c).http.contentLength = n.toNat := by rw [kept _ announced, natural]
    left
    by_cases now : n.toNat ≤ rest.length
    · obtain ⟨ended, complete, body, _⟩ :=
        blank_whole env fuel announced.step popped blank length now announced.body
      rw [handedBody_eq, arriving, moments_bind, completion_of_first complete, Option.map_some, body,
        List.take_append_of_le_length now]
    · obtain ⟨after, quiet, awaits, _⟩ := blank_part env fuel announced.step popped blank length
        (Nat.lt_of_not_le now) ready
      rw [handedBody_eq, arriving, quiet.completion, ← handedBody_eq]
      exact receiveAll_whole env chunks awaits (by omega)
  · intro env c s fuel cursor raw rest chunks announced ready popped blank less
    have length : (s.conns c).http.contentLength = n.toNat := by rw [kept _ announced, natural]
    have total : (rest ++ chunks.flatten).length < n.toNat := by omega
    have first : rest.length < n.toNat := by
      rw [List.length_append] at total
      omega
    left
    obtain ⟨after, quiet, awaits, _⟩ := blank_part env fuel announced.step popped blank length
      first ready
    obtain ⟨last, later, still⟩ := receiveAll_part env chunks awaits total
    exact ⟨last, quiet.bind later, still.step, still.body⟩

theorem digitsValue_digits {data : Bytes} {value n : Int} (found : digitsValue data value = some n) :
    ∀ a ∈ data, (digit? a).isSome := by
  induction data generalizing value with
  | nil => exact List.forall_mem_nil _
  | cons a data ih =>
      rw [digitsValue] at found
      cases isDigit : digit? a with
      | none =>
          rw [isDigit] at found
          cases found
      | some d =>
          rw [isDigit] at found
          exact List.forall_mem_cons.mpr ⟨by rw [isDigit]; rfl, ih found⟩

theorem written_last {v : Bytes} {n : Int} (accepted : written v = some n) :
    ∃ front d, v = front ++ [d] ∧ (digit? d).isSome := by
  have digits : ∃ front rest, v = front ++ rest ∧ rest ≠ [] ∧ ∀ a ∈ rest, (digit? a).isSome := by
    cases v with
    | nil => cases accepted
    | cons a rest =>
        rw [written] at accepted
        by_cases minus : a = 45
        · rw [if_pos minus] at accepted
          cases empty : rest.isEmpty with
          | true =>
              rw [empty] at accepted
              cases accepted
          | false =>
              rw [empty] at accepted
              obtain ⟨value, found, -⟩ := Option.map_eq_some_iff.mp accepted
              refine ⟨[a], rest, rfl, ?_, digitsValue_digits found⟩
              intro nothing
              rw [nothing] at empty
              cases empty
        · rw [if_neg minus] at accepted
          exact ⟨[], a :: rest, rfl, List.cons_ne_nil a rest, digitsValue_digits accepted⟩
  obtain ⟨front, rest, vEq, nonempty, isDigit⟩ := digits
  refine ⟨front ++ rest.dropLast, rest.getLast nonempty, ?_, isDigit _ (List.getLast_mem nonempty)⟩
  rw [vEq, List.append_assoc, List.dropLast_append_getLast nonempty]

theorem not_stripped_digit {a : UInt8} (isDigit : (digit? a).isSome) : stripped a = false := by
  unfold digit? at isDigit
  unfold stripped
  split at isDigit
  · rename_i range
    have different : a ≠ blank ∧ a ≠ newline ∧ a ≠ 13 := by
      refine ⟨?_, ?_, ?_⟩ <;> (intro same; rw [same] at range; revert range; decide)
    simp [different]
  · cases isDigit

/-- A head with the length header. -/
def announcing (n : Int) : Http :=
  { Http.new with
    step := .header
    contentLength := i32 n }

theorem announcing_announced {v : Bytes} {n : Int} (accepted : written v = some n) :
    Announced v (announcing n) := by
  obtain ⟨front, d, vEq, isDigit⟩ := written_last accepted
  have text : lineText (ascii "Content-Length: " ++ v) = ascii "Content-Length: " ++ v := by
    rw [lineText, rstrip_append_stripped _ (by decide), vEq, ← List.append_assoc,
      rstrip_concat _ (not_stripped_digit isDigit)]
  have isLength : announces (ascii "Content-Length: " ++ v) = true := by
    rw [announces, text]
    simp [ascii, startsWithLc, lowerCase]
  have value : (ascii "Content-Length: " ++ v).drop 16 = v := List.drop_left' (by decide)
  constructor
  · rfl
  · rfl
  · refine ⟨{ Http.new with step := .header }, ascii "Content-Length: " ++ v, [], _, isLength, by rw [text, value],
      List.forall_mem_nil _, ?_, rfl⟩
    rw [readHeaders, Http.readHeader, Http.Header.read]
    rw [announces] at isLength
    rw [if_pos isLength, text, value, atoi_of_written accepted]
    change Except.ok { Http.new with step := .header, contentLength := i32 (i64 n) } = _
    rw [i32_i64]
    rfl

/-- A server on which a head has been read whose length header says `n`. -/
def headRead (n : Int) : Server :=
  (Server.new 1 false [] 0).set 0 { Conn.new 0 ⟨false, false, false⟩ with http := announcing n }

/-- The blank line of that head. -/
def blankLine : Cursor := { place := .array, start := 0, data := [newline] }

theorem headRead_conn (n : Int) :
    (headRead n).conns 0 = { Conn.new 0 ⟨false, false, false⟩ with http := announcing n } := by
  simp [headRead, Server.set]

theorem negative_faults {n : Int} (negative : n < 0) (large : -2 ^ 31 ≤ n) (chunks : List Bytes) :
    (arriving atRest 0 1 blankLine chunks).run Action.apply (headRead n) = ([], .fault) := by
  have length : ((headRead n).conns 0).http.contentLength < 0 := by
    rw [headRead_conn]
    change i32 n < 0
    rw [(i32_eq_iff n).mpr ⟨large, by omega⟩]
    exact negative
  have step : ((headRead n).conns 0).http.step = .header := by
    rw [headRead_conn]
    rfl
  have popped : popLine blankLine.data = some ([newline], []) := rfl
  have empty : rstrip [newline] = [] := by decide
  have faults : (readLines atRest (headerCompleted atRest 0) 0 1 blankLine).run Action.apply (headRead n) =
      ([], .fault) := by
    rw [readLines, popped]
    simp only [empty, List.isEmpty_nil, if_true]
    rw [run_get_bind]
    simp only [step, ne_eq, not_true_eq_false, if_false, if_pos length]
    rfl
  refine Prod.ext ?_ ?_
  · rw [arriving, moments_bind, outcome, faults]
    rfl
  · change (arriving atRest 0 1 blankLine chunks).outcome Action.apply (headRead n) = _
    rw [arriving, outcome_bind, outcome, faults]
    rfl

/-- `on_recv` takes the length a request announces, or refuses the request,
exactly when that length is not negative and fits an `int`. -/
theorem takesExactly_iff {v : Bytes} {n : Int} (accepted : written v = some n) :
    TakesExactly v n ↔ 0 ≤ n ∧ n < 2 ^ 31 := by
  constructor
  · intro exactly
    have announced := announcing_announced accepted
    have fits : -2 ^ 31 ≤ n ∧ n < 2 ^ 31 := (i32_eq_iff n).mp (exactly.kept _ announced)
    refine ⟨?_, fits.2⟩
    by_contra negative
    have head : Announced v ((headRead n).conns 0).http := by
      rw [headRead_conn]
      exact announced
    have ready : ((headRead n).conns 0).ready = true := by
      rw [headRead_conn]
      rfl
    have given := exactly.whole atRest 0 (headRead n) 0 blankLine [newline] [] [] head ready rfl
      (by decide) (by simpa using Int.le_of_lt (Int.not_le.mp negative))
    rw [Nat.zero_add, negative_faults (Int.not_le.mp negative) fits.1] at given
    rcases given with taken | ⟨_, ⟨error, after, thrown⟩ | ⟨moment, member, _⟩⟩
    · cases taken
    · cases thrown
    · cases member
  · intro range
    exact takesExactly_of_fits accepted range.1 range.2

/-- A length of three. -/
theorem takesExactly_three : written (ascii "3") = some 3 ∧ (TakesExactly (ascii "3") 3 ↔
    (0 : Int) ≤ 3 ∧ (3 : Int) < 2 ^ 31) :=
  ⟨by decide, takesExactly_iff (by decide)⟩

/-- The length 2 ^ 32 + 1 is kept as one, and one byte becomes the body. -/
theorem length_wraps : ¬ ∀ v n, written v = some n → TakesExactly v n := by
  intro always
  have accepted : written (ascii "4294967297") = some 4294967297 := by decide
  have kept := (always _ _ accepted).kept _ (announcing_announced accepted)
  exact absurd kept (by decide)

end Ijson
