/-
`on_recv` on one chunk of a stream.

An unfinished line is kept in `buffer`.  When the next chunk does not complete
the head, the bytes of `buffer` stay there although their lines have been read,
and the rest of the data is appended to them once more.
-/

import Ijson.Lines

namespace Ijson

open Program Routine

/-- A chunk as the loop receives it. -/
def receiveChunk (env : Env) (completed : Routine Unit) (c : ConnId) (chunk : Bytes) :
    Routine Unit := do
  let s ← get
  perform (.receive (s.conns c).nloop chunk)
  onRecvWith env completed c chunk

/-- The bytes connection `c` has taken and those it keeps for later. -/
def accounted (c : ConnId) (s : Server) : Bytes :=
  takenOf c s.log ++ (s.conns c).http.buffer.contents

/-- Between two chunks: `pending` is the unfinished line in the buffer. -/
structure Waits (rs : List RawRequest) (base : Bytes) (handed : List Request) (c : ConnId)
    (s : Server) (fed : Bytes) (position : Position) (pending : Bytes) : Prop where
  standing : Standing rs base handed c s position
  fits : (s.conns c).http.buffer.Fits
  contents : (s.conns c).http.buffer.contents = pending
  plain : newline ∉ pending
  lines : position.readsLines ∨ pending = []
  taken : takenOf c s.log ++ pending = base ++ fed

section

variable {rs : List RawRequest} {base : Bytes} {handed : List Request} {c : ConnId} {s : Server}
  {env : Env} {completed : Routine Unit} {fed chunk future : Bytes} {position : Position}
  {pending : Bytes}

/-- Fields that `Standing` does not speak of may change. -/
theorem Standing.edit (standing : Standing rs base handed c s position) (after : Server)
    (change : Http → Http) (conn : after.conns c = { s.conns c with http := change (s.conns c).http })
    (log : after.log = s.log ++ [.taken c []])
    (step : (change (s.conns c).http).step = (s.conns c).http.step)
    (same : (change (s.conns c).http).Same (s.conns c).http) :
    Standing rs base handed c after position := by
  obtain ⟨taken, takenEq, located⟩ := standing.located
  have calm := standing.calm
  have requestSame : (after.conns c).http.request = (s.conns c).http.request := by
    rw [conn]
    exact same.1
  have lengthSame : (after.conns c).http.contentLength = (s.conns c).http.contentLength := by
    rw [conn]
    exact same.2
  have stepSame : (after.conns c).http.step = (s.conns c).http.step := by
    rw [conn]
    exact step
  exact
    { calm :=
        { status := by rw [conn]; exact calm.status
          mode := by rw [conn]; exact calm.mode
          client := by rw [conn]; exact calm.client
          opened := by rw [conn]; exact calm.opened }
      valid := standing.valid
      stands := by
        have stands := standing.stands
        cases position with
        | between rest => exact stepSame.trans stands
        | inHead r http lines rest =>
            exact ⟨stepSame.trans stands.1, requestSame.trans stands.2.1,
              lengthSame.trans stands.2.2⟩
        | inBody r missing rest =>
            obtain ⟨stepEq, lengthEq, bodyEq, requestEq⟩ := stands
            have bodySame : (after.conns c).http.body = (s.conns c).http.body :=
              congrArg Request.body requestSame
            exact ⟨stepSame.trans stepEq, lengthSame.trans lengthEq, by rw [bodySame]; exact bodyEq,
              by rw [requestSame]; exact requestEq⟩
      located := ⟨taken, by rw [log, takenOf_append, takenOf_taken, List.append_nil, takenEq], located⟩
      requests := by
        rw [log, requestsOf_append, requestsOf_taken, List.append_nil]
        exact standing.requests }

theorem Standing.congr (standing : Standing rs base handed c s position) {after : Server}
    (conn : after.conns c = s.conns c) (log : after.log = s.log) :
    Standing rs base handed c after position := by
  exact
    { calm := by rw [conn]; exact standing.calm
      valid := standing.valid
      stands := by rw [conn]; exact standing.stands
      located := by rw [log]; exact standing.located
      requests := by rw [log]; exact standing.requests }

theorem Standing.taken_eq (standing : Standing rs base handed c s position) {after : Server}
    {next : Position} (afterStanding : Standing rs base handed c after next) {data left : Bytes}
    (before : position.rest = data ++ future) (behind : next.rest = left ++ future) :
    takenOf c after.log ++ left = takenOf c s.log ++ data := by
  obtain ⟨taken, takenEq, located⟩ := standing.located
  obtain ⟨later, laterEq, laterLocated⟩ := afterStanding.located
  have total := located.total
  rw [← laterLocated.total, before, behind, ← List.append_assoc, ← List.append_assoc] at total
  rw [takenEq, laterEq, List.append_assoc, List.append_assoc, List.append_cancel_right total]

theorem keepRest_outcome (standing : Standing rs base handed c s position) {place : Place}
    (start : Nat) (left : Bytes) {kept : Buffer}
    (keeps : place = .array ∧ kept = (s.conns c).http.buffer.add left ∨
      ∃ n, place = .block n ∧ (s.conns c).http.buffer.addOwn left = some kept) :
    ∃ after, (keepRest c ⟨place, start, left⟩).outcome Action.apply s = .returned after () ∧
      Standing rs base handed c after position ∧ (after.conns c).http.buffer = kept ∧
      takenOf c after.log = takenOf c s.log := by
  cases keeps with
  | inl array =>
      obtain ⟨rfl, rfl⟩ := array
      refine ⟨(s.note (.taken c [])).modify c fun conn =>
        { conn with http := { conn.http with buffer := conn.http.buffer.add left } }, rfl,
        standing.edit _ (fun http => { http with buffer := http.buffer.add left }) ?_ rfl rfl
          ⟨rfl, rfl⟩, ?_, ?_⟩
      · simp only [Server.modify_self, Server.note_conns]
      · simp only [Server.modify_self, Server.note_conns]
      · simp
  | inr block =>
      obtain ⟨n, rfl, keptEq⟩ := block
      refine ⟨(s.note (.taken c [])).modify c fun conn =>
        { conn with http := { conn.http with buffer := kept } }, ?_,
        standing.edit _ (fun http => { http with buffer := kept }) ?_ rfl rfl ⟨rfl, rfl⟩,
        ?_, ?_⟩
      · simp only [keepRest, outcome_bind, outcome_get, Outcome.bind, keptEq, outcome_perform,
          Action.apply]
      · simp only [Server.modify_self, Server.note_conns]
      · simp only [Server.modify_self]
      · simp

theorem readLines_array (answers : AnswersAtOnce completed c (rs.map RawRequest.request))
    (standing : Standing rs base handed c s position) (reads : position.readsLines)
    (fits : (s.conns c).http.buffer.Fits) (empty : (s.conns c).http.buffer.contents = [])
    (start : Nat) {data : Bytes} (streamEq : position.rest = data ++ future) :
    ∃ after next left, (readLines env completed c (data.length + 1) ⟨.array, start, data⟩).outcome
        Action.apply s = .returned after () ∧
      Standing rs base handed c after next ∧ next.rest = left ++ future ∧
      (after.conns c).http.buffer.Fits ∧ (after.conns c).http.buffer.contents = left ∧
      newline ∉ left ∧ (next.readsLines ∨ left = []) := by
  obtain ⟨middle, next, left, middleStanding, restEq, _, ends, buffers⟩ :=
    readLines_spec env answers (data.length + 1) ⟨.array, start, data⟩ position standing
      reads streamEq.symm (Nat.lt_succ_self _)
  have middleBuffer : (middle.conns c).http.buffer.Fits ∧
      (middle.conns c).http.buffer.contents = [] := by
    cases buffers with
    | inl kept => rw [kept.2.2.2]; exact ⟨fits, empty⟩
    | inr cleared => rw [cleared.2]; exact ⟨Buffer.clear_fits fits, rfl⟩
  cases ends with
  | inl returned =>
      obtain ⟨rfl, outcomeEq⟩ := returned
      exact ⟨middle, next, [], outcomeEq, middleStanding, restEq, middleBuffer.1, middleBuffer.2,
        List.not_mem_nil, .inr rfl⟩
  | inr keeps =>
      obtain ⟨plain, nextReads, from', outcomeEq⟩ := keeps
      obtain ⟨after, keepEq, afterStanding, bufferEq, _⟩ :=
        keepRest_outcome middleStanding from' left (.inl ⟨rfl, rfl⟩)
      refine ⟨after, next, left, outcomeEq.trans keepEq, afterStanding, restEq, ?_, ?_, plain,
        .inl nextReads⟩
      · rw [bufferEq]
        exact Buffer.add_fits middleBuffer.1 left
      · rw [bufferEq, Buffer.add_contents middleBuffer.1, middleBuffer.2, List.nil_append]

/-- The loop on the connection's own buffer, when it completes the head. -/
theorem readLines_block (answers : AnswersAtOnce completed c (rs.map RawRequest.request))
    (standing : Standing rs base handed c s position) (reads : position.readsLines)
    {buffer : Buffer} (bufferEq : (s.conns c).http.buffer = buffer) (fits : buffer.Fits)
    (allocated : buffer.block ≠ 0) (streamEq : position.rest = buffer.contents ++ future)
    (completes : ¬ HeadOpen position buffer.contents) :
    ∃ after next left, (readLines env completed c (buffer.contents.length + 1)
        ⟨.block buffer.block, 0, buffer.contents⟩).outcome Action.apply s = .returned after () ∧
      Standing rs base handed c after next ∧ next.rest = left ++ future ∧
      (after.conns c).http.buffer.Fits ∧ (after.conns c).http.buffer.contents = left ∧
      newline ∉ left ∧ (next.readsLines ∨ left = []) := by
  obtain ⟨middle, next, left, middleStanding, restEq, within, ends, buffers⟩ :=
    readLines_spec env answers (buffer.contents.length + 1)
      ⟨.block buffer.block, 0, buffer.contents⟩ position standing reads streamEq.symm
      (Nat.lt_succ_self _)
  have cleared : (middle.conns c).http.buffer = buffer.clear := by
    cases buffers with
    | inl kept => exact absurd kept.1 completes
    | inr cleared => rw [cleared.2, bufferEq]
  cases ends with
  | inl returned =>
      obtain ⟨rfl, outcomeEq⟩ := returned
      refine ⟨middle, next, [], outcomeEq, middleStanding, restEq, ?_, ?_, List.not_mem_nil, .inr rfl⟩
      · rw [cleared]
        exact Buffer.clear_fits fits
      · rw [cleared, Buffer.clear_contents]
  | inr keeps =>
      obtain ⟨plain, nextReads, from', outcomeEq⟩ := keeps
      have small : left.length ≤ buffer.size := by
        rw [← Buffer.contents_length fits]
        exact within
      obtain ⟨kept, keptEq, contentsEq, keptFits⟩ := Buffer.addOwn_clear fits allocated small
      rw [← cleared] at keptEq
      obtain ⟨after, keepEq, afterStanding, afterBuffer, _⟩ :=
        keepRest_outcome middleStanding from' left (.inr ⟨buffer.block, rfl, keptEq⟩)
      refine ⟨after, next, left, outcomeEq.trans keepEq, afterStanding, restEq, ?_, ?_, plain,
        .inl nextReads⟩
      · rw [afterBuffer]
        exact keptFits
      · rw [afterBuffer]
        exact contentsEq

/-- The loop on the connection's own buffer, when it leaves the head open: the
bytes whose lines were read stay in the buffer. -/
theorem readLines_block_open (answers : AnswersAtOnce completed c (rs.map RawRequest.request))
    (standing : Standing rs base handed c s position) (reads : position.readsLines)
    {buffer : Buffer} (bufferEq : (s.conns c).http.buffer = buffer) (fits : buffer.Fits)
    (nonempty : buffer.contents ≠ []) (streamEq : position.rest = buffer.contents ++ future)
    (staysOpen : HeadOpen position buffer.contents) :
    ∀ after, (readLines env completed c (buffer.contents.length + 1)
        ⟨.block buffer.block, 0, buffer.contents⟩).outcome Action.apply s = .returned after () →
      (takenOf c s.log ++ buffer.contents).length < (accounted c after).length := by
  obtain ⟨middle, next, left, middleStanding, restEq, _, ends, buffers⟩ :=
    readLines_spec env answers (buffer.contents.length + 1)
      ⟨.block buffer.block, 0, buffer.contents⟩ position standing reads streamEq.symm
      (Nat.lt_succ_self _)
  have unchanged : (middle.conns c).http.buffer = buffer := by
    cases buffers with
    | inl kept => rw [kept.2.2.2, bufferEq]
    | inr cleared => exact absurd staysOpen cleared.1
  have takenEq := standing.taken_eq middleStanding streamEq restEq
  have positive : 0 < buffer.contents.length := List.length_pos_iff.mpr nonempty
  intro after outcomeEq
  cases ends with
  | inl returned =>
      obtain ⟨rfl, returnedEq⟩ := returned
      rw [returnedEq, Outcome.returned.injEq] at outcomeEq
      obtain ⟨rfl, _⟩ := outcomeEq
      rw [List.append_nil] at takenEq
      rw [accounted, takenEq, unchanged]
      simp only [List.length_append]
      omega
  | inr keeps =>
      obtain ⟨_, _, from', keepsEq⟩ := keeps
      rw [keepsEq] at outcomeEq
      cases addEq : buffer.addOwn left with
      | none =>
          simp only [keepRest, outcome_bind, outcome_get, Outcome.bind, unchanged, addEq,
            outcome_fault] at outcomeEq
          cases outcomeEq
      | some kept =>
          obtain ⟨final, keepEq, _, finalBuffer, finalTaken⟩ :=
            keepRest_outcome middleStanding from' left
              (.inr ⟨buffer.block, rfl, by rw [unchanged]; exact addEq⟩)
          rw [keepEq, Outcome.returned.injEq] at outcomeEq
          obtain ⟨rfl, _⟩ := outcomeEq
          rw [accounted, finalBuffer, finalTaken, Buffer.addOwn_contents fits addEq, ← takenEq]
          simp only [List.length_append]
          omega

theorem parse_lines (standing : Standing rs base handed c s position) (reads : position.readsLines)
    (cursor : Cursor) :
    (parse env completed c cursor).outcome Action.apply s =
      (readLines env completed c (cursor.data.length + 1) cursor).outcome Action.apply s := by
  have step : (s.conns c).http.step ≠ .readBody := by
    have stands := standing.stands
    cases position with
    | between rest =>
        have startStep : (s.conns c).http.step = .start := stands
        rw [startStep]
        exact HttpStep.noConfusion
    | inHead r http lines rest =>
        rw [stands.1]
        exact HttpStep.noConfusion
    | inBody r missing rest => exact absurd reads id
  simp only [parse, outcome_bind, outcome_get, Outcome.bind, if_neg step]

/-- `on_recv` in a body, on a chunk in the receive array. -/
theorem parse_body (answers : AnswersAtOnce completed c (rs.map RawRequest.request))
    {r : RawRequest} {missing : Bytes} {rest : List RawRequest}
    (standing : Standing rs base handed c s (.inBody r missing rest))
    (fits : (s.conns c).http.buffer.Fits) (empty : (s.conns c).http.buffer.contents = [])
    {data : Bytes} (streamEq : (Position.inBody r missing rest).rest = data ++ future) :
    ∃ after next left, (parse env completed c ⟨.array, 0, data⟩).outcome Action.apply s =
        .returned after () ∧
      Standing rs base handed c after next ∧ next.rest = left ++ future ∧
      (after.conns c).http.buffer.Fits ∧ (after.conns c).http.buffer.contents = left ∧
      newline ∉ left ∧ (next.readsLines ∨ left = []) := by
  obtain ⟨wellFormed, others, nonempty, _⟩ := standing.valid
  obtain ⟨stepEq, lengthEq, bodyEq, requestEq⟩ := standing.stands
  obtain ⟨taken, takenEq, done, got, split, locatedEq, gotEq⟩ := standing.located
  obtain ⟨status, mode, client, opened⟩ := standing.calm
  have missingEq : (s.conns c).http.contentLength - (s.conns c).http.body.length =
      missing.length := by
    rw [lengthEq, bodyEq, List.length_append]
    omega
  have nonnegative : ¬ ((missing.length : Int) < 0) := Int.not_lt.mpr (Int.natCast_nonneg _)
  by_cases shorter : data.length < missing.length
  · -- the body goes on after this chunk
    have part : data <+: missing := by
      apply List.prefix_of_prefix_length_le (List.prefix_append data future) _ (Nat.le_of_lt shorter)
      rw [← streamEq]
      exact List.prefix_append missing _
    obtain ⟨later, rfl⟩ := part
    have laterNonempty : later ≠ [] := by
      intro nothing
      rw [nothing, List.append_nil] at shorter
      exact Nat.lt_irrefl _ shorter
    have futureEq : later ++ streamBytes rest = future := by
      rw [Position.rest, List.append_assoc] at streamEq
      exact List.append_cancel_left streamEq
    refine ⟨(s.note (.taken c data)).modify c fun conn =>
        { conn with http := { conn.http with
          body := conn.http.body ++ data, buffer := conn.http.buffer.clear } },
      .inBody r later rest, [], ?_, ?_, futureEq, ?_, ?_, List.not_mem_nil, .inr rfl⟩
    · simp only [parse, outcome_bind, outcome_get, Outcome.bind, stepEq, if_true, missingEq,
        if_neg nonnegative, Int.toNat_natCast, gt_iff_lt, if_pos shorter, outcome_perform,
        Action.apply]
    · exact
        { calm :=
            { status := by simpa using status
              mode := by simpa using mode
              client := by simpa using client
              opened := by simpa using opened }
          valid := ⟨wellFormed, others, laterNonempty, got ++ data, by rw [gotEq, List.append_assoc]⟩
          stands := by
            rw [Server.modify_self]
            refine ⟨stepEq, lengthEq, ?_, requestEq⟩
            rw [bodyEq, List.append_assoc]
            rfl
          located := by
            refine ⟨taken ++ data, ?_, done, got ++ data, split, ?_, ?_⟩
            · simp only [Server.modify_log, Server.note_log, takenOf_append, takenOf_taken, takenEq,
                List.append_assoc]
            · rw [locatedEq, List.append_assoc _ got]
            · rw [gotEq, List.append_assoc]
          requests := by
            simp only [Server.modify_log, Server.note_log, requestsOf_append, requestsOf_taken,
              List.append_nil]
            exact standing.requests }
    · rw [Server.modify_self]
      exact Buffer.clear_fits fits
    · rw [Server.modify_self]
      exact Buffer.clear_contents _
  · -- the body is complete, and what follows it is read line by line
    have whole : missing <+: data := by
      apply List.prefix_of_prefix_length_le _ (List.prefix_append data future)
        (Nat.le_of_not_lt shorter)
      rw [← streamEq]
      exact List.prefix_append missing _
    obtain ⟨more, rfl⟩ := whole
    have restEq : (Position.between rest).rest = more ++ future := by
      rw [Position.rest, List.append_assoc] at streamEq
      exact List.append_cancel_left streamEq
    obtain ⟨full, fullEq⟩ : ∃ full, full = (s.note (.taken c missing)).modify c fun conn =>
        { conn with http := { conn.http with body := conn.http.body ++ missing } } := ⟨_, rfl⟩
    have fullCalm : Calm (full.conns c) := by
      rw [fullEq]
      exact
        { status := by simpa using status
          mode := by simpa using mode
          client := by simpa using client
          opened := by simpa using opened }
    have fullRequest : (full.conns c).http.request = r.request := by
      rw [← requestEq, fullEq, Server.modify_self]
      simp only [Http.request, Server.note_conns, bodyEq]
    have known : (full.conns c).http.request ∈ rs.map RawRequest.request := by
      rw [fullRequest, split]
      exact List.mem_map_of_mem (List.mem_append_right done List.mem_cons_self)
    obtain ⟨answered, answerEq, effect⟩ := answering_outcome answers fullCalm known
    obtain ⟨middle, rewindEq, rewound, sameBuffer⟩ :=
      rewind_standing rs base handed rest effect.calm others
        ⟨taken ++ missing, by
            rw [effect.taken, fullEq]
            simp only [Server.modify_log, Server.note_log, takenOf_append, takenOf_taken, takenEq,
              List.append_assoc],
          done ++ [r], by rw [split, List.append_assoc]; rfl, by
            rw [locatedEq]
            simp [streamBytes, RawRequest.bytes, gotEq]⟩
        (by
          rw [effect.requests, fullRequest, fullEq]
          simp only [Server.modify_log, Server.note_log, requestsOf_append, requestsOf_taken,
            List.append_nil]
          rw [List.append_assoc]
          exact standing.requests)
    have middleBuffer : (middle.conns c).http.buffer = (s.conns c).http.buffer := by
      rw [sameBuffer, effect.buffer, fullEq, Server.modify_self]
      rfl
    have parsed : (parse env completed c ⟨.array, 0, missing ++ more⟩).outcome Action.apply s =
        if more = [] then .returned middle ()
        else (readLines env completed c (more.length + 1) ⟨.array, 0 + missing.length, more⟩).outcome
          Action.apply middle := by
      have editEq : Action.apply (.edit c missing fun http =>
          { http with body := http.body ++ missing }) s = .returned full () := by
        rw [fullEq]
        rfl
      simp only [parse, outcome_bind, outcome_get, Outcome.bind, stepEq, if_true, missingEq,
        if_neg nonnegative, Int.toNat_natCast, gt_iff_lt, if_neg shorter, outcome_perform,
        List.take_left, List.drop_left, editEq, answerEq, rewindEq]
      cases more with
      | nil => rfl
      | cons a more => rfl
    rw [parsed]
    by_cases nothing : more = []
    · subst nothing
      rw [if_pos rfl]
      refine ⟨middle, _, [], rfl, rewound, restEq, ?_, ?_, List.not_mem_nil, .inr rfl⟩
      · rw [middleBuffer]
        exact fits
      · rw [middleBuffer, empty]
    · rw [if_neg nothing]
      exact readLines_array answers rewound trivial (by rw [middleBuffer]; exact fits)
        (by rw [middleBuffer]; exact empty) _ restEq

/-- `on_recv` has come to the parser: the chunk stands behind the kept bytes. -/
def Positioned (rs : List RawRequest) (base : Bytes) (handed : List Request) (c : ConnId)
    (position : Position) (pending chunk : Bytes) (middle : Server) (cursor : Cursor) : Prop :=
  Standing rs base handed c middle position ∧ (middle.conns c).http.buffer.Fits ∧
    (pending = [] ∧ cursor = ⟨.array, 0, chunk⟩ ∧ (middle.conns c).http.buffer.contents = [] ∨
      pending ≠ [] ∧ (middle.conns c).http.buffer.block ≠ 0 ∧
        (middle.conns c).http.buffer.contents = pending ++ chunk ∧
        cursor = ⟨.block (middle.conns c).http.buffer.block, 0, pending ++ chunk⟩)

theorem storeOrParse_outcome (env : Env) (completed : Routine Unit) (chunk pending : Bytes)
    (standing : Standing rs base handed c s position)
    (fits : (s.conns c).http.buffer.Fits) (contents : (s.conns c).http.buffer.contents = pending) :
    ∃ middle cursor, (storeOrParse env completed c chunk).outcome Action.apply s =
        (parse env completed c cursor).outcome Action.apply middle ∧
      takenOf c middle.log = takenOf c s.log ∧
      Positioned rs base handed c position pending chunk middle cursor := by
  have ready : (!(s.conns c).ready) = false := by
    simp [Conn.ready, standing.calm.status]
  have sizeEq : (s.conns c).http.buffer.size = pending.length := by
    rw [← Buffer.contents_length fits, contents]
  by_cases nothing : pending = []
  · have sizeZero : (s.conns c).http.buffer.size = 0 := by rw [sizeEq, nothing, List.length_nil]
    refine ⟨s, ⟨.array, 0, chunk⟩, ?_, rfl, standing, fits, .inl ⟨nothing, rfl, by rw [contents, nothing]⟩⟩
    simp only [storeOrParse, outcome_bind, outcome_get, Outcome.bind, ready, Bool.false_eq_true,
      if_false, sizeZero, ne_eq, not_true_eq_false]
  · have sizePositive : (s.conns c).http.buffer.size ≠ 0 := by
      rw [sizeEq]
      exact fun zero => nothing (List.length_eq_zero_iff.mp zero)
    obtain ⟨added, addedEq⟩ : ∃ added, added = (s.conns c).http.buffer.add chunk := ⟨_, rfl⟩
    have contentsEq : added.contents = pending ++ chunk := by
      rw [addedEq, Buffer.add_contents fits, contents]
    refine ⟨(s.note (.taken c [])).modify c fun conn =>
        { conn with http := { conn.http with buffer := conn.http.buffer.add chunk } },
      ⟨.block added.block, 0, pending ++ chunk⟩, ?_, ?_,
      standing.edit _ (fun http => { http with buffer := http.buffer.add chunk })
        (by simp only [Server.modify_self, Server.note_conns]) rfl rfl ⟨rfl, rfl⟩, ?_,
      .inr ⟨nothing, ?_⟩⟩
    · simp only [storeOrParse, outcome_bind, outcome_get, Outcome.bind, ready, Bool.false_eq_true,
        if_false, ne_eq, sizePositive, not_false_eq_true, if_true, outcome_perform, Action.apply,
        Server.modify_self, Server.note_conns, ← addedEq, contentsEq]
    · rw [Server.modify_log, Server.note_log, takenOf_append, takenOf_taken, List.append_nil]
    · simp only [Server.modify_self, Server.note_conns]
      exact Buffer.add_fits fits chunk
    · simp only [Server.modify_self, Server.note_conns, ← addedEq]
      refine ⟨?_, contentsEq, trivial⟩
      rw [addedEq]
      exact Buffer.add_block _ _

theorem receiveChunk_outcome (env : Env) (completed : Routine Unit) (chunk : Bytes)
    (waits : Waits rs base handed c s fed position pending) :
    ∃ middle cursor, (receiveChunk env completed c chunk).outcome Action.apply s =
        (parse env completed c cursor).outcome Action.apply middle ∧
      takenOf c middle.log = takenOf c s.log ∧
      Positioned rs base handed c position pending chunk middle cursor := by
  obtain ⟨received, applyEq, connsEq, logEq⟩ : ∃ received,
      (Action.receive (s.conns c).nloop chunk).apply s = .returned received () ∧
      received.conns = s.conns ∧ received.log = s.log := ⟨_, rfl, rfl, rfl⟩
  have standing : Standing rs base handed c received position :=
    waits.standing.congr (by rw [connsEq]) logEq
  by_cases ping : (received.conns c).http.ping ≠ 0
  · -- the deadline of the ping is moved first
    have pinged := standing.edit
      ((received.note (.taken c [])).modify c fun conn => { conn with http :=
        { conn.http with
          pingTimeout := u32 (env.now received.tick + (received.conns c).http.ping) } })
      (fun http => { http with
        pingTimeout := u32 (env.now received.tick + (received.conns c).http.ping) })
      (by simp only [Server.modify_self, Server.note_conns]) rfl rfl ⟨rfl, rfl⟩
    obtain ⟨middle, cursor, outcomeEq, takenEq, positioned⟩ :=
      storeOrParse_outcome env completed chunk pending pinged
        (by simp only [Server.modify_self, Server.note_conns, connsEq]; exact waits.fits)
        (by simp only [Server.modify_self, Server.note_conns, connsEq]; exact waits.contents)
    refine ⟨middle, cursor, ?_, ?_, positioned⟩
    · rw [← outcomeEq]
      simp only [receiveChunk, onRecvWith, outcome_bind, outcome_get, outcome_perform, applyEq,
        Outcome.bind]
      rw [if_pos ping, outcome_bind, outcome_perform]
      rfl
    · rw [takenEq, Server.modify_log, Server.note_log, takenOf_append, takenOf_taken,
        List.append_nil, logEq]
  · obtain ⟨middle, cursor, outcomeEq, takenEq, positioned⟩ :=
      storeOrParse_outcome env completed chunk pending standing
        (by rw [connsEq]; exact waits.fits) (by rw [connsEq]; exact waits.contents)
    refine ⟨middle, cursor, ?_, by rw [takenEq, logEq], positioned⟩
    rw [← outcomeEq]
    simp only [receiveChunk, onRecvWith, outcome_bind, outcome_get, outcome_perform, applyEq,
      Outcome.bind, if_neg ping]

theorem Waits.rest_eq (waits : Waits rs base handed c s fed position pending)
    (streamEq : fed ++ chunk ++ future = streamBytes rs) :
    position.rest = pending ++ chunk ++ future := by
  obtain ⟨taken, takenEq, located⟩ := waits.standing.located
  have fedEq : taken ++ pending = fed := by
    have total := waits.taken
    rw [takenEq, List.append_assoc] at total
    exact List.append_cancel_left total
  have total := located.total
  rw [← streamEq, ← fedEq, List.append_assoc, List.append_assoc] at total
  rw [List.append_cancel_left total, List.append_assoc]

/-- A chunk that does not stop short of the head behind an unfinished line. -/
theorem receiveChunk_waits (env : Env)
    (answers : AnswersAtOnce completed c (rs.map RawRequest.request))
    (waits : Waits rs base handed c s fed position pending)
    (streamEq : fed ++ chunk ++ future = streamBytes rs)
    (completes : pending = [] ∨ ¬ HeadOpen position (pending ++ chunk)) :
    ∃ after next left, (receiveChunk env completed c chunk).outcome Action.apply s =
        .returned after () ∧ Waits rs base handed c after (fed ++ chunk) next left := by
  have restEq := waits.rest_eq streamEq
  obtain ⟨middle, cursor, outcomeEq, takenEq, standing, fits, stored⟩ :=
    receiveChunk_outcome env completed chunk waits
  have parsed : ∃ after next left, (parse env completed c cursor).outcome Action.apply middle =
        .returned after () ∧
      Standing rs base handed c after next ∧ next.rest = left ++ future ∧
      (after.conns c).http.buffer.Fits ∧ (after.conns c).http.buffer.contents = left ∧
      newline ∉ left ∧ (next.readsLines ∨ left = []) := by
    cases stored with
    | inl array =>
        obtain ⟨nothing, rfl, empty⟩ := array
        rw [nothing, List.nil_append] at restEq
        cases position with
        | inBody r missing rest => exact parse_body answers standing fits empty restEq
        | between rest =>
            rw [parse_lines standing trivial]
            exact readLines_array answers standing trivial fits empty 0 restEq
        | inHead r http lines rest =>
            rw [parse_lines standing trivial]
            exact readLines_array answers standing trivial fits empty 0 restEq
    | inr block =>
        obtain ⟨present, allocated, contentsEq, rfl⟩ := block
        have reads : position.readsLines := waits.lines.resolve_right present
        rw [parse_lines standing reads, ← contentsEq]
        rw [← contentsEq] at restEq completes
        exact readLines_block answers standing reads rfl fits allocated restEq
          (completes.resolve_left present)
  obtain ⟨after, next, left, parseEq, afterStanding, behind, afterFits, afterContents, plain, lines⟩ :=
    parsed
  refine ⟨after, next, left, outcomeEq.trans parseEq, ?_⟩
  exact
    { standing := afterStanding
      fits := afterFits
      contents := afterContents
      plain := plain
      lines := lines
      taken := by
        rw [standing.taken_eq afterStanding restEq behind, takenEq, ← List.append_assoc,
          waits.taken, List.append_assoc] }

/-- A chunk that does: more bytes are taken or kept than there were. -/
theorem receiveChunk_overcounts (env : Env)
    (answers : AnswersAtOnce completed c (rs.map RawRequest.request))
    (waits : Waits rs base handed c s fed position pending)
    (streamEq : fed ++ chunk ++ future = streamBytes rs) (present : pending ≠ [])
    (staysOpen : HeadOpen position (pending ++ chunk)) {after : Server}
    (outcomeEq : (receiveChunk env completed c chunk).outcome Action.apply s = .returned after ()) :
    (base ++ fed ++ chunk).length < (accounted c after).length := by
  have restEq := waits.rest_eq streamEq
  obtain ⟨middle, cursor, parseEq, takenEq, standing, fits, stored⟩ :=
    receiveChunk_outcome env completed chunk waits
  have reads : position.readsLines := waits.lines.resolve_right present
  cases stored with
  | inl array => exact absurd array.1 present
  | inr block =>
      obtain ⟨_, allocated, contentsEq, rfl⟩ := block
      rw [parseEq, parse_lines standing reads, ← contentsEq] at outcomeEq
      rw [← contentsEq] at restEq staysOpen
      have nonempty : (middle.conns c).http.buffer.contents ≠ [] := by
        rw [contentsEq]
        exact List.append_ne_nil_of_left_ne_nil present chunk
      have longer := readLines_block_open answers standing reads rfl fits nonempty restEq staysOpen
        after outcomeEq
      rw [contentsEq, takenEq, ← List.append_assoc, waits.taken] at longer
      exact longer

end

end Ijson
