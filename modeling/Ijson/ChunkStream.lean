/-
Cutting a stream of requests into chunks.

The chunks are read like the whole stream exactly when every chunk that follows
an unfinished line of a head completes that head.
-/

import Ijson.Chunks

namespace Ijson

open Program Routine

/-- Chunks one after another; `none` when `on_recv` throws or faults. -/
def feed (completed : Env → Routine Unit) (c : ConnId) : List (Env × Bytes) → Server → Option Server
  | [], s => some s
  | (env, chunk) :: rest, s =>
      match (receiveChunk env (completed env) c chunk).outcome Action.apply s with
      | .returned after _ => feed completed c rest after
      | _ => none

def fedBytes (chunks : List (Env × Bytes)) : Bytes := (chunks.map Prod.snd).flatten

/-- Fed with the chunks, the connection hands over the same requests as fed
with the whole stream, and at every cut each byte has been taken once or is
kept once, in order. -/
structure FedAlike (completed : Env → Routine Unit) (c : ConnId) (s : Server)
    (chunks : List (Env × Bytes)) : Prop where
  same : ∀ env, ∃ after whole, feed completed c chunks s = some after ∧
    feed completed c [(env, fedBytes chunks)] s = some whole ∧
    requestsOf c after.log = requestsOf c whole.log
  exact : ∀ before rest, chunks = before ++ rest → ∃ middle, feed completed c before s = some middle ∧
    accounted c middle = accounted c s ++ fedBytes before

/-- If the bytes fed so far end inside a line of a head, the chunk contains the
rest of that head. -/
def HeadKept (rs : List RawRequest) (fed chunk : Bytes) : Prop :=
  ∀ done r rest piece, rs = done ++ r :: rest → fed = streamBytes done ++ piece →
    piece <+: r.head → piece ≠ [] → ¬ [newline] <:+ piece →
    streamBytes done ++ r.head <+: fed ++ chunk

def HeadsKept (rs : List RawRequest) (fed : Bytes) (chunks : List (Env × Bytes)) : Prop :=
  ∀ before env chunk after, chunks = before ++ (env, chunk) :: after →
    HeadKept rs (fed ++ fedBytes before) chunk

/-- A connection that has just been accepted or has answered everything. -/
structure Fresh (conn : Conn) : Prop where
  calm : Calm conn
  step : conn.http.step = .start
  fits : conn.http.buffer.Fits
  empty : conn.http.buffer.contents = []

section

variable {rs : List RawRequest} {base : Bytes} {handed : List Request} {c : ConnId} {s : Server}
  {completed : Env → Routine Unit} {fed chunk future : Bytes} {position : Position}
  {pending : Bytes}

theorem newline_mem_head (r : RawRequest) : [newline] <:+ r.head := by
  rw [RawRequest.head, RawRequest.lines, List.cons_append, ← List.cons_append, unlines,
    List.flatMap_append, List.flatMap_singleton]
  exact ⟨_, List.append_assoc _ _ _⟩

/-- A parser that reads lines stands in front of a head or in it, behind a
whole number of its lines; otherwise it is behind the head. -/
theorem Position.Located.head {taken : Bytes} (valid : position.Valid)
    (located : position.Located rs taken) :
    (position.readsLines ∧ ∃ done r more before, rs = done ++ r :: more ∧
        taken = streamBytes done ++ before ∧ r.head = before ++ position.headRest ∧
        (before = [] ∨ [newline] <:+ before) ∧ newline ∈ position.headRest) ∨
      (position = .between [] ∧ taken = streamBytes rs) ∨
      (¬ position.readsLines ∧ ∃ done r more got missing, rs = done ++ r :: more ∧
        taken = streamBytes done ++ r.head ++ got ∧ r.body = got ++ missing ∧ missing ≠ []) := by
  cases position with
  | between rest =>
      obtain ⟨done, split, takenEq⟩ := located
      cases rest with
      | nil =>
          rw [List.append_nil] at split
          exact .inr (.inl ⟨rfl, by rw [takenEq, split]⟩)
      | cons r more =>
          refine .inl ⟨trivial, done, r, more, [], split, by rw [takenEq, List.append_nil], rfl,
            .inl rfl, ?_⟩
          exact (newline_mem_head r).subset (List.mem_singleton_self _)
  | inHead r http lines rest =>
      obtain ⟨done, piece, split, takenEq, headEq⟩ := located
      refine .inl ⟨trivial, done, r, rest, piece ++ [newline], split, takenEq, headEq,
        .inr (List.suffix_append piece _), ?_⟩
      simp [headRest, unlines]
  | inBody r missing rest =>
      obtain ⟨done, got, split, takenEq, bodyEq⟩ := located
      exact .inr (.inr ⟨id, done, r, rest, got, missing, split, takenEq, bodyEq, valid.2.2.1⟩)

theorem streamBytes_append (left right : List RawRequest) :
    streamBytes (left ++ right) = streamBytes left ++ streamBytes right := List.flatMap_append

theorem streamBytes_cons (r : RawRequest) (rest : List RawRequest) :
    streamBytes (r :: rest) = r.head ++ (r.body ++ streamBytes rest) := by
  rw [streamBytes, List.flatMap_cons, RawRequest.bytes, List.append_assoc]
  rfl

theorem split_cases {done rest done' rest' : List RawRequest} {r r' : RawRequest}
    (same : done ++ r :: rest = done' ++ r' :: rest') :
    (done = done' ∧ r = r') ∨ (∃ between, done' = done ++ r :: between) ∨
      ∃ between, done = done' ++ r' :: between := by
  cases List.append_eq_append_iff.mp same with
  | inl longer =>
      obtain ⟨as, doneEq, restEq⟩ := longer
      cases as with
      | nil =>
          rw [List.nil_append, List.cons.injEq] at restEq
          exact .inl ⟨by rw [doneEq, List.append_nil], restEq.1⟩
      | cons a as =>
          rw [List.cons_append, List.cons.injEq] at restEq
          exact .inr (.inl ⟨as, by rw [doneEq, restEq.1]⟩)
  | inr shorter =>
      obtain ⟨as, doneEq, restEq⟩ := shorter
      cases as with
      | nil =>
          rw [List.nil_append, List.cons.injEq] at restEq
          exact .inl ⟨by rw [doneEq, List.append_nil], restEq.1.symm⟩
      | cons a as =>
          rw [List.cons_append, List.cons.injEq] at restEq
          exact .inr (.inr ⟨as, by rw [doneEq, restEq.1]⟩)

/-- When the bytes up to here end inside a line of the head of `r`, the parser
stands in that head and the line is pending. -/
theorem cut_inside (valid : position.Valid) {taken : Bytes} (located : position.Located rs taken)
    (plain : newline ∉ pending) (lines : position.readsLines ∨ pending = [])
    {done rest : List RawRequest} {r : RawRequest} {piece : Bytes} (split : rs = done ++ r :: rest)
    (same : taken ++ pending = streamBytes done ++ piece) (inside : piece <+: r.head)
    (present : piece ≠ []) (unfinished : ¬ [newline] <:+ piece) :
    pending ≠ [] ∧ taken ++ position.headRest = streamBytes done ++ r.head := by
  have short : piece.length < r.head.length := by
    apply Nat.lt_of_le_of_ne inside.length_le
    intro equal
    rw [inside.eq_of_length equal] at unfinished
    exact unfinished (newline_mem_head r)
  have lengths := congrArg List.length same
  rw [List.length_append, List.length_append] at lengths
  -- the bytes cannot be behind the head of `r`
  have notBehind : (streamBytes done).length + r.head.length ≤ taken.length → False := by
    intro behind
    omega
  rcases located.head valid with ⟨_, done', r', more, before, split', takenEq, headEq, whole, line⟩ |
    ⟨_, takenEq⟩ | ⟨noLines, done', r', more, got, missing, split', takenEq, bodyEq, nonempty⟩
  · rw [split] at split'
    rcases split_cases split' with ⟨rfl, rfl⟩ | ⟨between, rfl⟩ | ⟨between, rfl⟩
    · rw [takenEq, List.append_assoc] at same
      have pieceEq := List.append_cancel_left same
      refine ⟨?_, by rw [takenEq, headEq, List.append_assoc]⟩
      rintro rfl
      rw [List.append_nil] at pieceEq
      cases whole with
      | inl empty => exact present (pieceEq.symm.trans empty)
      | inr suffix => exact unfinished (pieceEq ▸ suffix)
    · refine absurd ?_ notBehind
      rw [takenEq, streamBytes_append, streamBytes_cons]
      simp only [List.length_append]
      omega
    · rw [takenEq, streamBytes_append, streamBytes_cons, headEq, List.append_assoc,
        List.append_assoc, List.append_assoc, List.append_assoc before] at same
      have pendingEq := List.append_cancel_left (List.append_cancel_left same)
      rw [pendingEq] at plain
      exact absurd (List.mem_append_left _ line) plain
  · refine absurd ?_ notBehind
    rw [takenEq, split, streamBytes_append, streamBytes_cons]
    simp only [List.length_append]
    omega
  · have nothing : pending = [] := lines.resolve_left noLines
    rw [split] at split'
    rcases split_cases split' with ⟨rfl, rfl⟩ | ⟨between, rfl⟩ | ⟨between, rfl⟩
    · refine absurd ?_ notBehind
      rw [takenEq]
      simp only [List.length_append]
      omega
    · refine absurd ?_ notBehind
      rw [takenEq, streamBytes_append, streamBytes_cons]
      simp only [List.length_append]
      omega
    · rw [takenEq, nothing, streamBytes_append, streamBytes_cons, bodyEq] at lengths
      simp only [List.length_append, List.length_nil] at lengths
      have positive := List.length_pos_iff.mpr nonempty
      omega

theorem headRest_leads (valid : position.Valid) {taken : Bytes}
    (located : position.Located rs taken) (reads : position.readsLines) :
    position.headRest <+: position.rest := by
  rcases located.head valid with ⟨_, done, r, more, before, split, placed, headEq, _⟩ |
    ⟨rfl, _⟩ | ⟨noLines, _⟩
  · have total := located.total
    rw [placed, split, streamBytes_append, streamBytes_cons, headEq, List.append_assoc,
      List.append_assoc before] at total
    rw [List.append_cancel_left (List.append_cancel_left total)]
    exact List.prefix_append _ _
  · exact List.nil_prefix
  · exact absurd reads noLines

theorem not_suffix_newline {before line : Bytes} (nonempty : line ≠ []) (plain : newline ∉ line) :
    ¬ [newline] <:+ before ++ line := by
  intro suffix
  obtain ⟨start, startEq⟩ := suffix
  obtain ⟨most, last, rfl⟩ : ∃ most last, line = most ++ [last] :=
    ⟨line.dropLast, line.getLast nonempty, (List.dropLast_append_getLast nonempty).symm⟩
  rw [← List.append_assoc] at startEq
  have lastEq := (List.append_inj' startEq rfl).2
  rw [← lastEq] at plain
  exact plain (List.mem_append_right most (List.mem_singleton_self _))

/-- The condition on the position in terms of the bytes. -/
theorem headKept_iff {s : Server} (waits : Waits rs base handed c s fed position pending)
    (streamEq : fed ++ chunk ++ future = streamBytes rs) :
    HeadKept rs fed chunk ↔ pending = [] ∨ ¬ HeadOpen position (pending ++ chunk) := by
  have restEq := waits.rest_eq streamEq
  obtain ⟨taken, takenEq, located⟩ := waits.standing.located
  have valid := waits.standing.valid
  have fedEq : taken ++ pending = fed := by
    have total := waits.taken
    rw [takenEq, List.append_assoc] at total
    exact List.append_cancel_left total
  constructor
  · intro kept
    by_cases nothing : pending = []
    · exact .inl nothing
    · right
      have reads : position.readsLines := waits.lines.resolve_right nothing
      have first : newline ∉ pending := waits.plain
      have openHead : HeadOpen position pending := by
        apply headOpen_of_plain valid reads first
        rw [restEq, List.append_assoc]
      have shorter : pending.length < position.headRest.length := openHead.resolve_right nothing
      rcases located.head valid with
        ⟨_, done, r, more, before, split, placed, headEq, whole, line⟩ | ⟨positionEq, _⟩ | ⟨noLines, _⟩
      · have part : pending <+: position.headRest := by
          apply List.prefix_of_prefix_length_le _ (headRest_leads valid located reads)
            (Nat.le_of_lt shorter)
          rw [restEq, List.append_assoc]
          exact List.prefix_append _ _
        have inside : before ++ pending <+: r.head := by
          rw [headEq]
          exact (List.prefix_append_right_inj before).mpr part
        have completed := kept done r more (before ++ pending) split
          (by rw [← fedEq, placed, List.append_assoc]) inside
          (List.append_ne_nil_of_right_ne_nil before nothing) (not_suffix_newline nothing first)
        have lengths := completed.length_le
        rw [← fedEq, placed, headEq] at lengths
        simp only [List.length_append] at lengths
        rw [HeadOpen, not_or, Nat.not_lt, List.length_append]
        exact ⟨by omega, List.append_ne_nil_of_left_ne_nil nothing chunk⟩
      · rw [positionEq] at shorter
        exact absurd shorter (Nat.not_lt_zero _)
      · exact absurd reads noLines
  · intro completes done r rest piece split same inside present unfinished
    obtain ⟨nonempty, headEq⟩ := cut_inside valid located waits.plain waits.lines split
      (fedEq.trans same) inside present unfinished
    have closed := completes.resolve_left nonempty
    rw [HeadOpen, not_or, Nat.not_lt] at closed
    rw [← headEq, ← fedEq, List.append_assoc]
    apply (List.prefix_append_right_inj taken).mpr
    apply List.prefix_of_prefix_length_le
      (headRest_leads valid located (waits.lines.resolve_right nonempty)) _ closed.1
    rw [restEq]
    exact List.prefix_append _ _

theorem Waits.accounted_eq {s : Server} (waits : Waits rs base handed c s fed position pending) :
    accounted c s = base ++ fed := by
  rw [accounted, waits.contents, waits.taken]

/-- At the end of the stream nothing is pending. -/
theorem Waits.finished {s : Server} (waits : Waits rs base handed c s fed position pending)
    (fedEq : fed = streamBytes rs) :
    requestsOf c s.log = handed ++ rs.map RawRequest.request := by
  have restEq : position.rest = pending := by
    have noChunk := @Waits.rest_eq rs base handed c s fed [] [] position pending waits (by simpa using fedEq)
    simpa using noChunk
  have requests := waits.standing.requests
  obtain ⟨taken, _, located⟩ := waits.standing.located
  have valid := waits.standing.valid
  rcases located.head valid with ⟨reads, _, _, _, _, _, _, _, _, line⟩ | ⟨rfl, _⟩ |
    ⟨noLines, _, _, _, _, _, _, _, _, _⟩
  · have inside := (headRest_leads valid located reads).subset line
    rw [restEq] at inside
    exact absurd inside waits.plain
  · simpa [Position.upcoming] using requests
  · have nothing : pending = [] := waits.lines.resolve_left noLines
    cases position with
    | between rest => exact absurd trivial noLines
    | inHead r http lines rest => exact absurd trivial noLines
    | inBody r missing rest =>
        rw [nothing, Position.rest] at restEq
        exact absurd (List.append_eq_nil_iff.mp restEq).1 valid.2.2.1

theorem fedBytes_cons (env : Env) (chunk : Bytes) (chunks : List (Env × Bytes)) :
    fedBytes ((env, chunk) :: chunks) = chunk ++ fedBytes chunks := rfl

theorem fedBytes_append (left right : List (Env × Bytes)) :
    fedBytes (left ++ right) = fedBytes left ++ fedBytes right := by
  rw [fedBytes, List.map_append, List.flatten_append]
  rfl

theorem HeadsKept.cons {env : Env} {chunks : List (Env × Bytes)} :
    HeadsKept rs fed ((env, chunk) :: chunks) ↔
      HeadKept rs fed chunk ∧ HeadsKept rs (fed ++ chunk) chunks := by
  constructor
  · intro kept
    refine ⟨by simpa [fedBytes] using kept [] env chunk chunks rfl, ?_⟩
    intro before other piece after split
    have later := kept ((env, chunk) :: before) other piece after (by rw [split]; rfl)
    rwa [fedBytes_cons, ← List.append_assoc] at later
  · rintro ⟨first, later⟩ before other piece after split
    cases before with
    | nil =>
        rw [List.nil_append, List.cons.injEq, Prod.mk.injEq] at split
        obtain ⟨⟨_, rfl⟩, _⟩ := split
        simpa [fedBytes] using first
    | cons entry before =>
        rw [List.cons_append, List.cons.injEq] at split
        obtain ⟨rfl, split⟩ := split
        rw [fedBytes_cons, ← List.append_assoc]
        exact later before other piece after split

theorem feed_waits (answers : ∀ env, AnswersAtOnce (completed env) c (rs.map RawRequest.request))
    (chunks : List (Env × Bytes)) {s : Server}
    (waits : Waits rs base handed c s fed position pending)
    (streamEq : fed ++ fedBytes chunks ++ future = streamBytes rs) (kept : HeadsKept rs fed chunks) :
    ∃ after next left, feed completed c chunks s = some after ∧
      Waits rs base handed c after (fed ++ fedBytes chunks) next left := by
  induction chunks generalizing fed position pending s with
  | nil =>
      refine ⟨s, position, pending, rfl, ?_⟩
      rw [fedBytes, List.map_nil, List.flatten_nil, List.append_nil]
      exact waits
  | cons entry chunks ih =>
      obtain ⟨env, chunk⟩ := entry
      rw [HeadsKept.cons] at kept
      rw [fedBytes_cons] at streamEq ⊢
      have chunkEq : fed ++ chunk ++ (fedBytes chunks ++ future) = streamBytes rs := by
        rw [← streamEq]
        simp only [List.append_assoc]
      obtain ⟨middle, next, left, outcomeEq, middleWaits⟩ :=
        receiveChunk_waits env (answers env) waits chunkEq ((headKept_iff waits chunkEq).mp kept.1)
      obtain ⟨after, last, rest, feedEq, afterWaits⟩ :=
        ih middleWaits (by rw [← chunkEq, List.append_assoc (fed ++ chunk)]) kept.2
      refine ⟨after, last, rest, ?_, by rw [← List.append_assoc]; exact afterWaits⟩
      rw [feed, outcomeEq]
      exact feedEq

/-- If every byte is accounted for at every cut, then no chunk stopped short of
the head behind an unfinished line. -/
theorem heads_kept (answers : ∀ env, AnswersAtOnce (completed env) c (rs.map RawRequest.request))
    (chunks : List (Env × Bytes)) {s : Server}
    (waits : Waits rs base handed c s fed position pending)
    (streamEq : fed ++ fedBytes chunks ++ future = streamBytes rs)
    (exact : ∀ before rest, chunks = before ++ rest → ∃ middle, feed completed c before s = some middle ∧
      accounted c middle = accounted c s ++ fedBytes before) : HeadsKept rs fed chunks := by
  induction chunks generalizing fed position pending s with
  | nil =>
      intro before env chunk after split
      exact absurd split.symm (by simp)
  | cons entry chunks ih =>
      obtain ⟨env, chunk⟩ := entry
      rw [fedBytes_cons] at streamEq
      have chunkEq : fed ++ chunk ++ (fedBytes chunks ++ future) = streamBytes rs := by
        rw [← streamEq]
        simp only [List.append_assoc]
      have kept : HeadKept rs fed chunk := by
        rw [headKept_iff waits chunkEq]
        by_contra stops
        rw [not_or, not_not] at stops
        obtain ⟨middle, feedEq, accountedEq⟩ := exact [(env, chunk)] chunks rfl
        cases outcomeEq : (receiveChunk env (completed env) c chunk).outcome Action.apply s with
        | returned after result =>
            simp only [feed, outcomeEq, Option.some.injEq] at feedEq
            subst feedEq
            have more := receiveChunk_overcounts env (answers env) waits chunkEq stops.1 stops.2
              outcomeEq
            rw [accountedEq, waits.accounted_eq, fedBytes_cons] at more
            simp [fedBytes] at more
        | thrown after error => rw [feed, outcomeEq] at feedEq; cases feedEq
        | fault => rw [feed, outcomeEq] at feedEq; cases feedEq
      obtain ⟨middle, next, left, outcomeEq, middleWaits⟩ :=
        receiveChunk_waits env (answers env) waits chunkEq ((headKept_iff waits chunkEq).mp kept)
      rw [HeadsKept.cons]
      refine ⟨kept, ih middleWaits (by rw [← chunkEq, List.append_assoc (fed ++ chunk)]) ?_⟩
      intro before rest split
      obtain ⟨after, feedEq, accountedEq⟩ := exact ((env, chunk) :: before) rest (by rw [split]; rfl)
      rw [feed, outcomeEq] at feedEq
      refine ⟨after, feedEq, ?_⟩
      rw [accountedEq, waits.accounted_eq, middleWaits.accounted_eq, fedBytes_cons]
      simp only [List.append_assoc]

theorem Fresh.waits {s : Server} (fresh : Fresh (s.conns c)) (wellFormed : ∀ r ∈ rs, r.WellFormed) :
    Waits rs (takenOf c s.log) (requestsOf c s.log) c s [] (.between rs) [] := by
  exact
    { standing :=
        { calm := fresh.calm
          valid := wellFormed
          stands := fresh.step
          located := ⟨[], (List.append_nil _).symm, [], rfl, rfl⟩
          requests := rfl }
      fits := fresh.fits
      contents := fresh.empty
      plain := List.not_mem_nil
      lines := .inr rfl
      taken := by rw [List.append_nil] }

/-- Nothing is kept in front of the first chunk. -/
theorem headKept_first : HeadKept rs [] chunk := by
  intro done r rest piece _ same _ present _
  exact absurd (List.append_eq_nil_iff.mp same.symm).2 present

/-- Feeding a stream of requests in chunks. -/
theorem fedAlike_iff {s : Server} (wellFormed : ∀ r ∈ rs, r.WellFormed)
    (answers : ∀ env, AnswersAtOnce (headerCompleted env c) c (rs.map RawRequest.request))
    (fresh : Fresh (s.conns c)) (chunks : List (Env × Bytes))
    (streamEq : fedBytes chunks = streamBytes rs) :
    FedAlike (fun env => headerCompleted env c) c s chunks ↔ HeadsKept rs [] chunks := by
  have waits := fresh.waits wellFormed
  have stream : [] ++ fedBytes chunks ++ [] = streamBytes rs := by
    rw [List.append_nil, List.nil_append, streamEq]
  constructor
  · intro alike
    exact heads_kept answers chunks waits stream alike.exact
  · intro kept
    refine { same := ?_, exact := ?_ }
    · intro env
      obtain ⟨after, _, _, feedEq, afterWaits⟩ := feed_waits answers chunks waits stream kept
      have once : HeadsKept rs [] [(env, fedBytes chunks)] := by
        rw [HeadsKept.cons]
        refine ⟨headKept_first, ?_⟩
        intro before other piece after split
        exact absurd split.symm (by simp)
      have bytes : fedBytes [(env, fedBytes chunks)] = fedBytes chunks := by
        rw [fedBytes_cons]
        exact List.append_nil _
      obtain ⟨whole, _, _, wholeEq, wholeWaits⟩ :=
        feed_waits answers [(env, fedBytes chunks)] waits (by rw [bytes, stream]) once
      refine ⟨after, whole, feedEq, wholeEq, ?_⟩
      rw [afterWaits.finished streamEq, wholeWaits.finished (by rw [bytes]; exact streamEq)]
    · intro before rest split
      have keptBefore : HeadsKept rs [] before := by
        intro front env chunk after frontSplit
        exact kept front env chunk (after ++ rest) (by rw [split, frontSplit]; simp)
      rw [split, fedBytes_append, ← List.append_assoc, List.append_nil] at stream
      obtain ⟨middle, _, _, feedEq, middleWaits⟩ := feed_waits answers before waits stream keptBefore
      exact ⟨middle, feedEq, by rw [middleWaits.accounted_eq, List.nil_append, waits.accounted_eq,
        List.append_nil]⟩

theorem echo_answers (env : Env) {requests : List Request}
    (echo : ∀ request ∈ requests, request.path = ascii "echo") :
    AnswersAtOnce (headerCompleted env c) c requests := by
  intro s calm known
  have path : (s.conns c).http.path = ascii "echo" := echo _ known
  have opened := calm.opened
  simp only [headerCompleted, outcome_bind, outcome_perform, outcome_get, Action.apply,
    Outcome.bind, Server.complete, Server.enter_conns, Server.note_conns, Server.modify_self, path,
    if_true, Server.send, opened, Bool.false_eq_true, if_false, Result.andThen]
  exact
    { calm :=
        { status := by simpa using calm.status
          mode := by simpa using calm.mode
          client := by simpa using calm.client
          opened := by simpa using opened }
      step := by simp
      buffer := by simp
      taken := by simp [takenOf]
      requests := by simp [requestsOf] }

end

/-- `GET /echo` with one header line. -/
def echoRequest : RawRequest :=
  { start := ascii "GET /echo HTTP/1.1\r"
    headers := [ascii "Type: async\r"]
    blankLine := ascii "\r"
    body := [] }

/-- A server with one new connection. -/
def oneConnection : Server := (Server.new 1 false [] 0).set 0 (Conn.new 0 ⟨false, false, false⟩)

theorem echoRequest_wellFormed : echoRequest.WellFormed := by
  exact
    { plain := by decide
      path := by decide
      headerText := by decide
      blankText := by decide
      parsed := by
        refine ⟨{ echoRequest.started with type := .async }, by decide +kernel, rfl⟩ }

theorem oneConnection_fresh : Fresh (oneConnection.conns 0) := by
  exact
    { calm := { status := rfl, mode := rfl, client := rfl, opened := rfl }
      step := rfl
      fits := Buffer.empty_fits
      empty := rfl }

/-- Two chunks, cut inside the request line. -/
theorem fedAlike_echo :
    FedAlike (fun env => headerCompleted env 0) 0 oneConnection
      [(atRest, ascii "GET /e"), (atRest, ascii "cho HTTP/1.1\r\nType: async\r\n\r\n")] := by
  apply (@fedAlike_iff [echoRequest] 0 oneConnection
    (fun r member => by rw [List.mem_singleton.mp member]; exact echoRequest_wellFormed)
    (fun env => echo_answers env fun request member => by
      rw [List.mem_singleton.mp member]
      decide +kernel)
    oneConnection_fresh _ (by decide +kernel)).mpr
  rw [HeadsKept.cons, HeadsKept.cons]
  refine ⟨headKept_first, ?_, ?_⟩
  · intro done r rest piece split _ _ _ _
    have short := congrArg List.length split
    simp only [List.length_append, List.length_cons, List.length_nil] at short
    obtain rfl : done = [] := List.length_eq_zero_iff.mp (by omega)
    rw [List.nil_append, List.cons.injEq] at split
    rw [← split.1]
    decide +kernel
  · intro before env chunk after split
    exact absurd split.symm (by simp)

/-- The same request in three chunks: the type is lost. -/
theorem chunks_lose_header :
    ¬ ∀ (rs : List RawRequest) (c : ConnId) (s : Server) (chunks : List (Env × Bytes)),
      (∀ r ∈ rs, r.WellFormed) →
      (∀ env, AnswersAtOnce (headerCompleted env c) c (rs.map RawRequest.request)) →
      Fresh (s.conns c) → (∀ chunk ∈ chunks, chunk.2 ≠ []) → fedBytes chunks = streamBytes rs →
      FedAlike (fun env => headerCompleted env c) c s chunks := by
  intro always
  have chunks := always [echoRequest] 0 oneConnection
    [(atRest, ascii "GET /e"), (atRest, ascii "cho HTTP/1.1\r\nTy"),
      (atRest, ascii "pe: async\r\n\r\n")]
    (fun r member => by rw [List.mem_singleton.mp member]; exact echoRequest_wellFormed)
    (fun env => echo_answers env fun request member => by
      rw [List.mem_singleton.mp member]
      decide +kernel)
    oneConnection_fresh (by decide +kernel) (by decide +kernel)
  obtain ⟨after, whole, feedEq, wholeEq, same⟩ := chunks.same atRest
  have lost : (feed (fun env => headerCompleted env 0) 0
      [(atRest, ascii "GET /e"), (atRest, ascii "cho HTTP/1.1\r\nTy"),
        (atRest, ascii "pe: async\r\n\r\n")] oneConnection).map
      (fun s => (requestsOf 0 s.log).map Request.type) = some [.none] := by decide +kernel
  have kept : (feed (fun env => headerCompleted env 0) 0
      [(atRest, fedBytes [(atRest, ascii "GET /e"), (atRest, ascii "cho HTTP/1.1\r\nTy"),
        (atRest, ascii "pe: async\r\n\r\n")])] oneConnection).map
      (fun s => (requestsOf 0 s.log).map Request.type) = some [.async] := by decide +kernel
  rw [feedEq, Option.map_some, same] at lost
  rw [wholeEq, Option.map_some, lost] at kept
  cases kept

end Ijson
