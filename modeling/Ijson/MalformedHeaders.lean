/-
Header lines that `read_header` refuses.

The error is answered inside the loop over the lines, which then goes on: the
other lines are read, the body is, and the request of the good lines is served.
-/

import Ijson.OptionView
import Ijson.StoredBytes
import Ijson.TaskMessage

namespace Ijson

open Program Routine

/-! ### Refused lines -/

/-- `read_header` refuses the line. -/
def malformed (line : Bytes) : Bool :=
  match Http.Header.read (lineText line) with
  | .ok _ => false
  | .error _ => true

theorem startsWithLc_split {data front : Bytes} {k : UInt8} (starts : startsWithLc data (front ++ [k]) = true) :
    ∃ before a rest, data = before ++ a :: rest ∧ before.length = front.length ∧ lowerCase a = k := by
  induction front generalizing data with
  | nil =>
      cases data with
      | nil => cases starts
      | cons a rest =>
          have first := (Bool.and_eq_true_iff.mp starts).1
          exact ⟨[], a, rest, rfl, rfl, (eq_of_beq first).symm⟩
  | cons key front ih =>
      cases data with
      | nil => cases starts
      | cons b data =>
          obtain ⟨before, a, rest, split, length, same⟩ := ih (Bool.and_eq_true_iff.mp starts).2
          refine ⟨b :: before, a, rest, ?_, ?_, same⟩
          · rw [split]
            rfl
          · rw [List.length_cons, List.length_cons, length]

theorem lowerCase_blank {a : UInt8} (lower : lowerCase a = blank) : a = blank := by
  unfold lowerCase at lower
  split at lower
  · rename_i letter
    have sum := congrArg UInt8.toNat lower
    simp [blank, UInt8.toNat_add] at sum letter
    omega
  · exact lower

/-- Behind the blank of a key something stands, as the line has no blank at its end. -/
theorem lineText_drop {line front : Bytes} (starts : startsWithLc (lineText line) (front ++ [blank]) = true) :
    (lineText line).drop (front.length + 1) ≠ [] := by
  obtain ⟨before, a, rest, split, length, lower⟩ := startsWithLc_split starts
  intro nothing
  have empty : rest = [] := by
    rw [split, ← length, List.drop_append, List.drop_eq_nil_of_le (Nat.le_succ _)] at nothing
    simpa using nothing
  have last : (lineText line).getLast? = some a := by
    rw [split, empty]
    simp
  have kept := getLast?_of_rstrip (rstrip_rstrip (line ++ [newline])) last
  rw [lowerCase_blank lower] at kept
  exact absurd kept (by decide)

theorem atoi_error {data : Bytes} (nonempty : data ≠ []) {error : Exc} (errorEq : atoi data = .error error) :
    error = .invalidData := by
  have loop : ∀ (digits : Bytes) (value : Int) (error : Exc), atoiLoop digits value = .error error →
      error = .invalidData := by
    intro digits
    induction digits with
    | nil => exact fun value error same => by cases same
    | cons a rest ih =>
        intro value error same
        rw [atoiLoop] at same
        split at same
        · cases same
          rfl
        · exact ih _ _ same
  cases data with
  | nil => exact absurd rfl nonempty
  | cons a rest =>
      rw [atoi] at errorEq
      split at errorEq
      · split at errorEq
        · cases errorEq
          rfl
        · cases found : atoiLoop rest 0 with
          | ok value =>
              rw [found] at errorEq
              cases errorEq
          | error raised =>
              rw [found] at errorEq
              cases errorEq
              exact loop _ _ _ found
      · exact loop _ _ _ errorEq

theorem setType_error {name : Bytes} {error : Exc} (errorEq : Http.setType name = .error error) :
    error = .invalidData := by
  unfold Http.setType at errorEq
  repeat' split at errorEq
  all_goals cases errorEq
  rfl

theorem map_error {α β : Type} {change : α → β} {result : Except Exc α} {error : Exc}
    (same : result.map change = .error error) : result = .error error := by
  cases result with
  | ok value => cases same
  | error raised =>
      cases same
      rfl

theorem error_of_ite {α : Type} {condition conclusion : Prop} [Decidable condition] {left right : Except Exc α}
    {error : Exc} (same : (if condition then left else right) = .error error)
    (taken : condition → left = .error error → conclusion) (other : right = .error error → conclusion) : conclusion := by
  by_cases holds : condition
  · exact taken holds (by rw [← same, if_pos holds])
  · exact other (by rw [← same, if_neg holds])

/-- A line is refused with `InvalidData`, which the loop catches. -/
theorem header_error {line : Bytes} {error : Exc} (errorEq : Http.Header.read (lineText line) = .error error) :
    error = .invalidData := by
  have number : ∀ (front : Bytes) (make : Int → Http.Header),
      startsWithLc (lineText line) (front ++ [blank]) = true →
      (atoi ((lineText line).drop (front.length + 1))).map make = .error error → error = .invalidData :=
    fun front make starts same => atoi_error (lineText_drop starts) (map_error same)
  unfold Http.Header.read at errorEq
  apply error_of_ite errorEq (number (ascii "content-length:") _) fun errorEq => ?_
  apply error_of_ite errorEq (fun _ same => setType_error (map_error same)) fun errorEq => ?_
  apply error_of_ite errorEq (fun _ same => setType_error (map_error same)) fun errorEq => ?_
  apply error_of_ite errorEq (fun _ same => by cases same) fun errorEq => ?_
  apply error_of_ite errorEq (fun _ same => by cases same) fun errorEq => ?_
  apply error_of_ite errorEq (fun _ same => by cases same) fun errorEq => ?_
  apply error_of_ite errorEq (number (ascii "priority:") _) fun errorEq => ?_
  apply error_of_ite errorEq (fun _ same => by cases same) fun errorEq => ?_
  apply error_of_ite errorEq (fun _ same => by cases same) fun errorEq => ?_
  exact error_of_ite errorEq (number (ascii "timeout:") _) fun same => by cases same

/-! ### The head -/

/-- A head is being read, with the content length so far. -/
structure Heading (c : ConnId) (length : Int) (s : Server) : Prop where
  step : (s.conns c).http.step = .header
  contentLength : (s.conns c).http.contentLength = length
  body : (s.conns c).http.body = []
  ready : (s.conns c).ready = true
  opened : (s.conns c).closed = false

section Head

variable (env : Env) {c : ConnId} {s : Server} {length : Int}

theorem heading_store (heading : Heading c length s) {line raw : Bytes} {header : Http.Header} {now start : Nat}
    {place : Place} (headerEq : Http.Header.read (lineText line) = .ok header) {read : Http}
    (storeEq : (s.conns c).http.store now place start header = read) :
    Heading c (lengthAfter length [line])
      ((s.note (.taken c raw)).modify c fun conn => { conn with http := read }) := by
  constructor
  · rw [Server.modify_self]
    change read.step = _
    rw [← storeEq, ← heading.step]
    cases header <;> rfl
  · rw [Server.modify_self]
    change read.contentLength = _
    rw [← storeEq, ← heading.contentLength, lengthAfter, List.foldl_cons, List.foldl_nil, headerEq]
    cases header <;> rfl
  · rw [Server.modify_self]
    change read.body = _
    rw [← storeEq, ← heading.body]
    cases header <;> rfl
  · rw [Server.modify_self]
    exact heading.ready
  · rw [Server.modify_self]
    exact heading.opened

theorem heading_sent (heading : Heading c length s) (response : Response) :
    Heading c length (s.sent c response) := by
  constructor
  · rw [Server.sent, Server.note_conns, Server.modify_self]
    exact heading.step
  · rw [Server.sent, Server.note_conns, Server.modify_self]
    exact heading.contentLength
  · rw [Server.sent, Server.note_conns, Server.modify_self]
    exact heading.body
  · rw [Server.sent, Server.note_conns, Server.modify_self]
    exact heading.ready
  · rw [Server.sent, Server.note_conns, Server.modify_self]
    exact heading.opened

/-- The 400 that the loop over the lines sends. -/
def Action.refuses (c : ConnId) : Action → Bool
  | .refuseHeader d => d = c
  | _ => false

/-- One routine does what another does from a later state, with `n` refusals before. -/
structure Refusing (c : ConnId) (n : Nat) (routine later : Routine Unit) (s middle : Server) : Prop where
  comes : ∃ front, Comes Action.apply routine s front later middle ∧
    (∀ moment ∈ front, moment.1.completes c = false) ∧ front.countP (fun moment => moment.1.refuses c) = n

namespace Refusing

variable {t u : Server} {n m : Nat} {routine later : Routine Unit}

theorem goesOn (refusing : Refusing c n routine later s t) : GoesOn c routine later s t := by
  obtain ⟨front, comes, silent, _⟩ := refusing.comes
  exact ⟨front, comes, silent⟩

theorem look {rest : Server → Routine Unit} (refusing : Refusing c n (rest s) later s t) :
    Refusing c n (get >>= rest) later s t := by
  obtain ⟨front, comes, both⟩ := refusing.comes
  exact ⟨front, comes.look, both⟩

theorem perform {action : Action} {rest : Unit → Routine Unit}
    (applied : action.apply s = .returned t ()) (silent : action.completes c = false)
    (accepts : action.refuses c = false) (refusing : Refusing c n (rest ()) later t u) :
    Refusing c n (Program.perform action >>= rest) later s u := by
  obtain ⟨front, comes, others, count⟩ := refusing.comes
  refine ⟨(action, s) :: front, comes.perform applied, List.forall_mem_cons.mpr ⟨silent, others⟩, ?_⟩
  rw [List.countP_cons_of_neg (by simp [accepts]), count]

theorem refuse {rest : Unit → Routine Unit} (applied : (Action.refuseHeader c).apply s = .returned t ())
    (refusing : Refusing c n (rest ()) later t u) :
    Refusing c (n + 1) (Program.perform (.refuseHeader c) >>= rest) later s u := by
  obtain ⟨front, comes, others, count⟩ := refusing.comes
  refine ⟨(.refuseHeader c, s) :: front, comes.perform applied, List.forall_mem_cons.mpr ⟨rfl, others⟩, ?_⟩
  rw [List.countP_cons_of_pos (by simp [Action.refuses]), count]

theorem here (later : Routine Unit) (s : Server) : Refusing c 0 later later s s :=
  ⟨[], comes_here later s, List.forall_mem_nil _, rfl⟩

theorem trans {first second third : Routine Unit} (one : Refusing c n first second s t)
    (two : Refusing c m second third t u) : Refusing c (n + m) first third s u := by
  obtain ⟨front, before, silent, count⟩ := one.comes
  obtain ⟨back, behind, others, more⟩ := two.comes
  refine ⟨front ++ back, before.trans behind, List.forall_mem_append.mpr ⟨silent, others⟩, ?_⟩
  rw [List.countP_append, count, more]

end Refusing

theorem readLines_heading (fuel start : Nat) (place : Place) (tail : Bytes) {line : Bytes}
    (heading : Heading c length s) (spoken : Spoken line) :
    ∃ t, Refusing c (if malformed line then 1 else 0)
        (readLines env (headerCompleted env c) c (fuel + 1) ⟨place, start, line ++ newline :: tail⟩)
        (readLines env (headerCompleted env c) c fuel ⟨place, start + (line.length + 1), tail⟩) s t ∧
      Heading c (lengthAfter length [line]) t := by
  have text : rstrip (line ++ [newline]) ≠ [] := spoken.2
  have nonempty : (rstrip (line ++ [newline])).isEmpty = false := List.isEmpty_eq_false_iff.mpr text
  cases headerEq : Http.Header.read (lineText line) with
  | ok header =>
      obtain ⟨read, storeEq⟩ : ∃ read, (s.conns c).http.store (env.now s.tick) place start header = read :=
        ⟨_, rfl⟩
      have readEq : (s.conns c).http.readHeader (env.now s.tick) place start (lineText line) = .ok read := by
        rw [Http.readHeader, headerEq, ← storeEq]
        rfl
      obtain ⟨t, tEq⟩ : ∃ t, (s.note (.taken c (line ++ [newline]))).modify c
        (fun conn => { conn with http := read }) = t := ⟨_, rfl⟩
      have good : malformed line = false := by rw [malformed, headerEq]
      refine ⟨t, ?_, tEq ▸ heading_store heading headerEq storeEq⟩
      rw [good, readLines, popLine_some spoken.1]
      apply Refusing.look
      simp only [nonempty, heading.step, reduceCtorEq, if_true, if_false, Bool.false_eq_true]
      rw [lineText] at readEq
      rw [readEq]
      refine Refusing.perform (congrArg (Outcome.returned · ()) tEq) rfl rfl ?_
      rw [List.length_append]
      exact Refusing.here _ t
  | error error =>
      have readEq : (s.conns c).http.readHeader (env.now s.tick) place start (lineText line) = .error error := by
        rw [Http.readHeader, headerEq]
        rfl
      have same : lengthAfter length [line] = length := by
        rw [lengthAfter, List.foldl_cons, List.foldl_nil, headerEq]
      obtain ⟨passed, passedEq⟩ : ∃ passed, (s.note (.taken c (line ++ [newline]))).modify c
        (fun conn => { conn with http := id conn.http }) = passed := ⟨_, rfl⟩
      have still : Heading c length passed := by
        rw [← passedEq]
        constructor <;> rw [Server.modify_self]
        · exact heading.step
        · exact heading.contentLength
        · exact heading.body
        · exact heading.ready
        · exact heading.opened
      obtain ⟨t, sends⟩ : ∃ t, (Action.refuseHeader c).apply passed = .returned t () ∧ Heading c length t :=
        ⟨_, Server.send_open still.opened _, heading_sent still _⟩
      have bad : malformed line = true := by rw [malformed, headerEq]
      refine ⟨t, ?_, same.symm ▸ sends.2⟩
      rw [bad, readLines, popLine_some spoken.1]
      apply Refusing.look
      simp only [nonempty, heading.step, reduceCtorEq, if_true, if_false, Bool.false_eq_true]
      rw [lineText] at readEq
      rw [readEq]
      refine Refusing.perform (congrArg (Outcome.returned · ()) passedEq) rfl rfl ?_
      rw [if_pos (header_error headerEq)]
      refine Refusing.refuse sends.1 ?_
      rw [List.length_append]
      exact Refusing.here _ _

theorem readLines_headings (fuel start : Nat) (place : Place) (tail : Bytes) {lines : List Bytes}
    (heading : Heading c length s) (spoken : ∀ line ∈ lines, Spoken line) :
    ∃ t, Refusing c (lines.countP malformed)
        (readLines env (headerCompleted env c) c (lines.length + fuel) ⟨place, start, unlines lines ++ tail⟩)
        (readLines env (headerCompleted env c) c fuel ⟨place, start + (unlines lines).length, tail⟩) s t ∧
      Heading c (lengthAfter length lines) t := by
  induction lines generalizing s start length with
  | nil =>
      refine ⟨s, ?_, heading⟩
      rw [List.length_nil, Nat.zero_add]
      exact Refusing.here _ s
  | cons line lines ih =>
      obtain ⟨t, first, readOn⟩ := readLines_heading env (lines.length + fuel) start place
        (unlines lines ++ tail) heading (spoken line List.mem_cons_self)
      obtain ⟨u, later, last⟩ := ih (start + (line.length + 1)) readOn
        fun other member => spoken other (List.mem_cons_of_mem line member)
      refine ⟨u, ?_, last⟩
      have whole : unlines (line :: lines) ++ tail = line ++ newline :: (unlines lines ++ tail) := by
        rw [unlines_cons]
        simp only [List.append_assoc, List.cons_append]
      have place : start + (unlines (line :: lines)).length =
          start + (line.length + 1) + (unlines lines).length := by
        rw [unlines_cons]
        simp only [List.length_append, List.length_cons]
        omega
      have count : (line :: lines).length + fuel = lines.length + fuel + 1 := by
        rw [List.length_cons]
        omega
      rw [whole, place, count, List.countP_cons, Nat.add_comm]
      exact first.trans later

end Head

/-! ### What a request comes to -/

section Settling

variable (env : Env) (c : ConnId)

end Settling

/-! ### The request -/

/-- A request is about to be read: its lines and the `front` of its body stand at the
cursor, the rest of the body comes in chunks.  The length is the one of the good
lines. -/
structure HeadersArrive (c : ConnId) (s : Server) (start : Bytes) (headers : List Bytes) (blankLine : Bytes)
    (cursor : Cursor) (front : Bytes) (chunks : List Bytes) : Prop where
  plain : newline ∉ start
  path : (Http.readMethod (lineText start)).1 ≠ []
  spoken : ∀ line ∈ headers, Spoken line
  blank : newline ∉ blankLine ∧ lineText blankLine = []
  data : cursor.data = start ++ newline :: (unlines headers ++ (blankLine ++ newline :: front))
  whole : lengthAfter 0 headers ≤ (front ++ chunks.flatten).length
  ready : (s.conns c).ready = true
  step : (s.conns c).http.step = .start
  opened : (s.conns c).closed = false

section Request

variable {env : Env} {c : ConnId} {s : Server} {start blankLine front : Bytes} {headers chunks : List Bytes}
  {cursor : Cursor}

/-- The lines are read up to the blank one, with a 400 for each that is refused. -/
theorem HeadersArrive.head (env : Env) (arrives : HeadersArrive c s start headers blankLine cursor front chunks)
    {fuel : Nat} (enough : cursor.data.length < fuel) {t : Server}
    (begins : s.begin c (start ++ [newline]) (lineText start) = .returned t ()) :
    ∃ u f place, Refusing c (headers.countP malformed) (readLines env (headerCompleted env c) c fuel cursor)
        (readLines env (headerCompleted env c) c (f + 1) ⟨cursor.place, place, blankLine ++ newline :: front⟩)
        s u ∧
      Heading c (lengthAfter 0 headers) u := by
  obtain ⟨place, first, data⟩ := cursor
  have dataEq : data = start ++ newline :: (unlines headers ++ (blankLine ++ newline :: front)) := arrives.data
  obtain ⟨f, fuelEq⟩ : ∃ f, fuel = headers.length + (f + 1) + 1 := by
    have long := length_le_unlines headers
    have enough : data.length < fuel := enough
    rw [dataEq] at enough
    simp only [List.length_append, List.length_cons] at enough
    exact ⟨fuel - headers.length - 2, by omega⟩
  have text : lineText start ≠ [] := by
    intro empty
    have path := arrives.path
    rw [empty] at path
    exact path (by decide)
  obtain ⟨comes, begun⟩ := readLines_begun env (headers.length + (f + 1)) first
    (unlines headers ++ (blankLine ++ newline :: front)) arrives.step arrives.opened arrives.plain arrives.path
    text begins
  have named : (Http.readMethod (lineText start)).1.isEmpty = false := List.isEmpty_eq_false_iff.mpr arrives.path
  have heading : Heading c 0 t := by
    constructor
    · rw [begun.http, named]
      rfl
    · rw [begun.http]
      rfl
    · rw [begun.http]
      rfl
    · exact begun.ready.trans arrives.ready
    · rw [begun.closed, arrives.opened, named, Bool.false_or]
  have toHead : Refusing c 0 _ _ s t := ⟨_, comes, List.forall_mem_singleton.mpr rfl, rfl⟩
  obtain ⟨u, toBlank, last⟩ := readLines_headings env (f + 1) (first + (start.length + 1)) place
    (blankLine ++ newline :: front) heading arrives.spoken
  have goes := toHead.trans toBlank
  rw [← dataEq, ← fuelEq, Nat.zero_add] at goes
  exact ⟨u, f, _, goes, last⟩

/-- The request of the good lines is served, behind a 400 for each of the others. -/
theorem HeadersArrive.served (env : Env) (arrives : HeadersArrive c s start headers blankLine cursor front chunks)
    {fuel : Nat} (enough : cursor.data.length < fuel) {t : Server}
    (begins : s.begin c (start ++ [newline]) (lineText start) = .returned t ())
    (natural : 0 ≤ lengthAfter 0 headers) :
    (∃ served, completion c ((arriving env c fuel cursor chunks).run Action.apply s).1 = some served) ∧
      ∃ refusals, refusals <+: ((arriving env c fuel cursor chunks).run Action.apply s).1 ∧
        refusals.countP (fun moment => moment.1.refuses c) = headers.countP malformed := by
  obtain ⟨u, f, place, refusing, heading⟩ := arrives.head env enough begins
  constructor
  · obtain ⟨n, length⟩ := Int.eq_ofNat_of_zero_le natural
    have goes := refusing.goesOn
    have popped : popLine (Cursor.mk cursor.place place (blankLine ++ newline :: front)).data =
        some (blankLine ++ [newline], front) := popLine_some arrives.blank.1 front
    have blank : rstrip (blankLine ++ [newline]) = [] := arrives.blank.2
    have contentLength := heading.contentLength.trans length
    have total := arrives.whole
    by_cases whole : n ≤ front.length
    · obtain ⟨served, complete, _⟩ := blank_whole env f heading.step popped blank contentLength whole heading.body
      rw [← goes.handed] at complete
      exact ⟨served, by rw [arriving, moments_bind, completion_of_first complete]⟩
    · obtain ⟨after, quiet, awaits, _⟩ := blank_part env f heading.step popped blank contentLength
        (Nat.lt_of_not_le whole) heading.ready
      have body := receiveAll_whole env chunks awaits (by omega)
      rw [handedBody_eq, Option.map_eq_some_iff] at body
      obtain ⟨served, complete, _⟩ := body
      exact ⟨served, by rw [arriving, (goes.quietly quiet).completion, complete]⟩
  · obtain ⟨refusals, comes, _, count⟩ := refusing.comes
    refine ⟨refusals, ?_, count⟩
    rw [arriving, moments_bind, comes.moments_eq, List.append_assoc]
    exact List.prefix_append _ _

/-- The loop only gets past a request line that has begun a request. -/
theorem HeadersArrive.begins (env : Env) (arrives : HeadersArrive c s start headers blankLine cursor front chunks)
    {fuel : Nat} (enough : cursor.data.length < fuel) {after : Server}
    (returned : (readLines env (headerCompleted env c) c fuel cursor).outcome Action.apply s = .returned after ()) :
    ∃ t, s.begin c (start ++ [newline]) (lineText start) = .returned t () := by
  have text : rstrip (start ++ [newline]) ≠ [] := by
    intro empty
    have path := arrives.path
    rw [lineText, empty] at path
    exact path (by decide)
  have nonempty : (rstrip (start ++ [newline])).isEmpty = false := List.isEmpty_eq_false_iff.mpr text
  cases fuel with
  | zero => exact absurd enough (Nat.not_lt_zero _)
  | succ fuel =>
      rw [readLines, arrives.data, popLine_some arrives.plain, outcome_bind, outcome_get] at returned
      simp only [Outcome.bind, nonempty, arrives.step, if_true, if_false, Bool.false_eq_true] at returned
      rw [outcome_bind, outcome_perform] at returned
      have same : (Action.begin c (start ++ [newline]) (rstrip (start ++ [newline]))).apply s =
          s.begin c (start ++ [newline]) (lineText start) := rfl
      rw [same] at returned
      cases begins : s.begin c (start ++ [newline]) (lineText start) with
      | returned t value => exact ⟨t, rfl⟩
      | thrown t error =>
          rw [begins] at returned
          cases returned
      | fault =>
          rw [begins] at returned
          cases returned

end Request

end Ijson
