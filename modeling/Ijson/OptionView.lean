/-
Whether a request is tested for the option that stood in its header.

`header_option` is a view.  The chunks of a body are received into the same
array, one over the other, so a byte of the option is the one of the last chunk
that was long enough to reach it.  The block of the connection's own buffer is
not written while a body is read.
-/

import Ijson.ChunkStream
import Ijson.ContentLength
import Ijson.Registrations

namespace Ijson

open Program Routine

/-! ### Memory -/

/-- The bytes at a place; a block that was given back has none. -/
def Server.memory (s : Server) (c : ConnId) : Place → Option Bytes
  | .array => some (s.arrays (s.conns c).nloop)
  | .block number =>
      if number = (s.conns c).http.buffer.block then some (s.conns c).http.buffer.mem else none

/-- What `header_option` shows. -/
def Server.optionText (s : Server) (c : ConnId) : Option Bytes :=
  match (s.conns c).http.headerOption with
  | none => some []
  | some view => (s.memory c view.place).map fun mem => (mem.drop view.start).take view.length

/-- A test of the option reads what the view shows. -/
theorem option_outcome (s : Server) (c : ConnId) : (option c).outcome Action.apply s =
    match s.optionText c with
    | some text => .returned s text
    | none => .fault := by
  unfold option Server.optionText
  rw [outcome_bind, outcome_get]
  simp only [Outcome.bind]
  cases (s.conns c).http.headerOption with
  | none => rfl
  | some view =>
      simp only [Server.memory]
      cases view.place with
      | array => rfl
      | block number =>
          simp only
          by_cases own : number = (s.conns c).http.buffer.block
          · rw [if_pos own, if_pos own]
            rfl
          · rw [if_neg own, if_neg own]
            rfl

section

variable {s t : Server} {c : ConnId}

theorem memory_congr (view : SameView c s t) (arrays : t.arrays = s.arrays) (place : Place) :
    t.memory c place = s.memory c place := by
  cases place with
  | array => rw [Server.memory, Server.memory, arrays, view.nloop]
  | block number => rw [Server.memory, Server.memory, view.block, view.mem]

theorem Unfed.sameView (unfed : Unfed s t) (c : ConnId) : SameView c s t := by
  have intake := unfed.intake c
  constructor
  · exact congrArg Intake.headerOption intake
  · exact congrArg (fun intake => intake.buffer.mem) intake
  · exact congrArg (fun intake => intake.buffer.block) intake
  · exact unfed.grounded.nloop c

theorem Unfed.optionText (unfed : Unfed s t) (c : ConnId) : t.optionText c = s.optionText c := by
  have view := unfed.sameView c
  unfold Server.optionText
  rw [view.headerOption]
  cases (s.conns c).http.headerOption with
  | none => rfl
  | some view' => simp only [memory_congr view unfed.arrays]

end

/-! ### Chunks over each other -/

theorem getElem?_receive (chunk mem : Bytes) (p : Nat) :
    (chunk ++ mem.drop chunk.length)[p]? = chunk[p]?.or mem[p]? := by
  by_cases inside : p < chunk.length
  · rw [List.getElem?_append_left inside, List.getElem?_eq_getElem inside]
    rfl
  · rw [List.getElem?_append_right (Nat.le_of_not_lt inside), List.getElem?_drop,
      Nat.add_sub_cancel' (Nat.le_of_not_lt inside), List.getElem?_eq_none (Nat.le_of_not_lt inside)]
    rfl

/-- The byte at a place that held `byte`, after the chunks. -/
def lastByte (p : Nat) (byte : Option UInt8) (chunks : List Bytes) : Option UInt8 :=
  chunks.foldl (fun byte chunk => chunk[p]?.or byte) byte

/-- The last chunk to reach a byte of the text has the same byte there. -/
def Unspoiled (start : Nat) (text : Bytes) (chunks : List Bytes) : Prop :=
  ∀ i, i < text.length → lastByte (start + i) text[i]? chunks = text[i]?

/-- The bytes at `start` are the text, byte by byte. -/
theorem shows_iff (mem text : Bytes) (start : Nat) : (mem.drop start).take text.length = text ↔
    ∀ i, i < text.length → mem[start + i]? = text[i]? := by
  constructor
  · intro same i inside
    rw [← same, List.getElem?_take, if_pos inside, List.getElem?_drop]
  · intro same
    apply List.ext_getElem?
    intro i
    rw [List.getElem?_take, List.getElem?_drop]
    by_cases inside : i < text.length
    · rw [if_pos inside, same i inside]
    · rw [if_neg inside, List.getElem?_eq_none (Nat.le_of_not_lt inside)]

/-! ### The head -/

/-- The line is an option header. -/
def isOption (line : Bytes) : Bool := startsWithLc (lineText line) (ascii "option: ")

theorem startsWithLc_first {data key other : Bytes} (starts : startsWithLc data key = true)
    (nonempty : key ≠ [] ∧ other ≠ []) (different : key.head? ≠ other.head?) :
    ¬ startsWithLc data other = true := by
  intro both
  cases key with
  | nil => exact nonempty.1 rfl
  | cons k key =>
      cases other with
      | nil => exact nonempty.2 rfl
      | cons l other =>
          cases data with
          | nil => cases starts
          | cons a data =>
              simp only [startsWithLc, Bool.and_eq_true, beq_iff_eq] at starts both
              exact different (congrArg some (starts.1.trans both.1.symm))

theorem read_option {data : Bytes} (starts : startsWithLc data (ascii "option: ") = true) :
    Http.Header.read data = .ok (.option (data.length - 8)) := by
  have other : ∀ key : Bytes, ascii "option: " ≠ [] ∧ key ≠ [] → (ascii "option: ").head? ≠ key.head? →
      ¬ startsWithLc data key = true := fun _ => startsWithLc_first starts
  rw [Http.Header.read, if_neg (other _ (by decide) (by decide)), if_neg (other _ (by decide) (by decide)),
    if_neg (other _ (by decide) (by decide)), if_neg (other _ (by decide) (by decide)),
    if_neg (other _ (by decide) (by decide)), if_pos starts]

theorem read_isOption {data : Bytes} {n : Nat} (readEq : Http.Header.read data = .ok (.option n)) :
    startsWithLc data (ascii "option: ") = true := by
  by_contra other
  rw [Http.Header.read, if_neg other] at readEq
  repeat' split at readEq
  all_goals first
    | exact map_ne_ok (fun _ => Http.Header.noConfusion) _ readEq
    | cases readEq

/-- A head is being read whose lines stand in `mem`; `option` is the view so far. -/
structure InHead (c : ConnId) (place : Place) (mem : Bytes) (length : Int) (option : Option View) (s : Server) :
    Prop where
  step : (s.conns c).http.step = .header
  contentLength : (s.conns c).http.contentLength = length
  body : (s.conns c).http.body = []
  ready : (s.conns c).ready = true
  memory : s.memory c place = some mem
  headerOption : (s.conns c).http.headerOption = option

section Head

variable (env : Env) {c : ConnId} {s : Server} {place : Place} {mem : Bytes} {length : Int}
  {option : Option View}

theorem readLines_line (fuel start : Nat) (tail : Bytes) {line : Bytes} {header : Http.Header}
    (head : InHead c place mem length option s) (plain : newline ∉ line) (text : lineText line ≠ [])
    (headerEq : Http.Header.read (lineText line) = .ok header) :
    ∃ t, GoesOn c
        (readLines env (headerCompleted env c) c (fuel + 1) ⟨place, start, line ++ newline :: tail⟩)
        (readLines env (headerCompleted env c) c fuel ⟨place, start + (line.length + 1), tail⟩) s t ∧
      InHead c place mem (Http.store 0 .array 0 header { Http.new with contentLength := length }).contentLength
        (Http.store 0 place start header { Http.new with headerOption := option }).headerOption t := by
  obtain ⟨read, storeEq⟩ : ∃ read, (s.conns c).http.store (env.now s.tick) place start header = read :=
    ⟨_, rfl⟩
  have readEq : (s.conns c).http.readHeader (env.now s.tick) place start (lineText line) = .ok read := by
    rw [Http.readHeader, headerEq, ← storeEq]
    rfl
  obtain ⟨t, tEq⟩ : ∃ t, (s.note (.taken c (line ++ [newline]))).modify c
    (fun conn => { conn with http := read }) = t := ⟨_, rfl⟩
  have conn : t.conns c = { s.conns c with http := read } := by
    rw [← tEq, Server.modify_self]
    rfl
  refine ⟨t, ?_, ?_⟩
  · rw [readLines, popLine_some plain]
    have text : rstrip (line ++ [newline]) ≠ [] := text
    have nonempty : (rstrip (line ++ [newline])).isEmpty = false := List.isEmpty_eq_false_iff.mpr text
    apply GoesOn.look
    simp only [nonempty, head.step, reduceCtorEq, if_true, if_false, Bool.false_eq_true]
    rw [lineText] at readEq
    rw [readEq]
    refine GoesOn.perform (congrArg (Outcome.returned · ()) tEq) rfl ?_
    rw [List.length_append]
    exact GoesOn.here _ t
  · have step : read.step = (s.conns c).http.step := by
      rw [← storeEq]
      cases header <;> rfl
    have body : read.body = (s.conns c).http.body := by
      rw [← storeEq]
      cases header <;> rfl
    have buffer : read.buffer = (s.conns c).http.buffer := by
      rw [← storeEq]
      cases header <;> rfl
    constructor
    · rw [conn]
      exact step.trans head.step
    · rw [conn]
      change read.contentLength = _
      rw [← storeEq, ← head.contentLength]
      cases header <;> rfl
    · rw [conn]
      exact body.trans head.body
    · rw [conn]
      exact head.ready
    · rw [← head.memory]
      cases place with
      | array =>
          rw [Server.memory, Server.memory, conn, ← tEq]
          rfl
      | block number =>
          rw [Server.memory, Server.memory, conn]
          simp only [buffer]
    · rw [conn]
      change read.headerOption = _
      rw [← storeEq, ← head.headerOption]
      cases header <;> rfl

/-- Header lines one after another; the view stays where no line is an option. -/
theorem readLines_lines (fuel start : Nat) (tail : Bytes) {lines : List Bytes} {http read : Http}
    (head : InHead c place mem http.contentLength option s) (plain : ∀ line ∈ lines, newline ∉ line)
    (text : ∀ line ∈ lines, lineText line ≠ []) (readEq : readHeaders http lines = .ok read) :
    ∃ t option', GoesOn c
        (readLines env (headerCompleted env c) c (lines.length + fuel) ⟨place, start, unlines lines ++ tail⟩)
        (readLines env (headerCompleted env c) c fuel ⟨place, start + (unlines lines).length, tail⟩) s t ∧
      InHead c place mem read.contentLength option' t ∧
      ((∀ line ∈ lines, isOption line = false) → option' = option) := by
  induction lines generalizing s start http option with
  | nil =>
      cases readEq
      refine ⟨s, option, ?_, head, fun _ => rfl⟩
      rw [List.length_nil, Nat.zero_add]
      exact GoesOn.here _ s
  | cons line lines ih =>
      obtain ⟨header, headerEq, restEq⟩ := readHeaders_cons readEq
      have lengths : (http.store 0 .array 0 header).contentLength =
          (Http.store 0 .array 0 header { Http.new with contentLength := http.contentLength }).contentLength := by
        cases header <;> rfl
      obtain ⟨t, first, readOn⟩ := readLines_line env (lines.length + fuel) start (unlines lines ++ tail) head
        (plain line List.mem_cons_self) (text line List.mem_cons_self) headerEq
      rw [← lengths] at readOn
      obtain ⟨u, option', later, last, same⟩ := ih (start + (line.length + 1)) readOn
        (fun other member => plain other (List.mem_cons_of_mem line member))
        (fun other member => text other (List.mem_cons_of_mem line member)) restEq
      refine ⟨u, option', ?_, last, fun silent => ?_⟩
      · have whole : unlines (line :: lines) ++ tail = line ++ newline :: (unlines lines ++ tail) := by
          rw [unlines_cons]
          simp only [List.append_assoc, List.cons_append]
        have place : start + (unlines (line :: lines)).length =
            start + (line.length + 1) + (unlines lines).length := by
          rw [unlines_cons]
          simp only [List.length_append, List.length_cons]
          omega
        have count : (line :: lines).length + fuel = lines.length + fuel + 1 := by
          rw [List.length_cons]
          omega
        rw [whole, place, count]
        exact first.trans later
      · rw [same fun other member => silent other (List.mem_cons_of_mem line member)]
        have quiet := silent line List.mem_cons_self
        cases header with
        | option n =>
            rw [isOption, read_isOption headerEq] at quiet
            cases quiet
        | _ => rfl

theorem readLines_begun (fuel start : Nat) (tail : Bytes) {line : Bytes} {t : Server}
    (step : (s.conns c).http.step = .start) (opened : (s.conns c).closed = false) (plain : newline ∉ line)
    (path : (Http.readMethod (lineText line)).1 ≠ []) (text : lineText line ≠ [])
    (returned : s.begin c (line ++ [newline]) (lineText line) = .returned t ()) :
    Comes Action.apply (readLines env (headerCompleted env c) c (fuel + 1) ⟨place, start, line ++ newline :: tail⟩) s
        [(.begin c (line ++ [newline]) (lineText line), s)]
        (readLines env (headerCompleted env c) c fuel ⟨place, start + (line.length + 1), tail⟩) t ∧
      Begun s c (lineText line) t := by
  have begun := begin_ends s c (line ++ [newline]) (lineText line)
  rw [returned] at begun
  have begun : Begun s c (lineText line) t := begun
  have named : (Http.readMethod (lineText line)).1.isEmpty = false := List.isEmpty_eq_false_iff.mpr path
  have stays : (t.conns c).closed = false := by rw [begun.closed, opened, named, Bool.false_or]
  refine ⟨?_, begun⟩
  rw [readLines, popLine_some plain]
  have text : rstrip (line ++ [newline]) ≠ [] := text
  have nonempty : (rstrip (line ++ [newline])).isEmpty = false := List.isEmpty_eq_false_iff.mpr text
  apply Comes.look
  simp only [nonempty, step, if_true, if_false, Bool.false_eq_true]
  refine Comes.perform returned (Comes.look ?_)
  simp only [stays, Bool.false_eq_true, if_false]
  rw [List.length_append]
  exact comes_here _ t

theorem Begun.inHead {line : Bytes} {t : Server} (begun : Begun s c (lineText line) t)
    (path : (Http.readMethod (lineText line)).1 ≠ []) (ready : (s.conns c).ready = true)
    (memory : s.memory c place = some mem) : InHead c place mem 0 none t := by
  have named : (Http.readMethod (lineText line)).1.isEmpty = false := List.isEmpty_eq_false_iff.mpr path
  constructor
  · rw [begun.http, named]
    rfl
  · rw [begun.http]
    rfl
  · rw [begun.http]
    rfl
  · exact begun.ready.trans ready
  · rw [← memory]
    cases place with
    | array => rw [Server.memory, Server.memory, begun.arrays, begun.grounded.nloop]
    | block number =>
        rw [Server.memory, Server.memory, begun.http]
        rfl
  · rw [begun.http]
    rfl

end Head

/-! ### The body -/

/-- A chunk of the body, behind what was read of other connections of the loop since the last one. -/
abbrev Arrival : Type := List Bytes × Bytes

/-- All that is read into the array, in order. -/
def reads (arrivals : List Arrival) : List Bytes := arrivals.flatMap fun arrival => arrival.1 ++ [arrival.2]

theorem reads_cons (others : List Bytes) (chunk : Bytes) (arrivals : List Arrival) :
    reads ((others, chunk) :: arrivals) = (others ++ [chunk]) ++ reads arrivals := List.flatMap_cons

/-- A body that is whole leaves nothing to arrive. -/
theorem arrivals_nil {arrivals : List Arrival} (received : ∀ arrival ∈ arrivals, arrival.2 ≠ [])
    (nothing : (arrivals.map Prod.snd).flatten.length = 0) : arrivals = [] := by
  cases arrivals with
  | nil => rfl
  | cons arrival arrivals =>
      have empty : arrival.2 ++ (arrivals.map Prod.snd).flatten = [] := List.eq_nil_of_length_eq_zero nothing
      exact absurd (List.append_eq_nil_iff.mp empty).1 (received arrival List.mem_cons_self)

/-- What the loop does between two reads of `c`: `others` is received into the array, and the
connection is left where it was. -/
structure Meanwhile (c : ConnId) (others : List Bytes) (s t : Server) : Prop where
  intake : (t.conns c).http.intake = (s.conns c).http.intake
  body : (t.conns c).http.body = (s.conns c).http.body
  ready : (t.conns c).ready = (s.conns c).ready
  nloop : (t.conns c).nloop = (s.conns c).nloop
  arrays : ∀ p : Nat, (t.arrays (s.conns c).nloop)[p]? = lastByte p (s.arrays (s.conns c).nloop)[p]? others

/-- The moments of `c` while its chunks come in, with other things done before each of them. -/
inductive Receiving (env : Env) (c : ConnId) : Server → List Arrival → List (Action × Server) → Prop where
  | done (s : Server) : Receiving env c s [] []
  | next {s t u : Server} {others : List Bytes} {chunk : Bytes} {arrivals : List Arrival}
      {moments later : List (Action × Server)} (meanwhile : Meanwhile c others s t)
      (ran : (receiveChunk env (headerCompleted env c) c chunk).run Action.apply t = (moments, .returned u ()))
      (rest : Receiving env c u arrivals later) : Receiving env c s ((others, chunk) :: arrivals) (moments ++ later)
  | ended {s t : Server} {others : List Bytes} {chunk : Bytes} {arrivals : List Arrival} (meanwhile : Meanwhile c others s t)
      (stops : ∀ u, (receiveChunk env (headerCompleted env c) c chunk).outcome Action.apply t ≠ .returned u ()) :
      Receiving env c s ((others, chunk) :: arrivals)
        ((receiveChunk env (headerCompleted env c) c chunk).run Action.apply t).1

section

variable {env : Env} {c : ConnId} {s t : Server} {n : Nat} {got : Bytes}

theorem Meanwhile.refl (c : ConnId) (s : Server) : Meanwhile c [] s s := ⟨rfl, rfl, rfl, rfl, fun _ => rfl⟩

theorem Meanwhile.sameView {others : List Bytes} (meanwhile : Meanwhile c others s t) : SameView c s t where
  headerOption := congrArg Intake.headerOption meanwhile.intake
  mem := congrArg (fun intake => intake.buffer.mem) meanwhile.intake
  block := congrArg (fun intake => intake.buffer.block) meanwhile.intake
  nloop := meanwhile.nloop

theorem Meanwhile.awaits {others : List Bytes} (meanwhile : Meanwhile c others s t) (awaits : AwaitsBody c n got s) :
    AwaitsBody c n got t where
  step := (congrArg Intake.step meanwhile.intake).trans awaits.step
  length := (congrArg Intake.contentLength meanwhile.intake).trans awaits.length
  body := meanwhile.body.trans awaits.body
  missing := awaits.missing
  ready := meanwhile.ready.trans awaits.ready
  empty := (congrArg (fun intake => intake.buffer.size) meanwhile.intake).trans awaits.empty

theorem receiveChunk_part (env : Env) (awaits : AwaitsBody c n got t) {chunk : Bytes}
    (shorter : (got ++ chunk).length < n) :
    ∃ read, Quietly c (receiveChunk env (headerCompleted env c) c chunk) t read ∧
      AwaitsBody c n (got ++ chunk) read ∧ SameView c t read ∧
      ∀ p : Nat, (read.arrays (t.conns c).nloop)[p]? = chunk[p]?.or (t.arrays (t.conns c).nloop)[p]? := by
  obtain ⟨middle, parses, goesOn, view, arrays⟩ := receiveChunk_parses env awaits chunk
  obtain ⟨read, quiet, next, kept, same⟩ := parse_part env parses shorter
  refine ⟨read, goesOn.quietly quiet, next, view.trans kept, fun p => ?_⟩
  rw [same, arrays, Function.update_self, getElem?_receive]

theorem receiveChunk_whole (env : Env) (awaits : AwaitsBody c n got t) {chunk : Bytes}
    (whole : n ≤ (got ++ chunk).length) :
    ∃ ended, completion c ((receiveChunk env (headerCompleted env c) c chunk).run Action.apply t).1 = some ended ∧
      SameView c t ended ∧
      ∀ p : Nat, (ended.arrays (t.conns c).nloop)[p]? = chunk[p]?.or (t.arrays (t.conns c).nloop)[p]? := by
  obtain ⟨middle, parses, goesOn, view, arrays⟩ := receiveChunk_parses env awaits chunk
  obtain ⟨ended, complete, _, kept, same⟩ := parse_whole env parses whole
  rw [← goesOn.handed] at complete
  refine ⟨ended, complete, view.trans kept, fun p => ?_⟩
  rw [same, arrays, Function.update_self, getElem?_receive]

theorem lastByte_append (p : Nat) (byte : Option UInt8) (first second : List Bytes) :
    lastByte p byte (first ++ second) = lastByte p (lastByte p byte first) second := List.foldl_append

/-- All that is read lies over each other in the receive array. -/
theorem Receiving.view {arrivals : List Arrival} {moments : List (Action × Server)}
    (receiving : Receiving env c s arrivals moments) (awaits : AwaitsBody c n got s)
    (whole : (got ++ (arrivals.map Prod.snd).flatten).length = n) (received : ∀ arrival ∈ arrivals, arrival.2 ≠ []) :
    ∃ t, completion c moments = some t ∧ SameView c s t ∧
      ∀ p : Nat, (t.arrays (s.conns c).nloop)[p]? = lastByte p (s.arrays (s.conns c).nloop)[p]? (reads arrivals) := by
  -- one chunk, behind what others have received
  have laid : ∀ {t u : Server} {others : List Bytes} {chunk : Bytes} {s : Server}, Meanwhile c others s t →
      (∀ p : Nat, (u.arrays (t.conns c).nloop)[p]? = chunk[p]?.or (t.arrays (t.conns c).nloop)[p]?) →
      ∀ p : Nat, (u.arrays (s.conns c).nloop)[p]? =
        lastByte p (s.arrays (s.conns c).nloop)[p]? (others ++ [chunk]) := by
    intro t u others chunk s meanwhile bytes p
    rw [lastByte_append, ← meanwhile.arrays p, ← meanwhile.nloop, bytes p]
    rfl
  induction receiving generalizing got with
  | done s =>
      rw [List.map_nil, List.flatten_nil, List.append_nil] at whole
      exact absurd awaits.missing (Nat.not_lt.mpr (Nat.le_of_eq whole.symm))
  | @next s t u others chunk arrivals moments later meanwhile ran rest ih =>
      have whole : ((got ++ chunk) ++ (arrivals.map Prod.snd).flatten).length = n := by
        rw [List.append_assoc]
        exact whole
      have still := meanwhile.awaits awaits
      by_cases shorter : (got ++ chunk).length < n
      · obtain ⟨read, quiet, next, view, bytes⟩ := receiveChunk_part env still shorter
        have silent := quiet.silent
        have returns : (Outcome.returned u () : Outcome Server Exc Unit) = .returned read () :=
          (congrArg Prod.snd ran).symm.trans quiet.returns
        cases returns
        rw [ran] at silent
        obtain ⟨ended, complete, last, behind⟩ := ih next whole fun arrival member =>
          received arrival (List.mem_cons_of_mem _ member)
        have both := meanwhile.sameView.trans view
        refine ⟨ended, ?_, both.trans last, fun p => ?_⟩
        · rw [completion_append silent, complete]
        · rw [← both.nloop, behind p, both.nloop, laid meanwhile bytes p, ← lastByte_append, reads_cons]
      · obtain ⟨ended, complete, view, bytes⟩ := receiveChunk_whole env still (Nat.le_of_not_lt shorter)
        rw [List.length_append] at whole
        have last := arrivals_nil (fun arrival member => received arrival (List.mem_cons_of_mem _ member)) (by omega)
        rw [ran] at complete
        refine ⟨ended, completion_of_first complete _, meanwhile.sameView.trans view, fun p => ?_⟩
        rw [laid meanwhile bytes p, last, reads_cons, reads, List.flatMap_nil, List.append_nil]
  | @ended s t others chunk arrivals meanwhile stops =>
      have whole : ((got ++ chunk) ++ (arrivals.map Prod.snd).flatten).length = n := by
        rw [List.append_assoc]
        exact whole
      have still := meanwhile.awaits awaits
      by_cases shorter : (got ++ chunk).length < n
      · obtain ⟨read, quiet, -⟩ := receiveChunk_part env still shorter
        exact absurd quiet.returns (stops read)
      · obtain ⟨ended, complete, view, bytes⟩ := receiveChunk_whole env still (Nat.le_of_not_lt shorter)
        rw [List.length_append] at whole
        have last := arrivals_nil (fun arrival member => received arrival (List.mem_cons_of_mem _ member)) (by omega)
        refine ⟨ended, complete, meanwhile.sameView.trans view, fun p => ?_⟩
        rw [laid meanwhile bytes p, last, reads_cons, reads, List.flatMap_nil, List.append_nil]

end

/-! ### Reads of other connections -/

/-- The parser of `c` and the receive arrays are as they were. -/
structure Undisturbed (c : ConnId) (s t : Server) : Prop where
  intake : (t.conns c).http.intake = (s.conns c).http.intake
  nloop : (t.conns c).nloop = (s.conns c).nloop
  arrays : t.arrays = s.arrays

namespace Undisturbed

variable {c d : ConnId} {s t u : Server}

theorem refl (c : ConnId) (s : Server) : Undisturbed c s s := ⟨rfl, rfl, rfl⟩

theorem trans (first : Undisturbed c s t) (second : Undisturbed c t u) : Undisturbed c s u :=
  ⟨second.intake.trans first.intake, second.nloop.trans first.nloop, second.arrays.trans first.arrays⟩

theorem of_unfed (unfed : Unfed s t) (c : ConnId) : Undisturbed c s t :=
  ⟨unfed.intake c, unfed.grounded.nloop c, unfed.arrays⟩

theorem changed {event : Event} {change : Conn → Conn} (other : d ≠ c) :
    Undisturbed c s ((s.note event).modify d change) := by
  have same : ((s.note event).modify d change).conns c = s.conns c := by
    rw [Server.modify_conns, if_neg other.symm]
    rfl
  exact ⟨by rw [same], by rw [same], rfl⟩

/-- The parser of another connection is at work. -/
theorem apply_reader {action : Action} (other : d ≠ c) (reads : action.reader = some d) (s : Server) :
    (action.apply s).Ends (fun _ t => Undisturbed c s t) fun _ t => Undisturbed c s t := by
  cases action with
  | edit x taken change =>
      cases reads
      exact changed other
  | begin x taken line =>
      cases reads
      refine Ends.mono (begin_ends s d taken line) (fun _ t begun => ?_) fun _ t cleared => ?_
      · exact ⟨congrArg (fun held => held.2.2) (begun.others c other.symm), begun.grounded.nloop c, begun.arrays⟩
      · exact ⟨congrArg (fun held => held.2.2) (cleared.others c other.symm), cleared.grounded.nloop c, cleared.arrays⟩
  | endHead x taken body =>
      cases reads
      exact changed other
  | rewind x =>
      cases reads
      have rewound : Undisturbed c s (s.modify d fun conn => { conn with http := { conn.http with step := .start } }) :=
        ⟨by rw [Server.modify_conns, if_neg other.symm], by rw [Server.modify_conns, if_neg other.symm], rfl⟩
      exact ⟨rewound.intake, rewound.nloop, rfl⟩
  | _ => cases reads

/-- Arriving another connection leaves the parser of `c` and the arrays alone. -/
theorem onRecv_heeds (env : Env) (other : d ≠ c) (chunk : Bytes) :
    Heeds Action.apply (fun action s => (action.apply s).Ends (fun _ t => Undisturbed c s t) fun _ t => Undisturbed c s t)
      (guarded (onRecv env d chunk) d) := by
  have frees := readsNothing_frees
  have attends : Routine.Attends d fun action s =>
      (action.apply s).Ends (fun _ t => Undisturbed c s t) fun _ t => Undisturbed c s t := by
    constructor
    · intro action serves _ s
      exact Ends.mono (frees.plain action serves s) (fun _ _ unfed => of_unfed unfed c) fun _ _ unfed => of_unfed unfed c
    · intro change keeps moves s assigns
      exact Ends.mono (frees.edit d change keeps moves s assigns) (fun _ _ unfed => of_unfed unfed c) fun _ _ unfed =>
        of_unfed unfed c
  have parses := @Routine.Parses.free env _ d fun action reads s => @apply_reader c d action other reads s
  refine Routine.guarded_heeds attends (fun s => ?_) (Routine.onRecvWith_heeds attends ?_ parses (fun s => ?_) chunk)
  · exact Ends.mono (Unfed.apply_unfed s rfl fun _ _ => Action.noConfusion) (fun _ _ unfed => of_unfed unfed c)
      fun _ _ unfed => of_unfed unfed c
  · refine Routine.headerCompleted_heeds attends (Routine.anyRegister_heeds attends fun _ s => ?_)
    exact Ends.mono (Unfed.apply_unfed s rfl fun _ _ => Action.noConfusion) (fun _ _ unfed => of_unfed unfed c)
      fun _ _ unfed => of_unfed unfed c
  · exact apply_reader other rfl s

end Undisturbed

/-- A read of another connection is received over the array of its loop, and leaves `c` alone as long as
it does not touch its status or its body. -/
theorem recv_meanwhile {env : Env} {c d : ConnId} {s t : Server} {chunk : Bytes} (other : d ≠ c)
    (returned : ((Input.recv d chunk env).run s).2 = .returned t ())
    (ready : (t.conns c).ready = (s.conns c).ready) (body : (t.conns c).http.body = (s.conns c).http.body) :
    Meanwhile c (if (s.conns d).nloop = (s.conns c).nloop then [chunk] else []) s t := by
  obtain ⟨counted, countedEq⟩ : ∃ counted, (Action.count fun stats => { stats with ioevent := stats.ioevent + 1 }).apply s =
    .returned counted () := ⟨_, rfl⟩
  obtain ⟨read, readEq⟩ : ∃ read, (Action.receive (s.conns d).nloop chunk).apply counted = .returned read () := ⟨_, rfl⟩
  have ends : (Input.routine s (.recv d chunk env)).wp Action.apply (fun _ _ => True) (fun _ u => Undisturbed c read u)
      (fun _ u => Undisturbed c read u) s := by
    rw [Input.routine, Input.inLoop, wp_catching]
    refine wp_perform_bind trivial ?_
    rw [countedEq, Ends_returned]
    refine wp_perform_bind trivial ?_
    rw [readEq, Ends_returned]
    have served := Program.Heeds.relates (Undisturbed.refl c) Undisturbed.trans (Undisturbed.onRecv_heeds env other chunk) read
    refine wp_weaken (wp_mono served (fun _ _ after => after) fun error u after => ?_) fun _ _ _ => trivial
    rw [wp_perform]
    refine ⟨trivial, Ends.mono (Unfed.apply_unfed u rfl fun _ _ => Action.noConfusion) (fun _ _ unfed => ?_) fun _ _ unfed => ?_⟩
    · exact after.trans (Undisturbed.of_unfed unfed c)
    · exact after.trans (Undisturbed.of_unfed unfed c)
  have outcome := outcome_ends ends
  rw [show (Input.routine s (.recv d chunk env)).outcome Action.apply s = .returned t () from returned] at outcome
  have undisturbed : Undisturbed c read t := outcome
  cases countedEq
  cases readEq
  refine ⟨undisturbed.intake, body, ready, undisturbed.nloop, fun p => ?_⟩
  rw [undisturbed.arrays]
  change (Function.update s.arrays (s.conns d).nloop _ (s.conns c).nloop)[p]? = _
  by_cases same : (s.conns d).nloop = (s.conns c).nloop
  · rw [if_pos same, same, Function.update_self, getElem?_receive]
    rfl
  · rw [if_neg same, Function.update_of_ne (Ne.symm same)]
    rfl

/-- The head has been read from its chunk, and what is left of the body comes in afterwards. -/
inductive Arriving (env : Env) (c : ConnId) (fuel : Nat) (cursor : Cursor) (s : Server) (arrivals : List Arrival) :
    List (Action × Server) → Prop where
  | goes {u : Server} {moments later : List (Action × Server)}
      (ran : (readLines env (headerCompleted env c) c fuel cursor).run Action.apply s = (moments, .returned u ()))
      (rest : Receiving env c u arrivals later) : Arriving env c fuel cursor s arrivals (moments ++ later)
  | ended (stops : ∀ u, (readLines env (headerCompleted env c) c fuel cursor).outcome Action.apply s ≠ .returned u ()) :
      Arriving env c fuel cursor s arrivals ((readLines env (headerCompleted env c) c fuel cursor).run Action.apply s).1

/-! ### The whole request -/

/-- A request with an option and a body is about to be read: its head and the `front`
of its body stand in memory, and the rest of the body comes in chunks. -/
structure OptionArrives (c : ConnId) (s : Server) (r : RawRequest) (before : List Bytes) (line : Bytes)
    (cursor : Cursor) (front : Bytes) (arrivals : List Arrival) : Prop where
  wellFormed : r.WellFormed
  headers : ∃ after, r.headers = before ++ line :: after ∧ ∀ other ∈ after, isOption other = false
  option : isOption line = true
  body : r.body ≠ []
  cut : r.body = front ++ (arrivals.map Prod.snd).flatten
  received : ∀ arrival ∈ arrivals, arrival.2 ≠ []
  data : cursor.data = r.head ++ front
  memory : ∃ mem, s.memory c cursor.place = some mem ∧ cursor.data <+: mem.drop cursor.start
  ready : (s.conns c).ready = true
  step : (s.conns c).http.step = .start
  opened : (s.conns c).closed = false
  begins : ∃ t, s.begin c (r.start ++ [newline]) (lineText r.start) = .returned t ()

/-- The value of an option header. -/
def optionValue (line : Bytes) : Bytes := (lineText line).drop 8

/-- How far behind the start of the head it stands. -/
def optionStart (r : RawRequest) (before : List Bytes) : Nat := r.start.length + 1 + (unlines before).length + 8

/-- All the time that the request is served, its option reads `text`. -/
def ReadsOption (env : Env) (c : ConnId) (text : Bytes) (moments : List (Action × Server)) : Prop :=
  ∃ t, completion c moments = some t ∧
    ∀ moment ∈ ((headerCompleted env c).run Action.apply t).1, moment.2.optionText c = some text

theorem completion_none {c : ConnId} {moments : List (Action × Server)} (nothing : completion c moments = none) :
    ∀ moment ∈ moments, moment.1.completes c = false := by
  rw [completion, Option.map_eq_none_iff, List.find?_eq_none] at nothing
  exact fun moment member => Bool.eq_false_iff.mpr (nothing moment member)

theorem headerCompleted_first (env : Env) (c : ConnId) (t : Server) :
    (.complete c, t) ∈ ((headerCompleted env c).run Action.apply t).1 := by
  unfold headerCompleted
  rw [moments_bind, moments_perform]
  exact List.mem_append_left _ List.mem_cons_self

theorem readsOption_iff {env : Env} {c : ConnId} {text : Bytes} {moments : List (Action × Server)} {t : Server}
    (complete : completion c moments = some t) : ReadsOption env c text moments ↔ t.optionText c = some text := by
  constructor
  · rintro ⟨u, again, whole⟩
    rw [complete] at again
    cases again
    exact whole _ (headerCompleted_first env c t)
  · intro reads
    refine ⟨t, complete, fun moment member => ?_⟩
    rw [(Heeds.unfed (headerCompleted_readsNothing env c) t member).optionText c, reads]

section

variable {env : Env} {c : ConnId} {s : Server} {r : RawRequest} {before : List Bytes} {line : Bytes}
  {cursor : Cursor} {front : Bytes} {arrivals : List Arrival} {moments : List (Action × Server)}

theorem getElem?_prefix {left right : Bytes} (isPrefix : left <+: right) {i : Nat} (inside : i < left.length) :
    right[i]? = left[i]? := by
  obtain ⟨rest, same⟩ := isPrefix
  rw [← same, List.getElem?_append_left inside]

theorem rstrip_front (line : Bytes) : rstrip line <+: line := by
  have suffix := List.dropWhile_suffix (l := line.reverse) fun a => a = blank || a = newline || a = 13
  have reversed := List.reverse_prefix.mpr suffix
  rwa [List.reverse_reverse] at reversed

/-- The bytes of the option in memory, before the chunks. -/
theorem OptionArrives.stands (arrives : OptionArrives c s r before line cursor front arrivals) {mem : Bytes}
    (isPrefix : cursor.data <+: mem.drop cursor.start) {i : Nat} (inside : i < (optionValue line).length) :
    mem[cursor.start + optionStart r before + i]? = (optionValue line)[i]? := by
  obtain ⟨after, split, _⟩ := arrives.headers
  have long : 8 + i < (lineText line).length := by
    rw [optionValue, List.length_drop] at inside
    omega
  have value : (optionValue line)[i]? = (lineText line)[8 + i]? := by
    rw [optionValue, List.getElem?_drop]
  have inLine : (line ++ [newline])[8 + i]? = (lineText line)[8 + i]? :=
    getElem?_prefix (rstrip_front _) long
  have shorter := (rstrip_front (line ++ [newline])).length_le
  have data : cursor.data = (r.start ++ [newline]) ++ unlines before ++
      ((line ++ [newline]) ++ (unlines after ++ (r.blankLine ++ [newline]) ++ front)) := by
    rw [arrives.data, RawRequest.head, RawRequest.lines, split]
    simp [unlines, List.flatMap_append]
  have inData : cursor.data[optionStart r before + i]? = (line ++ [newline])[8 + i]? := by
    have skip : ((r.start ++ [newline]) ++ unlines before).length + (8 + i) = optionStart r before + i := by
      rw [optionStart, List.length_append, List.length_append]
      simp only [List.length_cons, List.length_nil]
      omega
    rw [data, ← skip, List.getElem?_append_right (Nat.le_add_right _ _), Nat.add_sub_cancel_left]
    rw [lineText] at long
    rw [List.getElem?_append_left (Nat.lt_of_lt_of_le long shorter)]
  have bound : optionStart r before + i < cursor.data.length := by
    apply Nat.lt_of_not_le
    intro outside
    rw [List.getElem?_eq_none outside] at inData
    exact Nat.not_le.mpr (Nat.lt_of_lt_of_le long shorter) (List.getElem?_eq_none_iff.mp inData.symm)
  rw [value, ← inLine, ← inData, ← getElem?_prefix isPrefix bound, List.getElem?_drop, Nat.add_assoc]

theorem length_le_unlines (lines : List Bytes) : lines.length ≤ (unlines lines).length := by
  induction lines with
  | nil => exact Nat.le_refl 0
  | cons line lines ih =>
      rw [unlines_cons]
      simp only [List.length_append, List.length_cons]
      omega

theorem readHeaders_split {http read : Http} {lines rest : List Bytes}
    (readEq : readHeaders http (lines ++ rest) = .ok read) :
    ∃ middle, readHeaders http lines = .ok middle ∧ readHeaders middle rest = .ok read := by
  induction lines generalizing http with
  | nil => exact ⟨http, rfl, readEq⟩
  | cons line lines ih =>
      obtain ⟨header, headerEq, restEq⟩ := readHeaders_cons readEq
      obtain ⟨middle, first, later⟩ := ih restEq
      refine ⟨middle, ?_, later⟩
      rw [readHeaders, Http.readHeader, headerEq]
      exact first

theorem memory_block {t : Server} (view : SameView c s t) {place : Place} (block : place ≠ .array) :
    t.memory c place = s.memory c place := by
  cases place with
  | array => exact absurd rfl block
  | block number => rw [Server.memory, Server.memory, view.block, view.mem]

/-- The lines of the head are read up to the blank one. -/
theorem OptionArrives.head (env : Env) (arrives : OptionArrives c s r before line cursor front arrivals)
    {mem : Bytes} (stands : s.memory c cursor.place = some mem) {fuel : Nat}
    (enough : cursor.data.length < fuel) :
    ∃ u f start, GoesOn c (readLines env (headerCompleted env c) c fuel cursor)
        (readLines env (headerCompleted env c) c (f + 1)
          ⟨cursor.place, start, r.blankLine ++ newline :: front⟩) s u ∧
      InHead c cursor.place mem r.body.length
        (some ⟨cursor.place, cursor.start + optionStart r before, (optionValue line).length⟩) u := by
  obtain ⟨after, split, last⟩ := arrives.headers
  obtain ⟨t, begins⟩ := arrives.begins
  obtain ⟨http, readEq, lengthEq⟩ := arrives.wellFormed.parsed
  rw [split] at readEq
  obtain ⟨first, firstEq, readEq⟩ := readHeaders_split readEq
  obtain ⟨header, headerEq, lastEq⟩ := readHeaders_cons readEq
  rw [read_option arrives.option] at headerEq
  cases headerEq
  have plain := arrives.wellFormed.plain
  have texts := arrives.wellFormed.headerText
  rw [RawRequest.lines, split] at plain
  rw [split] at texts
  obtain ⟨place, start, data⟩ := cursor
  obtain ⟨blank, blankEq⟩ : ∃ blank, r.blankLine ++ newline :: front = blank := ⟨_, rfl⟩
  have dataEq : data = r.start ++ newline :: (unlines before ++ (line ++ newline :: (unlines after ++ blank))) := by
    have whole : data = r.head ++ front := arrives.data
    rw [whole, RawRequest.head, RawRequest.lines, split, ← blankEq]
    simp [unlines, List.flatMap_append]
  have count : before.length + after.length + 3 < fuel := by
    have longBefore := length_le_unlines before
    have longAfter := length_le_unlines after
    have enough : data.length < fuel := enough
    rw [dataEq, ← blankEq] at enough
    simp only [List.length_append, List.length_cons] at enough
    omega
  obtain ⟨f, fuelEq⟩ : ∃ f, fuel = before.length + (after.length + (f + 1) + 1) + 1 :=
    ⟨fuel - before.length - after.length - 3, by omega⟩
  obtain ⟨begins, started⟩ := readLines_begun env (before.length + (after.length + (f + 1) + 1)) start
    (unlines before ++ (line ++ newline :: (unlines after ++ blank))) arrives.step arrives.opened
    (plain _ (by simp)) arrives.wellFormed.path (lineText_start arrives.wellFormed) begins
  have begun : InHead c place mem r.started.contentLength none t :=
    started.inHead arrives.wellFormed.path arrives.ready stands
  have toHead : GoesOn c _ _ s t := ⟨_, begins, List.forall_mem_singleton.mpr rfl⟩
  obtain ⟨u, seen, toOption, upTo, _⟩ := readLines_lines env (after.length + (f + 1) + 1)
    (start + (r.start.length + 1)) (line ++ newline :: (unlines after ++ blank)) begun
    (fun other member => plain other (by simp [member])) (fun other member => texts other (by simp [member]))
    firstEq
  obtain ⟨v, overOption, option⟩ := readLines_line env (after.length + (f + 1))
    (start + (r.start.length + 1) + (unlines before).length) (unlines after ++ blank) upTo
    (plain line (by simp)) (texts line (by simp)) (read_option arrives.option)
  have option : InHead c place mem (first.store 0 .array 0 (.option ((lineText line).length - 8))).contentLength
      (some ⟨place, start + (r.start.length + 1) + (unlines before).length + 8, (lineText line).length - 8⟩) v :=
    option
  obtain ⟨w, seen', toBlank, ends, same⟩ := readLines_lines env (f + 1)
    (start + (r.start.length + 1) + (unlines before).length + (line.length + 1)) blank option
    (fun other member => plain other (by simp [member])) (fun other member => texts other (by simp [member]))
    lastEq
  have view : start + (r.start.length + 1) + (unlines before).length + 8 = start + optionStart r before := by
    rw [optionStart]
    omega
  have value : (lineText line).length - 8 = (optionValue line).length := (List.length_drop).symm
  rw [same last, lengthEq, view, value] at ends
  have goes := ((toHead.trans toOption).trans overOption).trans toBlank
  rw [← dataEq, ← fuelEq, ← blankEq] at goes
  exact ⟨w, f, _, goes, ends⟩

/-- The request comes to be served, with a view to the place of its option, over
which only the reads of the loop have been received. -/
theorem OptionArrives.completes (arrives : OptionArrives c s r before line cursor front arrivals)
    {mem : Bytes} (stands : s.memory c cursor.place = some mem) {fuel : Nat} (enough : cursor.data.length < fuel)
    (serving : Arriving env c fuel cursor s arrivals moments) :
    ∃ t mem', completion c moments = some t ∧
      (t.conns c).http.headerOption =
        some ⟨cursor.place, cursor.start + optionStart r before, (optionValue line).length⟩ ∧
      t.memory c cursor.place = some mem' ∧
      ∀ p : Nat, mem'[p]? = lastByte p mem[p]? (if cursor.place = .array then reads arrivals else []) := by
  obtain ⟨u, f, start, goes, head⟩ := arrives.head env stands enough
  have plain : newline ∉ r.blankLine := arrives.wellFormed.plain _ (by simp [RawRequest.lines])
  have popped : popLine (Cursor.mk cursor.place start (r.blankLine ++ newline :: front)).data =
      some (r.blankLine ++ [newline], front) := popLine_some plain front
  have blank : rstrip (r.blankLine ++ [newline]) = [] := arrives.wellFormed.blankText
  have sum : front.length + (arrivals.map Prod.snd).flatten.length = r.body.length := by
    rw [arrives.cut, List.length_append]
  by_cases whole : r.body.length ≤ front.length
  · obtain ⟨t, complete, _, view, arrays⟩ :=
      blank_whole env f head.step popped blank head.contentLength whole head.body
    have silent := arrivals_nil arrives.received (by omega)
    rw [← goes.handed] at complete
    refine ⟨t, mem, ?_, view.headerOption.trans head.headerOption,
      (memory_congr view arrays _).trans head.memory, fun p => ?_⟩
    · cases serving with
      | goes ran rest =>
          rw [ran] at complete
          exact completion_of_first complete _
      | ended stops => exact complete
    · rw [silent, reads, List.flatMap_nil, ite_self]
      rfl
  · obtain ⟨middle, quiet, awaits, view, arrays⟩ := blank_part env f head.step popped blank head.contentLength
      (Nat.lt_of_not_le whole) head.ready
    have quietly := goes.quietly quiet
    obtain ⟨t, complete, last, bytes⟩ : ∃ t, completion c moments = some t ∧ SameView c middle t ∧
        ∀ p : Nat, (t.arrays (middle.conns c).nloop)[p]? =
          lastByte p (middle.arrays (middle.conns c).nloop)[p]? (reads arrivals) := by
      cases serving with
      | @goes v moments later ran rest =>
          have returns : (Outcome.returned v () : Outcome Server Exc Unit) = .returned middle () :=
            (congrArg Prod.snd ran).symm.trans quietly.returns
          cases returns
          have quiets := quietly.silent
          rw [ran] at quiets
          obtain ⟨t, complete, last, bytes⟩ := rest.view awaits (by rw [List.length_append]; exact sum) arrives.received
          exact ⟨t, (completion_append quiets later).trans complete, last, bytes⟩
      | ended stops => exact absurd quietly.returns (stops middle)
    have both := view.trans last
    have option := both.headerOption.trans head.headerOption
    have before := head.memory
    by_cases array : cursor.place = .array
    · rw [array, Server.memory, Option.some.injEq] at before
      refine ⟨t, t.arrays (middle.conns c).nloop, complete, option, ?_, fun p => ?_⟩
      · rw [array, Server.memory, last.nloop]
      · rw [if_pos array, bytes p, arrays, view.nloop, before]
    · refine ⟨t, mem, complete, option, (memory_block both array).trans before, fun p => ?_⟩
      rw [if_neg array]
      rfl

/-- The option that is tested is the one in the header exactly when the head stands
in the buffer, or each byte of the option survives all that the loop receives until the
body is whole, for this connection and for others. -/
theorem readsOption_iff_unspoiled (arrives : OptionArrives c s r before line cursor front arrivals) {fuel : Nat}
    (enough : cursor.data.length < fuel) (serving : Arriving env c fuel cursor s arrivals moments) :
    ReadsOption env c (optionValue line) moments ↔
      (cursor.place = .array →
        Unspoiled (cursor.start + optionStart r before) (optionValue line) (reads arrivals)) := by
  obtain ⟨mem, stands, isPrefix⟩ := arrives.memory
  obtain ⟨t, mem', complete, view, memory, bytes⟩ := arrives.completes stands enough serving
  have text : t.optionText c = some
      ((mem'.drop (cursor.start + optionStart r before)).take (optionValue line).length) := by
    rw [Server.optionText, view]
    simp only [memory, Option.map_some]
  rw [readsOption_iff complete, text, Option.some.injEq, shows_iff]
  have shown : ∀ i, i < (optionValue line).length →
      mem'[cursor.start + optionStart r before + i]? = lastByte (cursor.start + optionStart r before + i)
        (optionValue line)[i]? (if cursor.place = .array then reads arrivals else []) := by
    intro i inside
    rw [bytes, arrives.stands isPrefix inside]
  by_cases array : cursor.place = .array
  · rw [if_pos array] at shown
    constructor
    · intro same _ i inside
      rw [← shown i inside, same i inside]
    · intro unspoiled i inside
      rw [shown i inside, unspoiled array i inside]
  · rw [if_neg array] at shown
    constructor
    · exact fun _ isArray => absurd isArray array
    · exact fun _ i inside => shown i inside

end

theorem arriving_between {env : Env} {c : ConnId} {fuel : Nat} {cursor : Cursor} {s u t : Server} {others : List Bytes}
    (chunk : Bytes) (returned : (readLines env (headerCompleted env c) c fuel cursor).outcome Action.apply s = .returned u ())
    (meanwhile : Meanwhile c others u t) :
    Arriving env c fuel cursor s [(others, chunk)] (((readLines env (headerCompleted env c) c fuel cursor).run Action.apply s).1 ++
      ((receiveChunk env (headerCompleted env c) c chunk).run Action.apply t).1) := by
  refine .goes (Prod.ext rfl returned) ?_
  cases ends : (receiveChunk env (headerCompleted env c) c chunk).outcome Action.apply t with
  | returned v value =>
      have next := Receiving.next meanwhile (Prod.ext rfl ends) (.done v)
      rwa [List.append_nil] at next
  | thrown v error => exact .ended meanwhile fun w same => by rw [ends] at same; cases same
  | fault => exact .ended meanwhile fun w same => by rw [ends] at same; cases same

/-- A new connection whose first chunk is in the receive array, and another one of the same loop. -/
def holding (chunk : Bytes) : Server :=
  { oneConnection.set 1 (Conn.new 0 ⟨false, false, false⟩) with arrays := fun _ => chunk }

theorem holding_arrives {r : RawRequest} {before : List Bytes} (after : List Bytes) {line front : Bytes}
    {arrivals : List Arrival} (wellFormed : r.WellFormed) (split : r.headers = before ++ line :: after)
    (last : ∀ other ∈ after, isOption other = false) (option : isOption line = true) (body : r.body ≠ [])
    (cut : r.body = front ++ (arrivals.map Prod.snd).flatten)
    (received : ∀ arrival ∈ arrivals, arrival.2 ≠ []) :
    OptionArrives 0 (holding (r.head ++ front)) r before line ⟨.array, 0, r.head ++ front⟩ front arrivals := by
  have calm : Calm ((holding (r.head ++ front)).conns 0) := oneConnection_fresh.calm
  obtain ⟨t, begins, _⟩ := begin_calm calm (r.start ++ [newline]) wellFormed.path
  exact
    { wellFormed := wellFormed
      headers := ⟨after, split, last⟩
      option := option
      body := body
      cut := cut
      received := received
      data := rfl
      memory := ⟨_, rfl, List.prefix_refl _⟩
      ready := rfl
      step := rfl
      opened := rfl
      begins := ⟨t, begins⟩ }

/-- A task with the option `async`, and one with another option. -/
def optionRequest (option body : Bytes) : RawRequest :=
  { start := ascii "POST /a HTTP/1.1"
    headers := [ascii "Option: " ++ option, ascii "Content-Length: " ++ addNumber body.length]
    blankLine := []
    body := body }

theorem asyncRequest_wellFormed : (optionRequest (ascii "async") (ascii "ok")).WellFormed := by
  exact
    { plain := by decide
      path := by decide
      headerText := by decide
      blankText := by decide
      parsed := by
        refine ⟨{ (optionRequest (ascii "async") (ascii "ok")).started with
          headerOption := some ⟨.array, 8, 5⟩
          contentLength := 2 }, by decide +kernel, rfl⟩ }

/-- The head of the request with the option `async`, and the first half of its body. -/
def asyncCursor : Cursor := ⟨.array, 0, (optionRequest (ascii "async") (ascii "ok")).head ++ ascii "o"⟩

/-- The second connection sends `chunk` before the last byte of the body, and the first one is left alone. -/
def meanwhileReads (chunk : Bytes) : Bool :=
  match (readLines atRest (headerCompleted atRest 0) 0 100 asyncCursor).outcome Action.apply (holding asyncCursor.data) with
  | .returned u _ =>
      match ((Input.recv 1 chunk atRest).run u).2 with
      | .returned t _ => (t.conns 0).ready == (u.conns 0).ready && (t.conns 0).http.body == (u.conns 0).http.body &&
          (u.conns 1).nloop == (u.conns 0).nloop
      | _ => false
  | _ => false

theorem meanwhile_arriving {chunk : Bytes} (ran : meanwhileReads chunk = true) :
    ∃ moments, Arriving atRest 0 100 asyncCursor (holding asyncCursor.data) [([chunk], ascii "k")] moments := by
  unfold meanwhileReads at ran
  split at ran
  · rename_i u _ returned
    split at ran
    · rename_i t _ received
      simp only [Bool.and_eq_true, beq_iff_eq] at ran
      obtain ⟨⟨ready, body⟩, same⟩ := ran
      have meanwhile := recv_meanwhile (by decide) received ready body
      rw [if_pos same] at meanwhile
      exact ⟨_, arriving_between _ returned meanwhile⟩
    · cases ran
  · cases ran

/-- A body in two chunks, between them a chunk of another connection that is too short to reach the
option, or one that is long enough. -/
theorem readsOption_iff_unspoiled_async :
    (∃ moments, Arriving atRest 0 100 asyncCursor (holding asyncCursor.data)
        [([ascii "GET /b HTTP/1.1\r\n"], ascii "k")] moments ∧
      ReadsOption atRest 0 (optionValue (ascii "Option: async")) moments) ∧
    ∃ moments, Arriving atRest 0 100 asyncCursor (holding asyncCursor.data)
        [([ascii "GET /b HTTP/1.1\r\nOption: stop\r\n"], ascii "k")] moments ∧
      ¬ ReadsOption atRest 0 (optionValue (ascii "Option: async")) moments := by
  have arrives : ∀ others, OptionArrives 0 (holding asyncCursor.data) (optionRequest (ascii "async") (ascii "ok")) []
      (ascii "Option: async") asyncCursor (ascii "o") [(others, ascii "k")] := fun others =>
    holding_arrives [ascii "Content-Length: 2"] asyncRequest_wellFormed (by decide) (by decide) (by decide) (by decide)
      rfl (List.forall_mem_singleton.mpr (by change ascii "k" ≠ []; decide))
  obtain ⟨moments, serving⟩ := @meanwhile_arriving (ascii "GET /b HTTP/1.1\r\n") (by decide +kernel)
  obtain ⟨later, spoiling⟩ := @meanwhile_arriving (ascii "GET /b HTTP/1.1\r\nOption: stop\r\n") (by decide +kernel)
  refine ⟨⟨moments, serving, (readsOption_iff_unspoiled (arrives _) (by decide) serving).mpr fun _ => ?_⟩,
    later, spoiling, fun reads => ?_⟩
  · unfold Unspoiled
    decide
  · have unspoiled := (readsOption_iff_unspoiled (arrives _) (by decide) spoiling).mp reads rfl
    unfold Unspoiled at unspoiled
    revert unspoiled
    decide

/-- A body whose bytes come to stand where the option was. -/
def forgingBody : Bytes := List.replicate 25 120 ++ ascii "async"

theorem laterRequest_wellFormed : (optionRequest (ascii "later") forgingBody).WellFormed := by
  exact
    { plain := by decide
      path := by decide
      headerText := by decide
      blankText := by decide
      parsed := by
        refine ⟨{ (optionRequest (ascii "later") forgingBody).started with
          headerOption := some ⟨.array, 8, 5⟩
          contentLength := 30 }, by decide +kernel, rfl⟩ }

def laterCursor : Cursor := ⟨.array, 0, (optionRequest (ascii "later") forgingBody).head ++ []⟩

/-- The whole body comes in a second chunk, with nothing in between. -/
def forges : Bool :=
  match (readLines atRest (headerCompleted atRest 0) 0 100 laterCursor).outcome Action.apply (holding laterCursor.data) with
  | .returned u _ =>
      (completion 0 ((readLines atRest (headerCompleted atRest 0) 0 100 laterCursor).run Action.apply
        (holding laterCursor.data)).1).isNone &&
      decide (((completion 0 ((receiveChunk atRest (headerCompleted atRest 0) 0 forgingBody).run Action.apply u).1).bind
        fun t => t.optionText 0) = some (ascii "async"))
  | _ => false

/-- The body makes an option `later` read as `async`. -/
theorem body_forges_option :
    ¬ ∀ (env : Env) (c : ConnId) (s : Server) (r : RawRequest) (before : List Bytes) (line : Bytes)
      (cursor : Cursor) (front : Bytes) (arrivals : List Arrival) (fuel : Nat) (moments : List (Action × Server)),
      OptionArrives c s r before line cursor front arrivals → cursor.data.length < fuel →
      Arriving env c fuel cursor s arrivals moments → ReadsOption env c (optionValue line) moments := by
  intro always
  have arrives : OptionArrives 0 (holding laterCursor.data) (optionRequest (ascii "later") forgingBody) []
      (ascii "Option: later") laterCursor [] [([], forgingBody)] :=
    holding_arrives [ascii "Content-Length: 30"] laterRequest_wellFormed (by decide) (by decide) (by decide)
      (by decide) (by decide) (by decide)
  have ran : forges = true := by decide +kernel
  unfold forges at ran
  split at ran
  · rename_i u _ returned
    simp only [Bool.and_eq_true, decide_eq_true_eq, Option.isNone_iff_eq_none] at ran
    obtain ⟨silent, forged⟩ := ran
    obtain ⟨t, complete, reads⟩ := always atRest 0 _ _ _ _ _ _ _ 100 _ arrives (by decide)
      (arriving_between forgingBody returned (.refl 0 u))
    rw [completion_append (completion_none silent)] at complete
    have kept := reads _ (headerCompleted_first atRest 0 t)
    rw [complete] at forged
    have text : some (optionValue (ascii "Option: later")) = some (ascii "async") := kept.symm.trans forged
    exact absurd text (by decide)
  · cases ran

end Ijson
