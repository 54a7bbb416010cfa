/-
Well-formed requests as bytes, and where a parser can stand in a stream of them.

A request is a request line, header lines, a blank line and a body of the
length the headers announce.  The lines are kept without their line feed.
-/

import Mathlib.Data.List.Basic
import Ijson.Server

namespace Ijson

structure RawRequest where
  start : Bytes
  headers : List Bytes
  blankLine : Bytes
  body : Bytes

/-- Lines with their line feeds. -/
def unlines (lines : List Bytes) : Bytes := lines.flatMap (· ++ [newline])

/-- What `on_recv` sees of a line. -/
def lineText (line : Bytes) : Bytes := rstrip (line ++ [newline])

namespace RawRequest

def lines (r : RawRequest) : List Bytes := r.start :: r.headers ++ [r.blankLine]

def head (r : RawRequest) : Bytes := unlines r.lines

def bytes (r : RawRequest) : Bytes := r.head ++ r.body

/-- The fields after the request line. -/
def started (r : RawRequest) : Http :=
  { Http.new with
    path := (Http.readMethod (lineText r.start)).1
    step := .header }

end RawRequest

/-- `read_header` on each line; where and when the lines are read is left out. -/
def readHeaders (http : Http) : List Bytes → Except Exc Http
  | [] => .ok http
  | line :: rest =>
      match http.readHeader 0 .array 0 (lineText line) with
      | .ok http => readHeaders http rest
      | .error error => .error error

structure RawRequest.WellFormed (r : RawRequest) : Prop where
  plain : ∀ line ∈ r.lines, newline ∉ line
  path : (Http.readMethod (lineText r.start)).1 ≠ []
  headerText : ∀ line ∈ r.headers, lineText line ≠ []
  blankText : lineText r.blankLine = []
  parsed : ∃ http, readHeaders r.started r.headers = .ok http ∧
    http.contentLength = r.body.length

/-- The request `header_completed` is to see. -/
def RawRequest.request (r : RawRequest) : Request :=
  match readHeaders r.started r.headers with
  | .ok http => { http.request with body := r.body }
  | .error _ => r.started.request

def streamBytes (rs : List RawRequest) : Bytes := rs.flatMap RawRequest.bytes

/-! ### Lines -/

theorem popLine_none {data : Bytes} (absent : newline ∉ data) : popLine data = none := by
  induction data with
  | nil => rfl
  | cons a rest ih =>
      have other : a ≠ newline := fun same => absent (same ▸ List.mem_cons_self)
      have later : newline ∉ rest := fun member => absent (List.mem_cons_of_mem _ member)
      rw [popLine, if_neg other, ih later]
      rfl

theorem popLine_some {line : Bytes} (plain : newline ∉ line) (rest : Bytes) :
    popLine (line ++ newline :: rest) = some (line ++ [newline], rest) := by
  induction line with
  | nil => simp only [List.nil_append, popLine, if_pos]
  | cons a line ih =>
      have other : a ≠ newline := fun same => plain (same ▸ List.mem_cons_self)
      have later : newline ∉ line := fun member => plain (List.mem_cons_of_mem _ member)
      rw [List.cons_append, popLine, if_neg other, ih later]
      rfl

/-- Bytes either hold no line feed or begin with a line. -/
theorem line_cases (data : Bytes) :
    newline ∉ data ∨ ∃ line rest, data = line ++ newline :: rest ∧ newline ∉ line := by
  induction data with
  | nil => exact .inl (by simp)
  | cons a data ih =>
      by_cases same : a = newline
      · subst same
        exact .inr ⟨[], data, rfl, by simp⟩
      · cases ih with
        | inl absent =>
            refine .inl fun member => ?_
            cases List.mem_cons.mp member with
            | inl here => exact same here.symm
            | inr later => exact absent later
        | inr found =>
            obtain ⟨line, rest, split, plain⟩ := found
            refine .inr ⟨a :: line, rest, by rw [split]; rfl, fun member => ?_⟩
            cases List.mem_cons.mp member with
            | inl here => exact same here.symm
            | inr later => exact plain later

/-- The first line of two equal texts is the same. -/
theorem first_line_unique {left right leftRest rightRest : Bytes} (leftPlain : newline ∉ left)
    (rightPlain : newline ∉ right)
    (same : left ++ newline :: leftRest = right ++ newline :: rightRest) :
    left = right ∧ leftRest = rightRest := by
  have leftLine := popLine_some leftPlain leftRest
  have rightLine := popLine_some rightPlain rightRest
  rw [same, rightLine, Option.some.injEq, Prod.mk.injEq] at leftLine
  exact ⟨(List.append_cancel_right leftLine.1).symm, leftLine.2.symm⟩

/-! ### Headers -/

/-- The fields that make up a request agree. -/
def Http.Same (left right : Http) : Prop :=
  left.request = right.request ∧ left.contentLength = right.contentLength

/-- Reading a header depends on the request so far only. -/
theorem Http.Same.readHeader {left right : Http} (same : left.Same right) (now start : Nat)
    (place : Place) (line : Bytes) {read : Http}
    (readEq : right.readHeader 0 .array 0 line = .ok read) :
    ∃ other, left.readHeader now place start line = .ok other ∧ other.Same read ∧
      other.step = left.step ∧ other.buffer = left.buffer := by
  obtain ⟨requestSame, lengthSame⟩ := same
  simp only [Http.request, Request.mk.injEq] at requestSame
  unfold Http.readHeader at readEq ⊢
  cases headerEq : Http.Header.read line with
  | error error => rw [headerEq] at readEq; cases readEq
  | ok header =>
      rw [headerEq] at readEq
      obtain rfl := Except.ok.inj readEq
      refine ⟨_, rfl, ?_⟩
      cases header <;> simp [Http.Same, Http.store, Http.request, requestSame, lengthSame]

theorem readHeaders_append {http read : Http} {before : List Bytes}
    (beforeEq : readHeaders http before = .ok read) (after : List Bytes) :
    readHeaders http (before ++ after) = readHeaders read after := by
  induction before generalizing http with
  | nil =>
      rw [readHeaders, Except.ok.injEq] at beforeEq
      rw [List.nil_append, beforeEq]
  | cons line before ih =>
      rw [List.cons_append, readHeaders]
      rw [readHeaders] at beforeEq
      cases lineEq : http.readHeader 0 .array 0 (lineText line) with
      | error error => rw [lineEq] at beforeEq; cases beforeEq
      | ok next =>
          rw [lineEq] at beforeEq
          exact ih beforeEq

theorem readHeaders_body {http read : Http} {lines : List Bytes}
    (readEq : readHeaders http lines = .ok read) : read.body = http.body := by
  induction lines generalizing http with
  | nil => rw [readHeaders, Except.ok.injEq] at readEq; rw [readEq]
  | cons line lines ih =>
      rw [readHeaders] at readEq
      cases lineEq : http.readHeader 0 .array 0 (lineText line) with
      | error error => rw [lineEq] at readEq; cases readEq
      | ok next =>
          rw [lineEq] at readEq
          rw [ih readEq]
          rw [Http.readHeader] at lineEq
          cases headerEq : Http.Header.read (lineText line) with
          | error error => rw [headerEq] at lineEq; cases lineEq
          | ok header =>
              rw [headerEq] at lineEq
              rw [← Except.ok.inj lineEq]
              cases header <;> rfl

/-! ### Positions -/

/-- Where a parser stands: between two requests; in a head with some header
lines read; in a body of which some bytes are missing. -/
inductive Position where
  | between (rs : List RawRequest)
  | inHead (r : RawRequest) (http : Http) (lines : List Bytes) (rs : List RawRequest)
  | inBody (r : RawRequest) (missing : Bytes) (rs : List RawRequest)

namespace Position

/-- The bytes still to come. -/
def rest : Position → Bytes
  | between rs => streamBytes rs
  | inHead r _ lines rs => unlines (lines ++ [r.blankLine]) ++ r.body ++ streamBytes rs
  | inBody _ missing rs => missing ++ streamBytes rs

/-- The requests still to be completed. -/
def upcoming : Position → List Request
  | between rs => rs.map RawRequest.request
  | inHead r _ _ rs => r.request :: rs.map RawRequest.request
  | inBody r _ rs => r.request :: rs.map RawRequest.request

/-- What is missing of the head the parser is in or in front of. -/
def headRest : Position → Bytes
  | between [] => []
  | between (r :: _) => r.head
  | inHead r _ lines _ => unlines (lines ++ [r.blankLine])
  | inBody _ _ _ => []

/-- Lines are to be read. -/
def readsLines : Position → Prop
  | inBody _ _ _ => False
  | _ => True

def Valid : Position → Prop
  | between rs => ∀ r ∈ rs, r.WellFormed
  | inHead r http lines rs => r.WellFormed ∧ (∀ r ∈ rs, r.WellFormed) ∧
      ∃ done, r.headers = done ++ lines ∧ readHeaders r.started done = .ok http
  | inBody r missing rs => r.WellFormed ∧ (∀ r ∈ rs, r.WellFormed) ∧ missing ≠ [] ∧
      ∃ got, r.body = got ++ missing

/-- The parser fields at a position. -/
def Stands (http : Http) : Position → Prop
  | between _ => http.step = .start
  | inHead _ read _ _ => http.step = .header ∧ http.Same read
  | inBody r missing _ => http.step = .readBody ∧ http.contentLength = r.body.length ∧
      r.body = http.body ++ missing ∧ { http.request with body := r.body } = r.request

/-- `taken` is the part of the stream in front of the position. -/
def Located (rs : List RawRequest) (taken : Bytes) : Position → Prop
  | between rest => ∃ done, rs = done ++ rest ∧ taken = streamBytes done
  | inHead r _ lines rest => ∃ done piece, rs = done ++ r :: rest ∧
      taken = streamBytes done ++ (piece ++ [newline]) ∧
      r.head = piece ++ [newline] ++ unlines (lines ++ [r.blankLine])
  | inBody r missing rest => ∃ done got, rs = done ++ r :: rest ∧
      taken = streamBytes done ++ r.head ++ got ∧ r.body = got ++ missing

theorem Located.total {rs : List RawRequest} {taken : Bytes} {position : Position}
    (located : position.Located rs taken) : taken ++ position.rest = streamBytes rs := by
  cases position with
  | between rest =>
      obtain ⟨done, split, takenEq⟩ := located
      rw [split, takenEq, Position.rest, streamBytes, streamBytes, streamBytes, List.flatMap_append]
  | inHead r http lines rest =>
      obtain ⟨done, piece, split, takenEq, headEq⟩ := located
      simp only [split, takenEq, Position.rest, streamBytes, List.flatMap_append, List.flatMap_cons,
        RawRequest.bytes, headEq, List.append_assoc]
  | inBody r missing rest =>
      obtain ⟨done, got, split, takenEq, bodyEq⟩ := located
      simp only [split, takenEq, Position.rest, streamBytes, List.flatMap_append, List.flatMap_cons,
        RawRequest.bytes, bodyEq, List.append_assoc]

end Position

theorem unlines_cons (line : Bytes) (lines : List Bytes) :
    unlines (line :: lines) = line ++ newline :: unlines lines := by
  rw [unlines, List.flatMap_cons, List.append_assoc]
  rfl

theorem lineText_start {r : RawRequest} (wellFormed : r.WellFormed) : lineText r.start ≠ [] := by
  intro empty
  have path := wellFormed.path
  rw [empty] at path
  exact path (by decide)

theorem Position.start_line {r : RawRequest} {rs : List RawRequest}
    (valid : (between (r :: rs)).Valid) :
    (inHead r r.started r.headers rs).Valid ∧ newline ∉ r.start ∧
      (between (r :: rs)).rest = r.start ++ newline :: (inHead r r.started r.headers rs).rest ∧
      (between (r :: rs)).headRest =
        r.start ++ newline :: (inHead r r.started r.headers rs).headRest ∧
      ∀ all taken, (between (r :: rs)).Located all taken →
        (inHead r r.started r.headers rs).Located all (taken ++ (r.start ++ [newline])) := by
  have wellFormed := valid r List.mem_cons_self
  have headEq : r.head = r.start ++ newline :: unlines (r.headers ++ [r.blankLine]) := by
    rw [RawRequest.head, RawRequest.lines, List.cons_append, unlines_cons]
  refine ⟨⟨wellFormed, fun other member => valid other (List.mem_cons_of_mem r member), [], rfl, rfl⟩,
    wellFormed.plain _ List.mem_cons_self, ?_, headEq, ?_⟩
  · simp only [rest, streamBytes, List.flatMap_cons, RawRequest.bytes, headEq, List.append_assoc,
      List.cons_append]
  · intro whole taken located
    obtain ⟨done, split, takenEq⟩ := located
    refine ⟨done, r.start, split, by rw [takenEq], ?_⟩
    rw [headEq, List.append_assoc, List.singleton_append]

theorem Position.header_line {r : RawRequest} {http : Http} {line : Bytes} {lines : List Bytes}
    {rs : List RawRequest} (valid : (inHead r http (line :: lines) rs).Valid) :
    ∃ read, http.readHeader 0 .array 0 (lineText line) = .ok read ∧ lineText line ≠ [] ∧
      (inHead r read lines rs).Valid ∧ newline ∉ line ∧
      (inHead r http (line :: lines) rs).rest = line ++ newline :: (inHead r read lines rs).rest ∧
      (inHead r http (line :: lines) rs).headRest =
        line ++ newline :: (inHead r read lines rs).headRest ∧
      ∀ all taken, (inHead r http (line :: lines) rs).Located all taken →
        (inHead r read lines rs).Located all (taken ++ (line ++ [newline])) := by
  obtain ⟨wellFormed, others, done, split, readEq⟩ := valid
  have memberOf : line ∈ r.headers := by
    rw [split]
    exact List.mem_append_right done List.mem_cons_self
  obtain ⟨final, finalEq, _⟩ := wellFormed.parsed
  rw [split, readHeaders_append readEq, readHeaders] at finalEq
  cases lineEq : http.readHeader 0 .array 0 (lineText line) with
  | error error => rw [lineEq] at finalEq; cases finalEq
  | ok read =>
      have nextEq : readHeaders r.started (done ++ [line]) = .ok read := by
        rw [readHeaders_append readEq, readHeaders, lineEq]
        rfl
      refine ⟨read, rfl, wellFormed.headerText line memberOf,
        ⟨wellFormed, others, done ++ [line], by rw [split, List.append_assoc]; rfl, nextEq⟩,
        wellFormed.plain line ?_, ?_, ?_, ?_⟩
      · exact List.mem_append_left _ (List.mem_cons_of_mem _ memberOf)
      · simp only [rest, List.cons_append, unlines_cons, List.append_assoc]
      · simp only [headRest, List.cons_append, unlines_cons]
      · intro whole taken located
        obtain ⟨before, piece, splitAll, takenEq, headEq⟩ := located
        refine ⟨before, piece ++ [newline] ++ line, splitAll, ?_, ?_⟩
        · rw [takenEq]
          simp only [List.append_assoc]
        · rw [headEq, List.cons_append, unlines_cons]
          simp only [List.append_assoc, List.cons_append, List.nil_append]

/-- The blank line, with the fields the request will have. -/
theorem Position.blank_line {r : RawRequest} {http : Http} {rs : List RawRequest}
    (valid : (inHead r http [] rs).Valid) :
    newline ∉ r.blankLine ∧ lineText r.blankLine = [] ∧ http.contentLength = r.body.length ∧
      http.body = [] ∧ { http.request with body := r.body } = r.request ∧
      (inHead r http [] rs).rest = r.blankLine ++ newline :: (r.body ++ streamBytes rs) ∧
      (inHead r http [] rs).headRest = r.blankLine ++ [newline] ∧
      ∀ all taken, (inHead r http [] rs).Located all taken → ∃ done, all = done ++ r :: rs ∧
        taken ++ (r.blankLine ++ [newline]) = streamBytes done ++ r.head := by
  obtain ⟨wellFormed, others, done, split, readEq⟩ := valid
  obtain ⟨final, finalEq, lengthEq⟩ := wellFormed.parsed
  rw [List.append_nil] at split
  rw [split, readEq, Except.ok.injEq] at finalEq
  subst finalEq
  refine ⟨wellFormed.plain _ (by simp [RawRequest.lines]), wellFormed.blankText, lengthEq,
    readHeaders_body readEq, ?_, ?_, ?_, ?_⟩
  · rw [RawRequest.request, split, readEq]
  · simp only [rest, List.nil_append, unlines_cons, List.append_assoc, List.cons_append]
    rfl
  · simp only [headRest, List.nil_append, unlines_cons]
    rfl
  · intro whole taken located
    obtain ⟨before, piece, splitAll, takenEq, headEq⟩ := located
    refine ⟨before, splitAll, ?_⟩
    rw [takenEq, headEq, List.nil_append, unlines_cons, List.append_assoc]
    rfl

end Ijson
