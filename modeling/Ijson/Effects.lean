/-
What the helpers of the server do, as rules for the ends of an action.

An action is a chain of changes of which some can throw.  The rules below walk
along such a chain; the equations say what each change leaves as it was, one
connection at a time.
-/

import Ijson.Program
import Ijson.Action

namespace Ijson

section

variable {Q : Unit → Server → Prop} {E : Exc → Server → Prop}

@[simp] theorem Ends_returned (s : Server) :
    (Outcome.returned s () : Result).Ends Q E ↔ Q () s := Iff.rfl

@[simp] theorem Ends_thrown (s : Server) (error : Exc) :
    (Outcome.thrown s error : Result).Ends Q E ↔ E error s := Iff.rfl

@[simp] theorem Ends_fault : (Outcome.fault : Result).Ends Q E := trivial

@[simp] theorem Ends_andThen (result : Result) (next : Server → Result) :
    (result.andThen next).Ends Q E ↔ result.Ends (fun _ s => (next s).Ends Q E) E := by
  cases result <;> exact Iff.rfl

theorem Ends_noexcept {result : Result} (ends : result.Ends Q fun _ _ => True) :
    result.noexcept.Ends Q E := by
  cases result with
  | returned s value => exact ends
  | thrown s error => trivial
  | fault => trivial

end

namespace Server

/-- The state after `unlink`, thrown or not. -/
def unlinked (s : Server) (c : ConnId) : Server :=
  { s.modify c fun conn => { conn with link := (s.conns c).link - 1 } with
    dead := if (s.conns c).link - 1 = 0 then s.dead ++ [c] else s.dead }

/-- The state after a response to an open connection. -/
def sent (s : Server) (c : ConnId) (response : Response) : Server :=
  (s.modify c fun conn =>
    { conn with
      sendBuffer := conn.sendBuffer ++ response.head conn.keepAlive ++
        Response.tail s.jsonrpc2 response.payload
      writing := true }).note (.response c (s.conns c).keepAlive response)

theorem unlink_eq (s : Server) (c : ConnId) :
    s.unlink c = if 0 < (s.conns c).link then .returned (s.unlinked c) ()
      else .thrown (s.unlinked c) (.exception "Wrong link count") := by
  unfold unlink unlinked
  by_cases last : (s.conns c).link - 1 = 0
  · simp only [if_pos last]
    rw [if_pos (by omega)]
    rfl
  · simp only [if_neg last]
    by_cases negative : (s.conns c).link - 1 < 0
    · rw [if_pos negative, if_neg (by omega)]
      rfl
    · rw [if_neg negative, if_pos (by omega)]
      rfl

theorem unlink_ends {s : Server} {c : ConnId} {Q : Unit → Server → Prop}
    {E : Exc → Server → Prop} (returns : 0 < (s.conns c).link → Q () (s.unlinked c))
    (throws : (s.conns c).link ≤ 0 → E (.exception "Wrong link count") (s.unlinked c)) :
    (s.unlink c).Ends Q E := by
  rw [unlink_eq]
  by_cases positive : 0 < (s.conns c).link
  · rw [if_pos positive]
    exact returns positive
  · rw [if_neg positive]
    exact throws (by omega)

theorem send_open {s : Server} {c : ConnId} (opened : (s.conns c).closed = false)
    (response : Response) : s.send c response = .returned (s.sent c response) () := by
  unfold send sent
  rw [if_neg (by rw [opened]; exact Bool.false_ne_true)]
  simp only [modify, set, Function.update_self, Function.update_idem]

/-- The state when the connection turns out to be closed. -/
def headed (s : Server) (c : ConnId) (response : Response) : Server :=
  s.modify c fun conn => { conn with sendBuffer := conn.sendBuffer ++ response.head conn.keepAlive }

theorem send_ends {s : Server} {c : ConnId} {response : Response} {Q : Unit → Server → Prop}
    {E : Exc → Server → Prop} (returns : (s.conns c).closed = false → Q () (s.sent c response))
    (throws : (s.conns c).closed = true →
      E (.exception "Trying to send to closed socket") (s.headed c response)) :
    (s.send c response).Ends Q E := by
  cases closedEq : (s.conns c).closed with
  | false =>
      rw [send_open closedEq]
      exact returns closedEq
  | true =>
      unfold send
      rw [if_pos closedEq]
      exact throws closedEq

section Conns

variable (s : Server) (c d : ConnId)

@[simp] theorem unlinked_conns : (s.unlinked c).conns d =
    { s.conns d with link := if d = c then (s.conns d).link - 1 else (s.conns d).link } := by
  unfold unlinked
  simp only [modify_conns]
  by_cases same : d = c
  · subst same
    simp only [if_pos]
  · simp only [if_neg same]

@[simp] theorem link_conns : (s.link c).conns d =
    { s.conns d with link := if d = c then (s.conns d).link + 1 else (s.conns d).link } := by
  unfold link
  simp only [modify_conns]
  by_cases same : d = c
  · subst same
    simp only [if_pos]
  · simp only [if_neg same]

end Conns

end Server

/-! ### The entries of `wait_response` -/

theorem lookup_filter_ne (entries : List (Bytes × ConnId)) (id other : Bytes) :
    (entries.filter (·.1 ≠ id)).lookup other = if other = id then none else entries.lookup other := by
  induction entries with
  | nil =>
      rw [List.filter_nil, List.lookup_nil, ite_self]
  | cons entry entries ih =>
      obtain ⟨key, c⟩ := entry
      rw [List.filter_cons, List.lookup_cons]
      by_cases isId : key = id
      · rw [if_neg (by simpa using isId), ih]
        by_cases same : other = id
        · rw [if_pos same, if_pos same]
        · have differs : (other == key) = false := by
            rw [isId]
            simpa using same
          rw [if_neg same, if_neg same, differs]
      · rw [if_pos (by simpa using isId), List.lookup_cons, ih]
        by_cases same : other = key
        · have equal : (other == key) = true := by simpa using same
          have notId : other ≠ id := by
            rw [same]
            exact isId
          simp only [equal, if_neg notId]
        · have differs : (other == key) = false := by simpa using same
          rw [differs]

theorem waiting_eraseWait (s : Server) (id other : Bytes) :
    (s.eraseWait id).waiting other = if other = id then none else s.waiting other :=
  lookup_filter_ne s.waitResponse id other

theorem waiting_insertWait (s : Server) (id other : Bytes) (c : ConnId) :
    (s.insertWait id c).waiting other = if other = id then some c else s.waiting other := by
  have erased := lookup_filter_ne s.waitResponse id other
  unfold Server.waiting Server.insertWait
  rw [List.lookup_cons, erased]
  by_cases same : other = id
  · have equal : (other == id) = true := by simpa using same
    simp only [equal, if_pos same]
  · have differs : (other == id) = false := by simpa using same
    simp only [differs, if_neg same]

end Ijson
