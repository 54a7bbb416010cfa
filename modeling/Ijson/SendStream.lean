/-
What a connection sends.

Responses go to `send_buffer` and published messages to `direct_message`; `on_send`
writes from the one or the other.
-/

import Ijson.Machine
import Ijson.Effects
import Ijson.Outlet

namespace Ijson

open Outlet

/-- What `c` has still to send. -/
def Server.outlet (s : Server) (c : ConnId) : Outlet UInt8 :=
  { buffer := (s.conns c).sendBuffer
    queue := (s.conns c).directMessage.map fun d => (s.direct d).data }

/-- The text of a response to `c`. -/
def Server.text (s : Server) (c : ConnId) (response : Response) : Bytes :=
  response.head (s.conns c).keepAlive ++ Response.tail s.jsonrpc2 response.payload

/-- `c` is new, and then responses are put into its buffer, messages published to
it and its socket is written, in any order; other connections do not change what
`c` has to send.  The moves and the bytes sent so far are kept. -/
inductive Sends (c : ConnId) : List (Move UInt8) → Bytes → Server → Prop where
  | new {s : Server} : (s.conns c).sendBuffer = [] → (s.conns c).directMessage = [] → Sends c [] [] s
  | respond {moves : List (Move UInt8)} {sent : Bytes} {s t : Server} (response : Response) :
      Sends c moves sent s → s.send c response = .returned t () →
      Sends c (moves ++ [.put (s.text c response)]) sent t
  | publish {moves : List (Move UInt8)} {sent : Bytes} {s : Server} (d : Nat) (claim : Bool) :
      Sends c moves sent s →
      Sends c (moves ++ [.enqueue (s.direct d).data]) sent (s.publish c d claim)
  | write {moves : List (Move UInt8)} {sent : Bytes} {s t : Server} (taken : Nat) :
      Sends c moves sent s → taken ≤ (Input.offered s c).length →
      s.flush c (some taken) = .returned t () →
      Sends c (moves ++ [.write taken]) (sent ++ (Input.offered s c).take taken) t
  | elsewhere {moves : List (Move UInt8)} {sent : Bytes} {s t : Server} :
      Sends c moves sent s → t.outlet c = s.outlet c → Sends c moves sent t

namespace Server

variable {s t : Server} {c : ConnId}

theorem offered_outlet (s : Server) (c : ConnId) : Input.offered s c = (s.outlet c).offered := by
  unfold Input.offered Outlet.offered outlet
  cases (s.conns c).sendBuffer with
  | nil =>
      cases (s.conns c).directMessage with
      | nil => rfl
      | cons d rest => rfl
  | cons first rest => rfl

theorem send_outlet {response : Response} (sent : s.send c response = .returned t ()) :
    t.outlet c = (s.outlet c).step (.put (s.text c response)) := by
  cases closed : (s.conns c).closed with
  | true =>
      unfold send at sent
      rw [if_pos closed] at sent
      cases sent
  | false =>
      rw [send_open closed] at sent
      cases sent
      unfold outlet Outlet.step
      simp only [Server.sent, note_conns, modify_self, text, List.append_assoc]
      rfl

theorem publish_outlet (s : Server) (c : ConnId) (d : Nat) (claim : Bool) :
    (s.publish c d claim).outlet c = (s.outlet c).step (.enqueue (s.direct d).data) := by
  have data : ∀ e, ((s.linkDirect d).direct e).data = (s.direct e).data := by
    intro e
    unfold linkDirect
    simp only [Function.update_apply]
    by_cases same : e = d
    · rw [if_pos same, same]
    · rw [if_neg same]
  unfold outlet Outlet.step publish
  simp only [modify_self]
  have conns : (s.linkDirect d).conns = s.conns := rfl
  have direct : ∀ change : Conn → Conn, ((s.linkDirect d).modify c change).direct = (s.linkDirect d).direct :=
    fun _ => rfl
  cases claim with
  | false => simp [conns, direct, data]
  | true => simp [conns, direct, data, afterAsync]

theorem modify_outlet {change : Conn → Conn}
    (buffer : (change (s.conns c)).sendBuffer = (s.conns c).sendBuffer)
    (queue : (change (s.conns c)).directMessage = (s.conns c).directMessage) :
    (s.modify c change).outlet c = s.outlet c := by
  unfold outlet
  rw [modify_self, buffer, queue]
  rfl

theorem unlinkDirect_data {d : Nat} (unlinked : s.unlinkDirect d = .returned t ()) :
    t.conns = s.conns ∧ ∀ e, (t.direct e).data = (s.direct e).data := by
  unfold unlinkDirect at unlinked
  simp only at unlinked
  split at unlinked
  · cases unlinked
  · cases unlinked
    refine ⟨rfl, fun e => ?_⟩
    simp only [Function.update_apply]
    by_cases same : e = d
    · rw [if_pos same, same]
    · rw [if_neg same]

/-- What is left of a message goes to the buffer, which was empty. -/
theorem popDirect_outlet {taken : Nat} (empty : (s.conns c).sendBuffer = [])
    (popped : s.popDirect c (some taken) = .returned t ()) :
    t.outlet c = (s.outlet c).step (.write taken) := by
  unfold popDirect at popped
  cases queue : (s.conns c).directMessage with
  | nil =>
      rw [queue] at popped
      cases popped
      unfold outlet Outlet.step
      rw [empty, queue]
      simp only [List.map_nil, List.drop_nil]
  | cons d rest =>
      rw [queue] at popped
      simp only [Result.andThen] at popped
      split at popped
      · rename_i u _ unlinked
        obtain ⟨conns, data⟩ := unlinkDirect_data unlinked
        cases popped
        have mine : u.conns c = { s.conns c with directMessage := rest } := by
          rw [conns, note_conns, modify_self]
        have others : ∀ e, (u.direct e).data = (s.direct e).data := data
        unfold outlet Outlet.step
        simp only [note_conns, modify_self, mine, empty, queue, List.map_cons, List.nil_append]
        congr 1
        exact List.map_congr_left fun e _ => others e
      · cases popped
      · cases popped

/-- `on_send` without an exception writes one of the two sources. -/
theorem flush_outlet {taken : Nat} (written : s.flush c (some taken) = .returned t ()) :
    t.outlet c = (s.outlet c).step (.write taken) := by
  have ended : ∀ u : Server, (u.modify c fun conn =>
      if conn.sendBuffer.isEmpty then
        if conn.keepAlive then { conn with writing := false } else { conn with closed := true }
      else conn).outlet c = u.outlet c := by
    intro u
    apply modify_outlet
    · split
      · split <;> rfl
      · rfl
    · split
      · split <;> rfl
      · rfl
  unfold flush at written
  cases buffer : (s.conns c).sendBuffer with
  | nil =>
      simp only [buffer, List.isEmpty_nil, if_true, Result.andThen] at written
      split at written
      · rename_i u _ popped
        cases written
        rw [ended, popDirect_outlet buffer popped]
      · cases written
      · cases written
  | cons first rest =>
      simp only [buffer, List.isEmpty_cons, Bool.false_eq_true, if_false, Result.andThen] at written
      cases written
      rw [ended]
      unfold outlet Outlet.step
      simp only [modify_self, buffer]
      rfl

end Server

theorem Sends.simulates {c : ConnId} {moves : List (Move UInt8)} {sent : Bytes} {s : Server}
    (sends : Sends c moves sent s) : Outlet.empty.run moves = (sent, s.outlet c) := by
  induction sends with
  | new buffer queue =>
      unfold Server.outlet
      rw [buffer, queue]
      rfl
  | respond response _ sent ih =>
      rw [run_append, ih, Server.send_outlet sent]
      simp only [run, written, List.append_nil]
  | publish d claim _ ih =>
      rw [run_append, ih, Server.publish_outlet]
      simp only [run, written, List.append_nil]
  | write taken _ within flushed ih =>
      rw [run_append, ih, Server.flush_outlet flushed, Server.offered_outlet]
      simp only [run, written, List.append_nil]
  | elsewhere _ same ih => rw [ih, same]

/-- However much each write takes: what has been sent is the beginning of a
sequence of whole messages, each of them once, and what is left is in the buffer
and behind it in the queue. -/
theorem sends_whole_messages {c : ConnId} {moves : List (Move UInt8)} {sent : Bytes} {s : Server}
    (sends : Sends c moves sent s) :
    ∃ order, fromSource .buffer order = puts moves ∧
      fromSource .queue order ++ (s.conns c).directMessage.map (fun d => (s.direct d).data) = enqueued moves ∧
      sent ++ (s.conns c).sendBuffer = whole order := by
  obtain ⟨order, serves⟩ := run_serves moves
  rw [sends.simulates] at serves
  exact ⟨order, serves.responses, serves.directs, serves.stream⟩

/-- A connection that has been accepted, and a message that is being published. -/
def acceptedOne : Server :=
  { (Server.new 1 false [] 0).set 0 (Conn.new 0 ⟨true, false, false⟩) with
    direct := fun _ => { data := ascii "news", counter := 1, freed := false, source := [] } }

/-- The state of a call that returns. -/
def returnedState : Result → Option Server
  | .returned s _ => some s
  | _ => none

theorem returnedState_eq {result : Result} {s : Server} (state : returnedState result = some s) :
    result = .returned s () := by
  cases result with
  | returned t value =>
      cases state
      rfl
  | thrown t error => cases state
  | fault => cases state

def okResponse : Response := ⟨"200 OK", [], .nothing⟩

/-- The first response is written whole, two bytes of the message, and three bytes of what
is left of it and the second response. -/
theorem sends_whole_messages_five : ∃ (order : List (Source × Bytes)) (earlier : Bytes) (s : Server),
    (fromSource .buffer order).length = 2 ∧ fromSource .queue order = [ascii "news"] ∧
      earlier ++ ascii "newsH" ++ (s.conns 0).sendBuffer = whole order := by
  have ran : ((returnedState (acceptedOne.send 0 okResponse)).bind fun a =>
      (returnedState ((a.publish 0 0 true).flush 0 (some (Input.offered (a.publish 0 0 true) 0).length))).bind fun b =>
      (returnedState (b.flush 0 (some 2))).bind fun d => (returnedState (d.send 0 okResponse)).bind fun e =>
      (returnedState (e.flush 0 (some 3))).map fun f =>
        (decide (2 ≤ (Input.offered b 0).length), decide (3 ≤ (Input.offered e 0).length),
          (a.direct 0).data, (f.conns 0).directMessage,
          (Input.offered b 0).take 2 ++ (Input.offered e 0).take 3)) =
      some (true, true, ascii "news", [], ascii "newsH") := by
    decide +kernel
  obtain ⟨a, first, ran⟩ := Option.bind_eq_some_iff.mp ran
  obtain ⟨b, second, ran⟩ := Option.bind_eq_some_iff.mp ran
  obtain ⟨d, third, ran⟩ := Option.bind_eq_some_iff.mp ran
  obtain ⟨e, fourth, ran⟩ := Option.bind_eq_some_iff.mp ran
  obtain ⟨f, fifth, facts⟩ := Option.map_eq_some_iff.mp ran
  simp only [Prod.mk.injEq, decide_eq_true_eq] at facts
  obtain ⟨two, three, news, empty, last⟩ := facts
  have responded := Sends.respond okResponse (.new (c := 0) rfl rfl) (returnedState_eq first)
  have published := Sends.publish 0 true responded
  have written := Sends.write _ published (Nat.le_refl _) (returnedState_eq second)
  have begun := Sends.write 2 written two (returnedState_eq third)
  have again := Sends.respond okResponse begun (returnedState_eq fourth)
  have sends := Sends.write 3 again three (returnedState_eq fifth)
  obtain ⟨order, responses, directs, stream⟩ := sends_whole_messages sends
  rw [empty, List.map_nil, List.append_nil] at directs
  rw [List.append_assoc _ _ (List.take 3 _), last] at stream
  refine ⟨order, _, f, ?_, ?_, stream⟩
  · rw [responses]
    rfl
  · rw [directs, ← news]
    rfl

end Ijson
