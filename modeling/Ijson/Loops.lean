/-
Several loops on one server: the ids of `wait_response`.

A dispatch by id looks its id up under `wait_lock`, gives the lock back, and
takes it again for the insertion.  Between the two steps the other loops go on.
The mutexes of the queues do not order dispatches on different queues, so any
order of steps is allowed here.
-/

import Ijson.Ids
import Ijson.TaskDispatch

namespace Ijson

/-! ### The two halves of a dispatch -/

namespace Server

/-- `worker->status = Status::busy` under the mutex of the worker. -/
def claimed (s : Server) (w : ConnId) : Server := s.modify w fun conn => { conn with status := .busy }

/-- `client_request` behind the lookup of the id. -/
def insertCall (s : Server) (c w : ConnId) (queue name id : Bytes) : Result :=
  let s :=
    if (s.conns w).failOnDisconnect then
      (s.modify w fun conn => { conn with client := some c }).link c
    else s
  (s.send w ⟨"200 OK", [("Id", id), ("Name", name)], .bytes (s.conns c).http.body⟩).andThen fun s =>
    let s := (s.insertWait id c).link c
    let s := s.modify c fun conn => { conn with status := .clientWaitResult }
    let s := s.modify w fun conn => { conn with status := .net }
    .returned ((s.note (.task w queue)).enter (.answered c)) ()

/-- `_add_worker` behind the lookup of the id. -/
def insertServe (s : Server) (c d : ConnId) (queue id : Bytes) : Result :=
  let s :=
    if (s.conns c).failOnDisconnect then
      (s.modify c fun conn => { conn with client := some d }).link d
    else s
  (s.send c ⟨"200 OK", [("Id", id), ("Name", (s.conns d).http.name)],
    .bytes (s.conns d).http.body⟩).andThen fun s =>
    .returned (((((s.insertWait id d).link d).modify c fun conn =>
      { conn with status := .net }).note (.task c queue)).enter (.adding c .taken)) ()

end Server

/-! ### Loops -/

/-- A dispatch whose id is free and not inserted yet: of `client_request` for
client `c` and its worker `w`, or of `_add_worker` for worker `c` and the client
`d` of its task.  `queue` is not in the source: the name of the queue. -/
inductive Flight where
  | call (c w : ConnId) (queue name id : Bytes)
  | serve (c d : ConnId) (queue id : Bytes)

def Flight.id : Flight → Bytes
  | .call _ _ _ _ id => id
  | .serve _ _ _ id => id

structure Loops where
  server : Server
  flights : Nat → Option Flight

namespace Loops

/-- An exception ends what the loop was doing. -/
def proceed (l : Loops) (result : Result) : Option Loops :=
  match result with
  | .returned s _ => some { l with server := s }
  | .thrown s _ => some { l with server := s }
  | .fault => none

def depart (l : Loops) (loop : Nat) (flight : Flight) (s : Server) : Loops :=
  { server := s
    flights := Function.update l.flights loop (some flight) }

def land (l : Loops) (loop : Nat) : Loops :=
  { l with flights := Function.update l.flights loop none }

end Loops

/-- The steps of the loops: a dispatch up to its lookup, its insertion, and the
actions of all other code, which do not come between the two steps of a
dispatch on the same loop. -/
inductive Move where
  | lookupCall (loop : Nat) (c : ConnId) (i j p : Nat) (name : Bytes) (random : Nat)
  | insertCall (loop : Nat)
  | lookupServe (loop : Nat) (c : ConnId) (i j p random : Nat)
  | insertServe (loop : Nat)
  | other (loop : Nat) (action : Action)

/-- The dispatches that are made in two steps. -/
def Action.twoSteps : Action → Bool
  | .giveId _ _ _ _ _ => true
  | .handId _ _ _ _ _ _ => true
  | _ => false

namespace Move

def loop : Move → Nat
  | .lookupCall loop _ _ _ _ _ _ => loop
  | .insertCall loop => loop
  | .lookupServe loop _ _ _ _ _ => loop
  | .insertServe loop => loop
  | .other loop _ => loop

/-- `client_request` up to the lookup of the id of `c`, for the worker at a
position. -/
def lookupCallStep (l : Loops) (loop : Nat) (c : ConnId) (i j p : Nat) (name : Bytes)
    (random : Nat) : Option Loops :=
  match l.server.takeId c random with
  | none => l.proceed ((Action.undoNoId c i j p).apply l.server)
  | some (_, id) =>
      if (l.server.waiting id).isSome then
        l.proceed ((Action.undoCollision c i j p random).apply l.server)
      else
        match l.server.workerAt i j p, l.server.dropEntry i j p with
        | some w, .returned s _ =>
            ((s.claimed w).takeId c random).map fun found =>
              l.depart loop (.call c w (l.server.queueName i) name found.2) found.1
        | some _, .thrown s _ => some { l with server := s }
        | _, _ => none

/-- `_add_worker` up to the lookup of the id of the client at a position. -/
def lookupServeStep (l : Loops) (loop : Nat) (c : ConnId) (i j p random : Nat) : Option Loops :=
  match l.server.messageAt i j p with
  | none => none
  | some message =>
      match message.conn with
      | none => none
      | some d =>
          match l.server.takeId d random with
          | none => l.proceed ((Action.refuseNoId i j p).apply l.server)
          | some (_, id) =>
              if (l.server.waiting id).isSome then
                l.proceed ((Action.refuseCollision i j p random).apply l.server)
              else
                (((l.server.takeMessage i j p message).claimed d).takeId d random).map fun found =>
                  l.depart loop (.serve c d (l.server.queueName i) found.2) found.1

def step (move : Move) (l : Loops) : Option Loops :=
  match move, l.flights move.loop with
  | .lookupCall loop c i j p name random, none => lookupCallStep l loop c i j p name random
  | .lookupServe loop c i j p random, none => lookupServeStep l loop c i j p random
  | .insertCall loop, some (.call c w queue name id) =>
      (l.land loop).proceed (l.server.insertCall c w queue name id)
  | .insertServe loop, some (.serve c d queue id) =>
      (l.land loop).proceed (l.server.insertServe c d queue id)
  | .other _ action, none =>
      if action.twoSteps then none else l.proceed (action.apply l.server)
  | _, _ => none

/-- The id a step looks up, and the client it is meant for. -/
def looksUp (l : Loops) : Move → Option (ConnId × Bytes)
  | .lookupCall _ c _ _ _ _ random => (l.server.takeId c random).map fun found => (c, found.2)
  | .lookupServe _ _ i j p random =>
      ((l.server.messageAt i j p).bind fun message => message.conn).bind fun d =>
        (l.server.takeId d random).map fun found => (d, found.2)
  | _ => none

/-- The entry is taken out: its result is posted, or the client disconnects. -/
def removes (l : Loops) (id : Bytes) : Move → Prop
  | .other _ (.settle settled _) => settled = id
  | .other _ (.eraseOwn c) => (l.server.conns c).http.id = id
  | _ => False

/-- No other loop stands between the lookup and the insertion of the same id. -/
def Apart (move : Move) (l : Loops) : Prop :=
  ∀ c id, move.looksUp l = some (c, id) →
    ∀ loop flight, l.flights loop = some flight → flight.id ≠ id

end Move

/-! ### Two steps in a row are the action of a single loop -/

theorem depart_self (l : Loops) (loop : Nat) (flight : Flight) (s : Server) :
    (l.depart loop flight s).flights loop = some flight := by
  simp [Loops.depart]

theorem land_depart (l : Loops) (loop : Nat) (flight : Flight) (s : Server)
    (idle : l.flights loop = none) : (l.depart loop flight s).land loop = { l with server := s } := by
  unfold Loops.depart Loops.land
  simp only [Function.update_idem]
  rw [← idle, Function.update_eq_self]

theorem insertCall_step {l : Loops} {loop : Nat} {c w : ConnId} {queue name id : Bytes} {s : Server}
    (idle : l.flights loop = none) :
    (Move.insertCall loop).step (l.depart loop (.call c w queue name id) s) =
      l.proceed (s.insertCall c w queue name id) := by
  simp only [Move.step, Move.loop, depart_self]
  rw [land_depart l loop _ s idle]
  rfl

theorem insertServe_step {l : Loops} {loop : Nat} {c d : ConnId} {queue id : Bytes} {s : Server}
    (idle : l.flights loop = none) :
    (Move.insertServe loop).step (l.depart loop (.serve c d queue id) s) =
      l.proceed (s.insertServe c d queue id) := by
  simp only [Move.step, Move.loop, depart_self]
  rw [land_depart l loop _ s idle]
  rfl

theorem giveId_eq {s : Server} {c d : ConnId} {i j p random : Nat} {message : Message}
    (found : s.messageAt i j p = some message) (conn : message.conn = some d) :
    s.giveId c i j p random =
      match ((s.takeMessage i j p message).claimed d).takeId d random with
      | none => .fault
      | some (t, id) => t.insertServe c d (s.queueName i) id := by
  rw [Server.giveId, found]
  simp only
  rw [conn]
  rfl

theorem serve_two_steps {l : Loops} {loop : Nat} {c d : ConnId} {i j p random : Nat} {id : Bytes}
    (idle : l.flights loop = none)
    (looked : (Move.lookupServe loop c i j p random).looksUp l = some (d, id))
    (free : l.server.waiting id = none) :
    ((Move.lookupServe loop c i j p random).step l).bind (Move.insertServe loop).step =
      l.proceed (l.server.giveId c i j p random) := by
  rw [Move.looksUp] at looked
  cases found : l.server.messageAt i j p with
  | none =>
      rw [found] at looked
      cases looked
  | some message =>
      rw [found] at looked
      cases conn : message.conn with
      | none =>
          simp only [Option.bind_some, conn] at looked
          cases looked
      | some other =>
          simp only [Option.bind_some, conn] at looked
          cases taken : l.server.takeId other random with
          | none =>
              rw [taken] at looked
              cases looked
          | some first =>
              obtain ⟨s, other⟩ := first
              rw [taken] at looked
              cases looked
              rw [giveId_eq found conn]
              simp only [Move.step, Move.loop, idle, Move.lookupServeStep, found, conn, taken, free,
                Option.isSome_none, Bool.false_eq_true, if_false]
              cases ((l.server.takeMessage i j p message).claimed d).takeId d random with
              | none => rfl
              | some second => exact insertServe_step idle

theorem claimed_conns (s : Server) (w d : ConnId) :
    (s.claimed w).conns d =
      { s.conns d with status := if d = w then .busy else (s.conns d).status } := by
  rw [Server.claimed, Server.modify_conns]
  by_cases same : d = w
  · subst same
    simp only [if_pos]
  · simp only [if_neg same]

theorem modify_claimed (s : Server) (w d : ConnId) (change : Conn → Conn)
    (blind : ∀ conn status, change { conn with status := status } =
      { change conn with status := status }) (keeps : ∀ conn, (change conn).status = conn.status) :
    (s.claimed w).modify d change = (s.modify d change).claimed w := by
  have same : ((s.claimed w).modify d change).conns = ((s.modify d change).claimed w).conns := by
    funext x
    rw [Server.modify_conns, claimed_conns, claimed_conns, claimed_conns, Server.modify_conns]
    by_cases isD : x = d
    · subst isD
      rw [if_pos rfl, if_pos rfl, blind, keeps]
    · simp only [if_neg isD]
  calc (s.claimed w).modify d change
      = { s with conns := ((s.claimed w).modify d change).conns } := rfl
    _ = { s with conns := ((s.modify d change).claimed w).conns } := by rw [same]
    _ = (s.modify d change).claimed w := rfl

theorem claimed_takeId (s : Server) (w d : ConnId) (random : Nat) :
    (s.claimed w).takeId d random =
      (s.takeId d random).map fun found => (found.1.claimed w, found.2) := by
  have http : ((s.claimed w).conns d).http = (s.conns d).http := by rw [claimed_conns]
  unfold Server.takeId
  rw [http]
  have generated : (s.claimed w).generated = s.generated := rfl
  rw [generated]
  cases (s.conns d).http.requestId s.generated random with
  | error error => rfl
  | ok found =>
      obtain ⟨named, more⟩ := found
      simp only [Option.map_some, Option.some.injEq, Prod.mk.injEq, and_true]
      exact modify_claimed { s with generated := if more then s.generated + 1 else s.generated } w d _
        (fun _ _ => rfl) fun _ => rfl

theorem link_claimed (s : Server) (w d : ConnId) :
    (s.claimed w).link d = (s.link d).claimed w :=
  modify_claimed s w d _ (fun _ _ => rfl) fun _ => rfl

theorem sent_claimed (s : Server) (w d : ConnId) (response : Response) :
    (s.claimed w).sent d response = (s.sent d response).claimed w := by
  have moved := modify_claimed s w d
    (fun conn => { conn with
      sendBuffer := conn.sendBuffer ++ response.head conn.keepAlive ++
        Response.tail s.jsonrpc2 response.payload
      writing := true }) (fun _ _ => rfl) fun _ => rfl
  have alive : ((s.claimed w).conns d).keepAlive = (s.conns d).keepAlive := by rw [claimed_conns]
  rw [Server.sent, alive]
  exact congrArg (fun t : Server => t.note (.response d (s.conns d).keepAlive response)) moved

theorem released_claimed (s : Server) (c w : ConnId) (status other : Status) :
    ((s.claimed w).modify c fun conn => { conn with status := status }).modify w
        (fun conn => { conn with status := other }) =
      (s.modify c fun conn => { conn with status := status }).modify w
        fun conn => { conn with status := other } := by
  have same : (((s.claimed w).modify c fun conn => { conn with status := status }).modify w
      fun conn => { conn with status := other }).conns =
      ((s.modify c fun conn => { conn with status := status }).modify w
        fun conn => { conn with status := other }).conns := by
    funext x
    simp only [Server.modify_conns, claimed_conns]
    by_cases isW : x = w
    · subst isW
      by_cases isC : x = c
      · subst isC
        simp
      · simp [isC]
    · by_cases isC : x = c
      · subst isC
        simp [isW]
      · simp [isW, isC]
  calc ((s.claimed w).modify c fun conn => { conn with status := status }).modify w
        (fun conn => { conn with status := other })
      = { s with conns := (((s.claimed w).modify c fun conn => { conn with status := status }).modify w
          fun conn => { conn with status := other }).conns } := rfl
    _ = { s with conns := ((s.modify c fun conn => { conn with status := status }).modify w
          fun conn => { conn with status := other }).conns } := by rw [same]
    _ = (s.modify c fun conn => { conn with status := status }).modify w
        fun conn => { conn with status := other } := rfl

/-- The claim is overwritten by the status the dispatch ends with. -/
theorem claimed_insertCall {s after : Server} {c w : ConnId} {queue name id : Bytes}
    (handed : s.insertCall c w queue name id = .returned after ()) :
    (s.claimed w).insertCall c w queue name id = .returned after () := by
  have flag : ((s.claimed w).conns w).failOnDisconnect = (s.conns w).failOnDisconnect := by
    rw [claimed_conns]
  have held : (if ((s.claimed w).conns w).failOnDisconnect then
      ((s.claimed w).modify w fun conn => { conn with client := some c }).link c else s.claimed w) =
      (if (s.conns w).failOnDisconnect then
        (s.modify w fun conn => { conn with client := some c }).link c else s).claimed w := by
    rw [flag]
    split
    · rw [modify_claimed s w w (fun conn => { conn with client := some c }) (fun _ _ => rfl)
        fun _ => rfl, link_claimed]
    · rfl
  unfold Server.insertCall at handed ⊢
  simp only at handed ⊢
  rw [held]
  generalize (if (s.conns w).failOnDisconnect then
    (s.modify w fun conn => { conn with client := some c }).link c else s) = t at handed ⊢
  have body : ((t.claimed w).conns c).http.body = (t.conns c).http.body := by rw [claimed_conns]
  rw [body]
  generalize (⟨"200 OK", [("Id", id), ("Name", name)], .bytes (t.conns c).http.body⟩ : Response) =
    response at handed ⊢
  cases closedEq : (t.conns w).closed with
  | true =>
      rw [Server.send, if_pos closedEq] at handed
      cases handed
  | false =>
      have stillOpen : ((t.claimed w).conns w).closed = false := by
        rw [claimed_conns]
        exact closedEq
      rw [Server.send_open closedEq] at handed
      rw [Server.send_open stillOpen, sent_claimed]
      simp only [Result.andThen] at handed ⊢
      rw [← handed]
      generalize t.sent w response = u
      have moved : ((u.claimed w).insertWait id c).link c = ((u.insertWait id c).link c).claimed w :=
        link_claimed (u.insertWait id c) w c
      rw [moved, released_claimed]

theorem handId_eq {s : Server} {c w : ConnId} {i j p random : Nat} {name : Bytes}
    (found : s.workerAt i j p = some w) :
    s.handId c i j p name random =
      (s.dropEntry i j p).andThen fun t =>
        match t.takeId c random with
        | none => .fault
        | some (t, id) => t.insertCall c w (s.queueName i) name id := by
  rw [Server.handId, found]
  rfl

theorem call_two_steps {l : Loops} {loop : Nat} {c : ConnId} {i j p random : Nat} {name id : Bytes}
    {after : Server} (idle : l.flights loop = none)
    (looked : (Move.lookupCall loop c i j p name random).looksUp l = some (c, id))
    (free : l.server.waiting id = none)
    (handed : l.server.handId c i j p name random = .returned after ()) :
    ((Move.lookupCall loop c i j p name random).step l).bind (Move.insertCall loop).step =
      some { l with server := after } := by
  rw [Move.looksUp] at looked
  cases taken : l.server.takeId c random with
  | none =>
      rw [taken] at looked
      cases looked
  | some first =>
      obtain ⟨s, other⟩ := first
      rw [taken] at looked
      cases looked
      cases found : l.server.workerAt i j p with
      | none =>
          rw [Server.handId, found] at handed
          cases handed
      | some w =>
          rw [handId_eq found] at handed
          cases dropped : l.server.dropEntry i j p with
          | thrown t error =>
              rw [dropped] at handed
              cases handed
          | fault =>
              rw [dropped] at handed
              cases handed
          | returned t value =>
              rw [dropped] at handed
              simp only [Result.andThen] at handed
              simp only [Move.step, Move.loop, idle, Move.lookupCallStep, taken, free,
                Option.isSome_none, Bool.false_eq_true, if_false, found, dropped, claimed_takeId]
              cases second : t.takeId c random with
              | none =>
                  rw [second] at handed
                  cases handed
              | some pair =>
                  obtain ⟨u, named⟩ := pair
                  rw [second] at handed
                  simp only [Option.map_some, Option.bind_some, insertCall_step idle]
                  rw [claimed_insertCall handed]
                  rfl

end Ijson
