/-
The entries of `wait_response` under several loops.

As long as no two loops stand between the lookup and the insertion of one id,
an entry is taken out by a result or a disconnect only.
-/

import Ijson.Loops

namespace Ijson

/-! ### No entry is lost -/

/-- No id that stands in `wait_response` is about to be inserted, and no id is
about to be inserted twice. -/
structure Loops.Exclusive (l : Loops) : Prop where
  free : ∀ loop flight, l.flights loop = some flight → l.server.waiting flight.id = none
  alone : ∀ loop other left right, l.flights loop = some left → l.flights other = some right →
    left.id = right.id → loop = other

theorem Loops.Exclusive.of_fewer {l m : Loops} (exclusive : l.Exclusive)
    (flights : ∀ loop flight, m.flights loop = some flight → l.flights loop = some flight)
    (entries : ∀ loop flight, m.flights loop = some flight → l.server.waiting flight.id = none →
      m.server.waiting flight.id = none) : m.Exclusive where
  free := fun loop flight inFlight =>
    entries loop flight inFlight (exclusive.free loop flight (flights loop flight inFlight))
  alone := fun loop other left right leftFlight rightFlight =>
    exclusive.alone loop other left right (flights loop left leftFlight)
      (flights other right rightFlight)

theorem waiting_ids {s t : Server} (same : t.ids.waitResponse = s.ids.waitResponse) (id : Bytes) :
    t.waiting id = s.waiting id :=
  congrArg (fun entries : List (Bytes × ConnId) => entries.lookup id) same

/-- What a step does to the entries and the flights. -/
inductive Effect (move : Move) (l m : Loops) : Prop where
  | kept (flights : m.flights = l.flights)
      (entries : ∀ id, m.server.waiting id = l.server.waiting id) : Effect move l m
  | removed (id : Bytes) (removes : move.removes l id) (flights : m.flights = l.flights)
      (entries : ∀ other, m.server.waiting other = if other = id then none else l.server.waiting other) :
      Effect move l m
  | departed (flight : Flight) (c : ConnId)
      (looked : move.looksUp l = some (c, flight.id)) (free : l.server.waiting flight.id = none)
      (flights : m.flights = Function.update l.flights move.loop (some flight))
      (entries : ∀ id, m.server.waiting id = l.server.waiting id) : Effect move l m
  | landed (loop : Nat) (flight : Flight) (inFlight : l.flights loop = some flight)
      (flights : m.flights = Function.update l.flights loop none)
      (entries : (∀ id, m.server.waiting id = l.server.waiting id) ∨
        ∃ c, ∀ id, m.server.waiting id = if id = flight.id then some c else l.server.waiting id) :
      Effect move l m

theorem Loops.Exclusive.step {move : Move} {l m : Loops} (exclusive : l.Exclusive)
    (effect : Effect move l m) (apart : move.Apart l) : m.Exclusive := by
  cases effect with
  | kept flights entries =>
      refine exclusive.of_fewer (fun loop flight inFlight => ?_) fun loop flight _ free => ?_
      · rw [← flights]
        exact inFlight
      · rw [entries]
        exact free
  | removed id _ flights entries =>
      refine exclusive.of_fewer (fun loop flight inFlight => ?_) fun loop flight _ free => ?_
      · rw [← flights]
        exact inFlight
      · rw [entries, free, ite_self]
  | departed flight c looked free flights entries =>
      have differs := apart c flight.id looked
      have known : ∀ other before, m.flights other = some before →
          (other = move.loop ∧ before = flight) ∨ (other ≠ move.loop ∧ l.flights other = some before) := by
        intro other before inFlight
        rw [flights, Function.update_apply] at inFlight
        by_cases same : other = move.loop
        · rw [if_pos same, Option.some.injEq] at inFlight
          exact Or.inl ⟨same, inFlight.symm⟩
        · rw [if_neg same] at inFlight
          exact Or.inr ⟨same, inFlight⟩
      refine ⟨fun other before inFlight => ?_, fun first second left right leftFlight rightFlight same => ?_⟩
      · rw [entries]
        rcases known other before inFlight with ⟨_, isNew⟩ | ⟨_, old⟩
        · rw [isNew]
          exact free
        · exact exclusive.free other before old
      · rcases known first left leftFlight with ⟨isFirst, leftNew⟩ | ⟨_, leftOld⟩
        · rcases known second right rightFlight with ⟨isSecond, _⟩ | ⟨_, rightOld⟩
          · rw [isFirst, isSecond]
          · rw [leftNew] at same
            exact absurd same.symm (differs second right rightOld)
        · rcases known second right rightFlight with ⟨_, rightNew⟩ | ⟨_, rightOld⟩
          · rw [rightNew] at same
            exact absurd same (differs first left leftOld)
          · exact exclusive.alone first second left right leftOld rightOld same
  | landed loop flight inFlight flights entries =>
      have fewer : ∀ other before, m.flights other = some before →
          other ≠ loop ∧ l.flights other = some before := by
        intro other before flying
        rw [flights, Function.update_apply] at flying
        by_cases same : other = loop
        · rw [if_pos same] at flying
          cases flying
        · rw [if_neg same] at flying
          exact ⟨same, flying⟩
      refine exclusive.of_fewer (fun other before flying => (fewer other before flying).2)
        fun other before flying free => ?_
      rcases entries with same | ⟨c, inserted⟩
      · rw [same]
        exact free
      · obtain ⟨differs, old⟩ := fewer other before flying
        have otherId : before.id ≠ flight.id :=
          fun same => differs (exclusive.alone other loop before flight old inFlight same)
        rw [inserted, if_neg otherId]
        exact free

/-! ### What the steps do -/

theorem proceed_ids {l m : Loops} {result : Result} {n : Ids} (keeps : Server.Keeps n result)
    (step : l.proceed result = some m) : m.flights = l.flights ∧ m.server.ids = n := by
  cases result with
  | returned s value =>
      cases step
      exact ⟨rfl, keeps⟩
  | thrown s error =>
      cases step
      exact ⟨rfl, keeps⟩
  | fault => cases step

theorem proceed_plain {l m : Loops} {action : Action} (plain : action.writesWait = false)
    (step : l.proceed (action.apply l.server) = some m) :
    m.flights = l.flights ∧ ∀ id, m.server.waiting id = l.server.waiting id := by
  have makes := Server.apply_makes plain l.server
  have entries : ∀ t : Server, (t.ids = l.server.ids ∨ t.ids = l.server.ids.next) →
      ∀ id, t.waiting id = l.server.waiting id := by
    intro t cases id
    rcases cases with same | next
    · exact waiting_ids (congrArg Ids.waitResponse same) id
    · exact waiting_ids (by rw [next]; rfl) id
  cases applied : action.apply l.server with
  | returned s value =>
      rw [applied] at makes step
      cases step
      exact ⟨rfl, entries s makes⟩
  | thrown s error =>
      rw [applied] at makes step
      cases step
      exact ⟨rfl, entries s makes⟩
  | fault =>
      rw [applied] at step
      cases step

theorem takeId_waiting {s t : Server} {d : ConnId} {random : Nat} {id : Bytes}
    (taken : s.takeId d random = some (t, id)) (other : Bytes) : t.waiting other = s.waiting other := by
  rcases Server.takeId_makes taken with same | next
  · exact waiting_ids (congrArg Ids.waitResponse same) other
  · exact waiting_ids (by rw [next]; rfl) other

/-- The id depends on the client's request and the counter only. -/
theorem takeId_alike {s t u v : Server} {d : ConnId} {random : Nat} {id other : Bytes}
    (http : (t.conns d).http = (s.conns d).http) (generated : t.generated = s.generated)
    (first : s.takeId d random = some (u, id)) (second : t.takeId d random = some (v, other)) :
    other = id := by
  unfold Server.takeId at first second
  rw [http, generated] at second
  cases found : (s.conns d).http.requestId s.generated random with
  | error error =>
      rw [found] at first
      cases first
  | ok pair =>
      rw [found] at first second
      cases first
      cases second
      rfl

/-- A dispatch that departs does so with the id it has looked up. -/
theorem lookupCall_effect {l m : Loops} {loop : Nat} {c : ConnId} {i j p random : Nat} {name : Bytes}
    (step : Move.lookupCallStep l loop c i j p name random = some m) :
    Effect (.lookupCall loop c i j p name random) l m := by
  unfold Move.lookupCallStep at step
  cases taken : l.server.takeId c random with
  | none =>
      rw [taken] at step
      obtain ⟨flights, entries⟩ := proceed_plain rfl step
      exact .kept flights entries
  | some first =>
      obtain ⟨s, id⟩ := first
      rw [taken] at step
      simp only at step
      by_cases pending : (l.server.waiting id).isSome = true
      · rw [if_pos pending] at step
        obtain ⟨flights, entries⟩ := proceed_plain rfl step
        exact .kept flights entries
      · rw [if_neg pending] at step
        have free : l.server.waiting id = none := by simpa using pending
        cases found : l.server.workerAt i j p with
        | none =>
            rw [found] at step
            cases step
        | some w =>
            have dropped := Server.dropEntry_keeps (rfl : l.server.ids = l.server.ids) i j p
            have alike : (l.server.dropEntry i j p).Ends (fun _ t => Alike l.server t) fun _ _ => True := by
              unfold Server.dropEntry
              rw [found]
              apply Server.unlink_ends
              · intro _
                exact ((Alike.refl l.server).eraseWorker i j p).unlinked w
              · intro _
                trivial
            rw [found] at step
            cases result : l.server.dropEntry i j p with
            | fault =>
                rw [result] at step
                cases step
            | thrown t error =>
                rw [result] at step dropped
                cases step
                exact .kept rfl fun id => waiting_ids (congrArg Ids.waitResponse dropped) id
            | returned t value =>
                rw [result] at step dropped alike
                simp only at step
                cases second : (t.claimed w).takeId c random with
                | none =>
                    rw [second] at step
                    cases step
                | some pair =>
                    obtain ⟨u, other⟩ := pair
                    rw [second] at step
                    cases step
                    have http : ((t.claimed w).conns c).http = (l.server.conns c).http := by
                      rw [claimed_conns]
                      exact alike.http c
                    have sameId : other = id := takeId_alike http alike.generated taken second
                    refine .departed _ c ?_ ?_ rfl fun key => ?_
                    · rw [Flight.id, Move.looksUp, taken, sameId]
                      rfl
                    · rw [Flight.id, sameId]
                      exact free
                    · exact (takeId_waiting second key).trans
                        (waiting_ids (congrArg Ids.waitResponse dropped) key)

theorem lookupServe_effect {l m : Loops} {loop : Nat} {c : ConnId} {i j p random : Nat}
    (step : Move.lookupServeStep l loop c i j p random = some m) :
    Effect (.lookupServe loop c i j p random) l m := by
  unfold Move.lookupServeStep at step
  cases found : l.server.messageAt i j p with
  | none =>
      rw [found] at step
      cases step
  | some message =>
      rw [found] at step
      simp only at step
      cases conn : message.conn with
      | none =>
          rw [conn] at step
          cases step
      | some d =>
          rw [conn] at step
          simp only at step
          cases taken : l.server.takeId d random with
          | none =>
              rw [taken] at step
              obtain ⟨flights, entries⟩ := proceed_plain rfl step
              exact .kept flights entries
          | some first =>
              obtain ⟨s, id⟩ := first
              rw [taken] at step
              simp only at step
              by_cases pending : (l.server.waiting id).isSome = true
              · rw [if_pos pending] at step
                obtain ⟨flights, entries⟩ := proceed_plain rfl step
                exact .kept flights entries
              · rw [if_neg pending] at step
                have free : l.server.waiting id = none := by simpa using pending
                have alike := (Alike.refl l.server).takeMessage i j p message
                cases second : ((l.server.takeMessage i j p message).claimed d).takeId d random with
                | none =>
                    rw [second] at step
                    cases step
                | some pair =>
                    obtain ⟨u, other⟩ := pair
                    rw [second] at step
                    cases step
                    have http : (((l.server.takeMessage i j p message).claimed d).conns d).http =
                        (l.server.conns d).http := by
                      rw [claimed_conns]
                      exact alike.http d
                    have sameId : other = id := takeId_alike http alike.generated taken second
                    have kept := Server.takeMessage_ids l.server i j p message
                    refine .departed _ d ?_ ?_ rfl fun key => ?_
                    · rw [Flight.id, Move.looksUp, found]
                      simp only [Option.bind_some, conn, taken, Option.map_some, sameId]
                    · rw [Flight.id, sameId]
                      exact free
                    · exact (takeId_waiting second key).trans
                        (waiting_ids (congrArg Ids.waitResponse kept) key)

/-- What an insertion leaves in `wait_response`. -/
abbrev Inserts (s : Server) (id : Bytes) (c : ConnId) (result : Result) : Prop :=
  result.Ends (fun _ t => t.waitResponse = (s.insertWait id c).waitResponse)
    fun _ t => t.waitResponse = s.waitResponse

theorem sent_inserts {s t : Server} {id : Bytes} {c w : ConnId} {response : Response}
    {next : Server → Result} (same : t.waitResponse = s.waitResponse)
    (later : ∀ u : Server, u.waitResponse = s.waitResponse → Inserts s id c (next u)) :
    Inserts s id c ((t.send w response).andThen next) := by
  rw [Inserts, Ends_andThen]
  apply Server.send_ends
  · intro _
    exact later _ same
  · intro _
    exact same

theorem insertWait_entries {s t : Server} (same : t.waitResponse = s.waitResponse) (id : Bytes)
    (c : ConnId) : (t.insertWait id c).waitResponse = (s.insertWait id c).waitResponse := by
  unfold Server.insertWait
  rw [same]

theorem insertCall_inserts (s : Server) (c w : ConnId) (queue name id : Bytes) :
    Inserts s id c (s.insertCall c w queue name id) := by
  unfold Server.insertCall
  refine sent_inserts ?_ fun u same => insertWait_entries same id c
  split
  · rfl
  · rfl

theorem insertServe_inserts (s : Server) (c d : ConnId) (queue id : Bytes) :
    Inserts s id d (s.insertServe c d queue id) := by
  unfold Server.insertServe
  refine sent_inserts ?_ fun u same => insertWait_entries same id d
  split
  · rfl
  · rfl

theorem insert_effect {move : Move} {l m : Loops} {loop : Nat} {flight : Flight} {c : ConnId}
    {result : Result} (inFlight : l.flights loop = some flight)
    (inserts : Inserts l.server flight.id c result)
    (step : (l.land loop).proceed result = some m) : Effect move l m := by
  cases result with
  | fault => cases step
  | thrown t error =>
      cases step
      exact .landed loop flight inFlight rfl
        (Or.inl fun id => congrArg (fun entries : List (Bytes × ConnId) => entries.lookup id) inserts)
  | returned t value =>
      cases step
      refine .landed loop flight inFlight rfl (Or.inr ⟨c, fun id => ?_⟩)
      rw [← waiting_insertWait]
      exact congrArg (fun entries : List (Bytes × ConnId) => entries.lookup id) inserts

/-- Only a posted result and a disconnect take an entry out. -/
theorem other_effect {l m : Loops} {loop : Nat} {action : Action} (single : action.twoSteps = false)
    (step : l.proceed (action.apply l.server) = some m) : Effect (.other loop action) l m := by
  cases plain : action.writesWait with
  | false =>
      obtain ⟨flights, entries⟩ := proceed_plain plain step
      exact .kept flights entries
  | true =>
      have removed : ∀ {id : Bytes} {t : Server}, t.ids = (l.server.eraseWait id).ids → ∀ other,
          t.waiting other = if other = id then none else l.server.waiting other := by
        intro id t same other
        rw [← waiting_eraseWait]
        exact waiting_ids (congrArg Ids.waitResponse same) other
      cases action with
      | settle id worker =>
          obtain ⟨flights, ids⟩ := proceed_ids (Server.settle_keeps id worker) step
          exact .removed id rfl flights (removed ids)
      | eraseOwn c =>
          obtain ⟨flights, ids⟩ := proceed_ids (Server.eraseOwn_keeps c) step
          exact .removed _ rfl flights (removed ids)
      | giveId => cases single
      | handId => cases single
      | _ => cases plain

theorem Move.step_effect {move : Move} {l m : Loops} (step : move.step l = some m) :
    Effect move l m := by
  unfold Move.step at step
  cases idle : l.flights move.loop with
  | none =>
      rw [idle] at step
      cases move with
      | lookupCall loop c i j p name random => exact lookupCall_effect step
      | lookupServe loop c i j p random => exact lookupServe_effect step
      | insertCall loop => cases step
      | insertServe loop => cases step
      | other loop action =>
          simp only at step
          cases single : action.twoSteps with
          | true =>
              rw [single] at step
              cases step
          | false =>
              rw [single] at step
              exact other_effect single step
  | some flight =>
      rw [idle] at step
      cases move with
      | lookupCall loop c i j p name random => cases step
      | lookupServe loop c i j p random => cases step
      | other loop action => cases step
      | insertCall loop =>
          cases flight with
          | call c w queue name id => exact insert_effect idle (insertCall_inserts _ _ _ _ _ _) step
          | serve c d queue id => cases step
      | insertServe loop =>
          cases flight with
          | call c w queue name id => cases step
          | serve c d queue id => exact insert_effect idle (insertServe_inserts _ _ _ _ _) step

/-! ### Runs -/

/-- The states of the loops after steps that all meet a condition. -/
inductive Loops.Run (allowed : Move → Loops → Prop) (start : Loops) : Loops → Prop where
  | start : Run allowed start start
  | step {l m : Loops} (move : Move) (run : Run allowed start l) (meets : allowed move l)
      (step : move.step l = some m) : Run allowed start m

theorem Loops.Run.exclusive {start l : Loops} (grounded : ∀ loop, start.flights loop = none)
    (run : Loops.Run Move.Apart start l) : l.Exclusive := by
  induction run with
  | start =>
      refine ⟨fun loop flight inFlight => ?_, fun loop other left right inFlight => ?_⟩
      · rw [grounded] at inFlight
        cases inFlight
      · rw [grounded] at inFlight
        cases inFlight
  | step move _ apart step ih => exact ih.step (Move.step_effect step) apart

/-! ### Refusals -/

/-- The connection has been sent the refusal, and nothing else. -/
def Refused (s : Server) (c : ConnId) (t : Server) : Prop :=
  ∃ jsonrpc2, (t.conns c).sendBuffer = (s.conns c).sendBuffer ++
    (Response.head (s.conns c).keepAlive ⟨"400 Collision Id", [], .code (-1)⟩ ++
      Response.tail jsonrpc2 (.code (-1)))

abbrev Refuses (s : Server) (c : ConnId) (result : Result) : Prop :=
  result.Ends (fun _ t => Refused s c t) fun _ _ => True

theorem sent_refused {s t : Server} {c : ConnId} (alike : (t.conns c).sendBuffer = (s.conns c).sendBuffer ∧
    (t.conns c).keepAlive = (s.conns c).keepAlive) {next : Server → Result}
    (later : ∀ u, Refused s c u → Refuses s c (next u)) :
    Refuses s c ((t.send c ⟨"400 Collision Id", [], .code (-1)⟩).andThen next) := by
  rw [Refuses, Ends_andThen]
  apply Server.send_ends
  · intro _
    refine later _ ⟨t.jsonrpc2, ?_⟩
    rw [Server.sent, Server.note_conns, Server.modify_self, ← alike.1, ← alike.2]
    simp only [List.append_assoc]
  · intro _
    trivial

theorem takeId_buffers {s t : Server} {d c : ConnId} {random : Nat} {id : Bytes}
    (taken : s.takeId d random = some (t, id)) :
    (t.conns c).sendBuffer = (s.conns c).sendBuffer ∧ (t.conns c).keepAlive = (s.conns c).keepAlive := by
  unfold Server.takeId at taken
  cases found : (s.conns d).http.requestId s.generated random with
  | error error =>
      rw [found] at taken
      cases taken
  | ok pair =>
      rw [found] at taken
      cases taken
      rw [Server.modify_conns]
      by_cases same : c = d
      · rw [if_pos same, same]
        exact ⟨rfl, rfl⟩
      · rw [if_neg same]
        exact ⟨rfl, rfl⟩

theorem undoCollision_refuses (s : Server) (c : ConnId) (i j p random : Nat) :
    Refuses s c ((Action.undoCollision c i j p random).apply s) := by
  simp only [Action.apply]
  cases taken : s.takeId c random with
  | none => trivial
  | some found =>
      obtain ⟨t, id⟩ := found
      obtain ⟨sendBuffer, keepAlive⟩ := takeId_buffers (c := c) taken
      simp only
      unfold Server.undo
      cases found : t.workerAt i j p with
      | none => trivial
      | some w =>
          simp only
          rw [Refuses, Ends_andThen, Server.dropEntry, found]
          apply Server.unlink_ends
          · intro _
            have alike := ((((Alike.refl t).eraseWorker i j p).unlinked w).link w).modify w
              (fun conn => { conn with status := .workerWaitJob }) fun _ => ⟨rfl, rfl, rfl⟩
            split
            · trivial
            · refine sent_refused ⟨?_, ?_⟩ fun u refused => refused
              · exact ((alike.setQueue i _ _).sendBuffer c).trans sendBuffer
              · exact ((alike.setQueue i _ _).keepAlive c).trans keepAlive
          · intro _
            trivial

theorem refuseCollision_refuses {s : Server} {d : ConnId} {i j p random : Nat} {message : Message}
    (found : s.messageAt i j p = some message) (conn : message.conn = some d) :
    Refuses s d ((Action.refuseCollision i j p random).apply s) := by
  simp only [Action.apply]
  unfold Server.refuseCollision
  rw [found]
  simp only
  rw [conn]
  simp only
  cases taken : (s.takeMessage i j p message).takeId d random with
  | none => trivial
  | some pair =>
      obtain ⟨t, id⟩ := pair
      obtain ⟨sendBuffer, keepAlive⟩ := takeId_buffers (c := d) taken
      have alike := (Alike.refl s).takeMessage i j p message
      refine sent_refused ⟨?_, ?_⟩ fun u refused => ?_
      · exact sendBuffer.trans (alike.sendBuffer d)
      · exact keepAlive.trans (alike.keepAlive d)
      · obtain ⟨jsonrpc2, written⟩ := refused
        refine ⟨jsonrpc2, ?_⟩
        rw [Server.modify_self]
        exact written

/-- A client whose id is pending is refused and not dispatched. -/
theorem pending_refused {move : Move} {l m : Loops} {c : ConnId} {id : Bytes}
    (step : move.step l = some m) (looked : move.looksUp l = some (c, id))
    (pending : (l.server.waiting id).isSome = true) :
    m.flights = l.flights ∧ ∃ result, l.proceed result = some m ∧ Refuses l.server c result := by
  have stays : ∀ {result : Result}, l.proceed result = some m → m.flights = l.flights := by
    intro result proceeds
    cases result with
    | returned t value =>
        cases proceeds
        rfl
    | thrown t error =>
        cases proceeds
        rfl
    | fault => cases proceeds
  unfold Move.step at step
  cases idle : l.flights move.loop with
  | some flight =>
      rw [idle] at step
      cases move with
      | lookupCall => cases step
      | lookupServe => cases step
      | insertCall => cases looked
      | insertServe => cases looked
      | other => cases looked
  | none =>
      rw [idle] at step
      cases move with
      | insertCall => cases looked
      | insertServe => cases looked
      | other => cases looked
      | lookupCall loop client i j p name random =>
          rw [Move.looksUp] at looked
          obtain ⟨found, taken, pairEq⟩ := Option.map_eq_some_iff.mp looked
          rw [Prod.mk.injEq] at pairEq
          simp only [Move.lookupCallStep, taken, pairEq.2, pending, if_true] at step
          rw [← pairEq.1]
          exact ⟨stays step, _, step, undoCollision_refuses l.server client i j p random⟩
      | lookupServe loop worker i j p random =>
          rw [Move.looksUp] at looked
          obtain ⟨d, found, looked⟩ := Option.bind_eq_some_iff.mp looked
          obtain ⟨message, messageEq, conn⟩ := Option.bind_eq_some_iff.mp found
          obtain ⟨pair, taken, pairEq⟩ := Option.map_eq_some_iff.mp looked
          rw [Prod.mk.injEq] at pairEq
          simp only [Move.lookupServeStep, messageEq, conn, taken, pairEq.2, pending, if_true] at step
          rw [← pairEq.1]
          exact ⟨stays step, _, step, refuseCollision_refuses messageEq conn⟩

/-- An entry goes only with a result or a disconnect. -/
theorem Effect.keeps {move : Move} {l m : Loops} (exclusive : l.Exclusive) (effect : Effect move l m)
    {id : Bytes} {c : ConnId} (entry : l.server.waiting id = some c) :
    m.server.waiting id = some c ∨ move.removes l id := by
  cases effect with
  | kept flights entries => exact Or.inl ((entries id).trans entry)
  | removed other removes flights entries =>
      by_cases same : id = other
      · rw [same]
        exact Or.inr removes
      · left
        rw [entries, if_neg same]
        exact entry
  | departed flight client looked free flights entries => exact Or.inl ((entries id).trans entry)
  | landed loop flight inFlight flights entries =>
      left
      rcases entries with same | ⟨client, inserted⟩
      · exact (same id).trans entry
      · have differs : id ≠ flight.id := by
          intro same
          rw [same, exclusive.free loop flight inFlight] at entry
          cases entry
        rw [inserted, if_neg differs]
        exact entry

theorem no_entry_lost {start l m : Loops} {move : Move} (grounded : ∀ loop, start.flights loop = none)
    (run : Loops.Run Move.Apart start l) (step : move.step l = some m) :
    (∀ loop flight, l.flights loop = some flight → l.server.waiting flight.id = none) ∧
      (∀ id c, l.server.waiting id = some c → m.server.waiting id = some c ∨ move.removes l id) ∧
      (∀ loop other left right, l.flights loop = some left → l.flights other = some right →
        left.id = right.id → loop = other) ∧
      ∀ c id, move.looksUp l = some (c, id) → (l.server.waiting id).isSome = true →
        m.flights = l.flights ∧ ∃ result, l.proceed result = some m ∧ Refuses l.server c result := by
  have exclusive := run.exclusive grounded
  exact ⟨exclusive.free, fun id c entry => (Move.step_effect step).keeps exclusive entry,
    exclusive.alone, fun c id looked pending => pending_refused step looked pending⟩

/-! ### Two calls at once -/

def moveAll : List Move → Loops → Option Loops
  | [], l => some l
  | move :: moves, l => (move.step l).bind (moveAll moves)

/-- The lookup in which a dispatch in two steps begins. -/
def Action.lookup (loop : Nat) : Action → Option Move
  | .handId c i j p name random => some (.lookupCall loop c i j p name random)
  | .giveId c i j p random => some (.lookupServe loop c i j p random)
  | _ => none

/-- What a loop does for an operation up to and with the first such lookup. -/
def opening (loop : Nat) (input : Input) (s : Server) : List Move :=
  let actions := (input.run s).1.map fun moment => moment.1
  (actions.takeWhile fun action => !action.twoSteps).map (.other loop) ++
    ((actions.find? Action.twoSteps).bind (Action.lookup loop)).toList

/-- Two workers and two clients on two loops; the workers wait on `a` and `b`. -/
def twoLoops : List Input :=
  [.accept 0 ⟨false, false, false⟩, .accept 1 ⟨false, false, false⟩,
    .accept 0 ⟨false, false, false⟩, .accept 1 ⟨false, false, false⟩,
    .recv 0 (ascii "GET /a HTTP/1.1\r\nType: get\r\n\r\n") atRest,
    .recv 1 (ascii "GET /b HTTP/1.1\r\nType: get\r\n\r\n") atRest]

def callA : Input := .recv 2 (ascii "GET /a HTTP/1.1\r\nId: 7\r\n\r\n") atRest

def callB : Input := .recv 3 (ascii "GET /b HTTP/1.1\r\nId: 7\r\n\r\n") atRest

def bothStart : Option Loops :=
  (afterAll twoLoops (Server.new 2 false [] 0)).map fun s =>
    { server := s
      flights := fun _ => none }

/-- Both calls have looked the id up, and the first has inserted it. -/
def firstInserted (start : Loops) : Option Loops :=
  ((moveAll (opening 0 callA start.server) start).bind fun l =>
    moveAll (opening 1 callB l.server) l).bind (Move.insertCall 0).step

theorem run_moveAll {moves : List Move} {start l m : Loops} (run : Loops.Run (fun _ _ => True) start l)
    (moved : moveAll moves l = some m) : Loops.Run (fun _ _ => True) start m := by
  induction moves generalizing l with
  | nil =>
      cases moved
      exact run
  | cons move moves ih =>
      obtain ⟨next, step, later⟩ := Option.bind_eq_some_iff.mp moved
      exact ih (.step move run trivial step) later

/-- The entry of one waiting client is overwritten by another client's. -/
theorem entry_overwritten :
    ¬ ∀ (start l m : Loops) (move : Move), Reachable anything start.server →
      (∀ loop, start.flights loop = none) → Loops.Run (fun _ _ => True) start l →
      move.step l = some m →
      ∀ id c, l.server.waiting id = some c → m.server.waiting id = some c ∨ move.removes l id := by
  intro always
  have ran : (bothStart.map fun start =>
      ((firstInserted start).map fun l => (l.server.waiting (ascii "7"),
        ((Move.insertCall 1).step l).map fun m => m.server.waiting (ascii "7")))) =
      some (some (some 2, some (some 3))) := by
    decide +kernel
  obtain ⟨start, startEq, ran⟩ := Option.map_eq_some_iff.mp ran
  obtain ⟨l, lEq, ran⟩ := Option.map_eq_some_iff.mp ran
  rw [Prod.mk.injEq] at ran
  obtain ⟨m, step, overwritten⟩ := Option.map_eq_some_iff.mp ran.2
  obtain ⟨s, sEq, made⟩ := Option.map_eq_some_iff.mp startEq
  obtain ⟨k, bothEq, first⟩ := Option.bind_eq_some_iff.mp lEq
  obtain ⟨h, callAEq, callBEq⟩ := Option.bind_eq_some_iff.mp bothEq
  have reachable : Reachable anything start.server := by
    rw [← made]
    exact reachable_afterAll (.new 2 false [] 0) sEq
  have grounded : ∀ loop, start.flights loop = none := by
    intro loop
    rw [← made]
  have run := Loops.Run.step _ (run_moveAll (run_moveAll .start callAEq) callBEq) trivial first
  rcases always start l m _ reachable grounded run step _ _ ran.1 with same | removed
  · rw [overwritten] at same
    cases same
  · exact removed

/-- Steps of the loops of a list, none of which looks an id up that another one is
about to insert. -/
def moveApart (loops : List Nat) : List Move → Loops → Option Loops
  | [], l => some l
  | move :: moves, l =>
      if move.loop ∈ loops ∧ ∀ looked ∈ move.looksUp l, ∀ loop ∈ loops, ∀ flight ∈ l.flights loop,
          flight.id ≠ looked.2 then
        (move.step l).bind (moveApart loops moves)
      else none

theorem run_moveApart {loops : List Nat} {moves : List Move} {start l m : Loops} (run : Loops.Run Move.Apart start l)
    (idle : ∀ loop, loop ∉ loops → l.flights loop = none) (moved : moveApart loops moves l = some m) :
    Loops.Run Move.Apart start m ∧ ∀ loop, loop ∉ loops → m.flights loop = none := by
  induction moves generalizing l with
  | nil =>
      cases moved
      exact ⟨run, idle⟩
  | cons move moves ih =>
      rw [moveApart] at moved
      split at moved
      swap
      · cases moved
      rename_i checked
      obtain ⟨next, step, later⟩ := Option.bind_eq_some_iff.mp moved
      have apart : move.Apart l := by
        intro c id looked loop flight inFlight
        by_cases member : loop ∈ loops
        · exact checked.2 _ looked loop member flight inFlight
        · rw [idle loop member] at inFlight
          cases inFlight
      refine ih (.step move run apart step) (fun loop outside => ?_) later
      cases Move.step_effect step with
      | kept flights => rw [flights, idle loop outside]
      | removed id removes flights => rw [flights, idle loop outside]
      | departed flight c looked free flights =>
          have other : loop ≠ move.loop := by
            rintro rfl
            exact outside checked.1
          rw [flights, Function.update_of_ne other, idle loop outside]
      | landed other flight inFlight flights =>
          rw [flights, Function.update_apply, idle loop outside, ite_self]

/-- A third worker waits on `c`, and a third client asks for it under the id 7. -/
def threeOnTwo : List Input :=
  twoLoops ++ [.accept 0 ⟨false, false, false⟩, .accept 0 ⟨false, false, false⟩,
    .recv 4 (ascii "GET /c HTTP/1.1\r\nType: get\r\n\r\n") atRest]

def callOther : Input := .recv 3 (ascii "GET /b HTTP/1.1\r\nId: 8\r\n\r\n") atRest

def callAgain : Input := .recv 5 (ascii "GET /c HTTP/1.1\r\nId: 7\r\n\r\n") atRest

def threeStart : Option Loops :=
  (afterAll threeOnTwo (Server.new 2 false [] 0)).map fun s =>
    { server := s
      flights := fun _ => none }

/-- Client 2 has its entry, client 3 is looked up for, and loop 0 goes on to the lookup
of client 5. -/
def meanwhileAsked (start : Loops) : Option Loops :=
  (((moveApart [0, 1] (opening 0 callA start.server) start).bind fun l =>
    moveApart [0, 1] (opening 1 callOther l.server) l).bind fun l =>
    moveApart [0, 1] [.insertCall 0] l).bind fun l =>
    moveApart [0, 1] (opening 0 callAgain l.server).dropLast l

/-- The lookup of client 5, with the worker on `c`. -/
def askAgain : Move := .lookupCall 0 5 2 0 0 (ascii "c") 0

/-- While loop 1 holds the id 8, client 5 of loop 0 is refused, and the entry of client 2
stays. -/
theorem no_entry_lost_call : ∃ l m : Loops, (l.flights 1).map Flight.id = some (ascii "8") ∧
    l.server.waiting (ascii "8") = none ∧ l.server.waiting (ascii "7") = some 2 ∧
    m.server.waiting (ascii "7") = some 2 ∧ m.flights = l.flights ∧
    ∃ result, l.proceed result = some m ∧ Refuses l.server 5 result := by
  have ran : (threeStart.bind fun start => (meanwhileAsked start).bind fun l =>
      (askAgain.step l).map fun m => ((l.flights 1).map Flight.id, l.server.waiting (ascii "7"),
        (askAgain.looksUp l).map Prod.snd, (askAgain.looksUp l).map Prod.fst)) =
      some (some (ascii "8"), some 2, some (ascii "7"), some 5) := by
    decide +kernel
  obtain ⟨start, startEq, ran⟩ := Option.bind_eq_some_iff.mp ran
  obtain ⟨l, lEq, ran⟩ := Option.bind_eq_some_iff.mp ran
  obtain ⟨m, step, facts⟩ := Option.map_eq_some_iff.mp ran
  simp only [Prod.mk.injEq] at facts
  obtain ⟨inFlight, entry, isId, isClient⟩ := facts
  obtain ⟨s, -, made⟩ := Option.map_eq_some_iff.mp startEq
  have grounded : ∀ loop, start.flights loop = none := by
    intro loop
    rw [← made]
  obtain ⟨k, inserted, opened⟩ := Option.bind_eq_some_iff.mp lEq
  obtain ⟨j, bothEq, insertedEq⟩ := Option.bind_eq_some_iff.mp inserted
  obtain ⟨h, callAEq, callBEq⟩ := Option.bind_eq_some_iff.mp bothEq
  obtain ⟨first, idle⟩ := run_moveApart .start (fun loop _ => grounded loop) callAEq
  obtain ⟨second, idle⟩ := run_moveApart first idle callBEq
  obtain ⟨third, idle⟩ := run_moveApart second idle insertedEq
  obtain ⟨run, -⟩ := run_moveApart third idle opened
  obtain ⟨free, keeps, -, refused⟩ := no_entry_lost grounded run step
  obtain ⟨flight, flying, isFlight⟩ := Option.map_eq_some_iff.mp inFlight
  obtain ⟨⟨client, id⟩, looked, sameId⟩ := Option.map_eq_some_iff.mp isId
  rw [looked] at isClient
  cases sameId
  cases isClient
  have free := free 1 flight flying
  rw [isFlight] at free
  obtain ⟨flights, result, proceeds, refuses⟩ := refused 5 (ascii "7") looked (by rw [entry]; rfl)
  rcases keeps _ _ entry with same | removes
  · exact ⟨l, m, inFlight, free, entry, same, flights, result, proceeds, refuses⟩
  · cases removes

end Ijson
