/-
The error exits of `_add_worker`.

A client whose id cannot be used is refused in the middle of the scan: its task
is taken out of the deque and handed to the `GC`, and the scan goes on.
-/

import Ijson.TaskScan

namespace Ijson

open Program

namespace Routine

variable {env : Env} {c : ConnId} {i j : Nat} {s t : Server}

/-! ### The task the scan stops at -/

/-- The task can be made out: it has its body, or its id has been taken. -/
theorem given_asTask {tasks : List Message} {message : Message}
    (passed : Server.Passed s i (s.scan env c [] tasks) t)
    (given : (s.scan env c [] tasks).given = some message) :
    t.eligible c message = true ∧ (message.conn ≠ none → ∃ task, t.asTask env c message = some task) := by
  obtain ⟨front, split, isGiven⟩ := Server.scan_given given
  obtain ⟨eligible, free⟩ := Server.fate_given isGiven
  have refused : (s.scan env c [] tasks).refused = front.refused := by
    rw [split, Scan.refused_append]
    exact List.append_nil _
  have made : (s.scan env c [] tasks).made = front.made := by
    rw [split, Scan.made_append]
    rfl
  rw [Server.eligible, Bool.and_eq_true] at eligible
  constructor
  · rw [Server.eligible, passed.addressed, eligible.1, Bool.true_and]
    cases client : message.conn with
    | none => rw [Server.alive, client]
    | some d =>
        rw [passed.alive client, eligible.2, refused]
        simpa using (free d client).1
  · intro isClient
    obtain ⟨d, client⟩ := Option.ne_none_iff_exists'.mp isClient
    obtain ⟨never, named⟩ := free d client
    have conn : t.conns d = s.conns d := passed.kept d (by rw [refused]; exact never)
    unfold Server.asTask
    simp only [client, conn, (passed.worker c).2.1, passed.generated, made]
    cases mode : (s.conns c).noid with
    | true => exact ⟨_, rfl⟩
    | false =>
        obtain ⟨http, generated, isNamed, unused⟩ := named mode
        have waiting : t.waiting http.id = none := by
          rw [Server.waiting, passed.waitResponse]
          exact unused
        simp only [isNamed, waiting, Bool.false_eq_true, if_false, Option.isSome_none]
        exact ⟨_, rfl⟩

theorem given_whole {tasks : List Message} {message : Message}
    (passed : Server.Passed s i (s.scan env c [] tasks) t)
    (given : (s.scan env c [] tasks).given = some message) (whole : message.conn = none → message.buf ≠ none) :
    ∃ task, t.asTask env c message = some task := by
  cases client : message.conn with
  | some d => exact (given_asTask passed given).2 (by simp [client])
  | none =>
      obtain ⟨body, buf⟩ := Option.ne_none_iff_exists'.mp (whole client)
      exact ⟨_, by rw [Server.asTask, client, buf]; rfl⟩

section Given

variable {message : Message} {p : Nat} (found : t.messageAt i j p = some message)

include found

theorem giveAsync_returns {body : Bytes} (client : message.conn = none) (buf : message.buf = some body) :
    (∃ u, t.giveAsync c i j p = .returned u ()) ↔ (t.conns c).closed = false := by
  simp only [Server.giveAsync, found, client, buf]
  rw [Server.send_returns fun u => ⟨_, rfl⟩, Server.modify_self, Server.takeMessage_conns]
  rfl

theorem giveNoid_returns {d : ConnId} (client : message.conn = some d) :
    (∃ u, t.giveNoid c i j p = .returned u ()) ↔ (t.conns c).closed = false := by
  simp only [Server.giveNoid, found, client]
  rw [Server.send_returns fun u => ⟨_, rfl⟩, Server.modify_closed, Server.claimed_closed, Server.modify_closed, Server.takeMessage_conns]
  all_goals exact fun _ => rfl

theorem giveId_returns {d : ConnId} {random : Nat} {http : Http} {made : Bool} (client : message.conn = some d)
    (named : (t.conns d).http.requestId t.generated random = .ok (http, made)) :
    (∃ u, t.giveId c i j p random = .returned u ()) ↔ (t.conns c).closed = false := by
  have busy : (((t.takeMessage i j p message).modify d fun conn => { conn with status := .busy }).conns d).http =
      (t.conns d).http := by
    rw [Server.modify_self, Server.takeMessage_conns]
  have generated : ((t.takeMessage i j p message).modify d fun conn => { conn with status := .busy }).generated =
      t.generated := (Server.unmoved_takeMessage t i j p message).generated
  obtain ⟨v, taken, vEq⟩ := Server.takeId_named (d := d) (by rw [busy, generated]; exact named)
  simp only [Server.giveId, found, client, taken]
  rw [Server.send_returns fun u => ⟨_, rfl⟩, Server.claimed_closed, vEq, Server.modify_closed]
  · change (((t.takeMessage i j p message).modify d fun conn => { conn with status := .busy }).conns c).closed =
      false ↔ (t.conns c).closed = false
    rw [Server.modify_closed, Server.takeMessage_conns]
    exact fun _ => rfl
  · exact fun _ => rfl

end Given

/-- It is written to the worker when the worker is open. -/
theorem give_returned_iff {message : Message} {p : Nat} (last : Bool) (found : t.messageAt i j p = some message)
    (fits : message.conn ≠ none → ∃ task, t.asTask env c message = some task) :
    (∃ u result task, (give env c i j p last).outcome Action.apply t = .returned u result ∧
      t.asTask env c message = some task ∧ Wrote t c task u) ↔
      (t.conns c).closed = false ∧ (message.conn = none → message.buf ≠ none) := by
  -- the action that gives the task decides
  have decides : ∀ (action : Action) (result : Int), (give env c i j p last).outcome Action.apply t =
      (perform action >>= fun _ => pure result : Routine Int).outcome Action.apply t →
      ((∃ u, action.apply t = .returned u ()) ↔ (t.conns c).closed = false) →
      (message.conn = none → message.buf ≠ none) → (∃ task, t.asTask env c message = some task) →
      ((∃ u result task, (give env c i j p last).outcome Action.apply t = .returned u result ∧
        t.asTask env c message = some task ∧ Wrote t c task u) ↔
        (t.conns c).closed = false ∧ (message.conn = none → message.buf ≠ none)) := by
    intro action result same returns whole ⟨task, taskEq⟩
    constructor
    · rintro ⟨u, value, -, ran, -⟩
      rw [same, act_returned] at ran
      obtain ⟨middle, applied, -⟩ := ran
      exact ⟨returns.mp ⟨middle, applied⟩, whole⟩
    · rintro ⟨opened, -⟩
      obtain ⟨u, applied⟩ := returns.mpr opened
      have ran : (give env c i j p last).outcome Action.apply t = .returned u result := by
        rw [same, act_returned]
        exact ⟨u, applied, rfl⟩
      have wrote := outcome_ends (give_first last found taskEq)
      rw [ran] at wrote
      exact ⟨u, result, task, ran, taskEq, wrote.1⟩
  obtain client | ⟨d, client⟩ : message.conn = none ∨ ∃ d, message.conn = some d := by
    cases message.conn <;> simp
  · cases buf : message.buf with
    | none =>
        refine iff_of_false ?_ fun both => both.2 client rfl
        rintro ⟨u, result, task, -, taskEq, -⟩
        rw [Server.asTask, client, buf] at taskEq
        cases taskEq
    | some body =>
        rw [← buf]
        refine decides (.giveAsync c i j p (!last && decide (env.garbage t.tick ≠ 1))) (env.garbage t.tick) ?_
          (giveAsync_returns found client buf) (fun _ => by simp [buf])
          ⟨⟨none, message.name, true, body⟩, by rw [Server.asTask, client, buf]; rfl⟩
        rw [give, get_outcome, found]
        simp only [client, Option.isNone_none, if_true]
  · obtain ⟨task, taskEq⟩ := fits (by rw [client]; simp)
    have whole : message.conn = none → message.buf ≠ none := by
      rw [client]
      intro absent
      cases absent
    cases mode : (t.conns c).noid with
    | true =>
        refine decides (.giveNoid c i j p) 1 ?_ (giveNoid_returns found client) whole ⟨task, taskEq⟩
        rw [give, get_outcome, found]
        simp only [client, mode, Option.isNone_some, Bool.false_eq_true, if_false, if_true]
    | false =>
        obtain ⟨http, made, named, -⟩ := Server.asTask_id taskEq client mode
        refine decides (.giveId c i j p (env.random t.generated)) 1 ?_ (giveId_returns found client named) whole
          ⟨task, taskEq⟩
        rw [give, get_outcome, found]
        simp only [client, mode, Option.isNone_some, Bool.false_eq_true, if_false]

/-! ### The exits -/

/-- How the scan goes on: it leaves no task for the worker, or stops at the first
one, which is written to it. -/
def GoesOn (env : Env) (t : Server) (c : ConnId) (i : Nat) (loops : List Nat) : Option (Nat × Nat) → Prop
  | none => ∀ j ∈ loops, Spent t c i j
  | some (j, p) => ∃ message before after front back, loops = before ++ j :: after ∧
      (∀ j' ∈ before, Spent t c i j') ∧ t.tasks i j = front ++ message :: back ∧ p = front.length ∧
      (∀ other ∈ front, t.addressed c other = false) ∧ t.eligible c message = true ∧
      ∀ last, ∃ u result task, (give env c i j p last).outcome Action.apply t = .returned u result ∧
        t.asTask env c message = some task ∧ Wrote t c task u

/-- What a scan of `_add_worker` owes to the clients it refuses and to its worker.
The tasks of `dropped` are the ones it takes out. -/
structure RefusedProperly (env : Env) (s : Server) (c : ConnId) (i : Nat) (loops : List Nat)
    (dropped : List Message) (found : Option (Nat × Nat)) (t : Server) : Prop where
  mine : ∀ message ∈ dropped, s.addressed c message = true
  refused : ∀ message ∈ dropped, s.alive message = true → ∃ d refusal, message.conn = some d ∧
    Server.Unusable env s d refusal ∧ (t.conns d).status = .net ∧
    (t.conns d).sendBuffer = (s.conns d).sendBuffer ++ (refusal.response.head (s.conns d).keepAlive ++
      Response.tail s.jsonrpc2 refusal.response.payload) ∧
    t.log.countP (Event.tells d) = s.log.countP (Event.tells d) + 1
  others : ∀ d, (∀ message ∈ dropped, message.conn = some d → s.alive message = false) →
    t.conns d = s.conns d ∧ t.log.countP (Event.tells d) = s.log.countP (Event.tells d)
  removed : t.gc = s.gc ++ dropped ∧
    (dropped ++ loops.flatMap (t.tasks i)).Perm (loops.flatMap (s.tasks i)) ∧
    ∀ i' j', (t.tasks i' j').Sublist (s.tasks i' j')
  released : ∃ u, release.outcome Action.apply t = .returned u () ∧ u.gc = [] ∧
    ∀ d, (u.conns d).link = (s.conns d).link - ((s.gc ++ dropped).filterMap Message.conn).count d
  waitResponse : t.waitResponse = s.waitResponse
  goesOn : GoesOn env t c i loops found

/-- What is asked of the tasks in the deques before the scan: of those it comes
to no client has been deleted, no waiting one has an id that cannot be read, and
each has a reference for every task that is taken out; and where one is given,
the worker is open and the task complete. -/
structure Serviceable (env : Env) (s : Server) (c : ConnId) (scan : Scan) : Prop where
  kept : s.Kept scan.clients
  named : ∀ one ∈ scan, one.2 ≠ .refused .noId
  held : s.Unlinkable ((s.gc ++ scan.gone).filterMap Message.conn)
  given : ∀ message, scan.given = some message → (s.conns c).closed = false ∧
    (message.conn = none → message.buf ≠ none)

theorem answers_countP {scan : Scan} (distinct : (scan.refused.map Prod.fst).Nodup) (d : ConnId) :
    (s.answers scan.refused).countP (Event.tells d) = if d ∈ scan.refused.map Prod.fst then 1 else 0 := by
  have tells : (s.answers scan.refused).countP (Event.tells d) = (scan.refused.map Prod.fst).count d := by
    rw [Server.answers, List.countP_map, List.count, List.countP_map]
    refine List.countP_congr fun one _ => ?_
    simp [Event.tells]
  rw [tells]
  split
  · rename_i member
    exact List.count_eq_one_of_mem distinct member
  · rename_i absent
    exact List.count_eq_zero.mpr absent

section Ends

variable {loops : List Nat} {stop : Option Nat} {u : Server} {place : Option (Nat × Nat)}
  (scanned : SlotScanned s c i loops [] (s.scan env c [] (loops.flatMap (s.tasks i))) stop s u place)

include scanned

theorem RefusedProperly.serviceable {dropped : List Message}
    (kept : s.Kept (s.scan env c [] (loops.flatMap (s.tasks i))).clients)
    (proper : RefusedProperly env s c i loops dropped place u) :
    Serviceable env s c (s.scan env c [] (loops.flatMap (s.tasks i))) := by
  have passed := scanned.passed
  have stands := scanned.stands
  rw [List.nil_append] at passed
  have links : ∀ x, (u.conns x).link = (s.conns x).link := fun x => (passed.worker x).2.2.2.2.2
  have same : dropped = (s.scan env c [] (loops.flatMap (s.tasks i))).gone :=
    List.append_cancel_left (proper.removed.1.symm.trans passed.gc)
  subst same
  refine ⟨kept, fun one member isNoId => ?_, ?_, fun message given => ?_⟩
  · obtain ⟨message, fate⟩ := one
    simp only at isNoId
    subst isNoId
    obtain ⟨front, back, -, isFate, -⟩ := Server.scan_member member
    obtain ⟨-, d, client, -, alive, -⟩ := Server.fate_refused isFate.symm
    obtain ⟨x, refusal, isClient, -, net, -⟩ :=
      proper.refused message (Scan.mem_gone.mpr ⟨_, member, rfl⟩) alive
    rw [client, Option.some.injEq] at isClient
    obtain ⟨id, json, conn⟩ := passed.refused d .noId (Scan.mem_refused.mpr ⟨message, member, client⟩)
    rw [← isClient, conn] at net
    cases net
  · obtain ⟨v, released, -⟩ := proper.released
    have linked := (release_returned.mp released).1
    rw [passed.gc] at linked
    exact (Server.unlinkable_congr links).mp linked
  · have goesOn := proper.goesOn
    cases place with
    | none =>
        rw [stands.1] at given
        cases given
    | some place =>
        obtain ⟨j, p⟩ := place
        obtain ⟨first, _, _, front, back, isGiven, -, -, tasks, position, -⟩ := stands
        obtain ⟨second, _, _, front', back', -, -, tasks', position', -, -, gives⟩ := goesOn
        have found : u.messageAt i j p = some first := by
          rw [Server.messageAt_tasks, tasks, position]
          simp
        have found' : u.messageAt i j p = some second := by
          rw [Server.messageAt_tasks, tasks', position']
          simp
        rw [found, Option.some.injEq] at found'
        rw [given, Option.some.injEq] at isGiven
        rw [← isGiven] at found found'
        rw [← found'] at gives
        have decided := (give_returned_iff true found (given_asTask passed given).2).mp (gives true)
        rw [(passed.worker c).2.2.2.1] at decided
        exact decided

theorem Serviceable.refusedProperly
    (serviceable : Serviceable env s c (s.scan env c [] (loops.flatMap (s.tasks i)))) :
    RefusedProperly env s c i loops (s.scan env c [] (loops.flatMap (s.tasks i))).gone place u := by
  have passed := scanned.passed
  have stands := scanned.stands
  have distinct := Server.scan_refused_nodup env s c [] (loops.flatMap (s.tasks i)) List.nodup_nil
  rw [List.nil_append] at passed distinct
  have links : ∀ x, (u.conns x).link = (s.conns x).link := fun x => (passed.worker x).2.2.2.2.2
  refine
    { mine := fun message gone => Server.scan_gone_addressed gone
      refused := fun message gone alive => ?_
      others := fun d dead => ?_
      removed := ⟨passed.gc, ?_, passed.fewer⟩
      released := ?_
      waitResponse := passed.waitResponse
      goesOn := ?_ }
  · obtain ⟨d, refusal, client, entry⟩ := Server.scan_gone_alive gone alive
    obtain ⟨other, member, isClient⟩ := Scan.mem_refused.mp entry
    obtain ⟨front, back, -, isFate, -⟩ := Server.scan_member member
    obtain ⟨-, x, isClient', -, -, unusable⟩ := Server.fate_refused isFate.symm
    rw [isClient, Option.some.injEq] at isClient'
    obtain ⟨id, json, conn⟩ := passed.refused d refusal entry
    refine ⟨d, refusal, client, isClient' ▸ unusable, ?_, ?_, ?_⟩
    · rw [conn]
      cases refusal with
      | noId => exact absurd rfl (serviceable.named _ member)
      | collision made => rfl
    · rw [conn, Server.refusedConn, List.append_assoc]
    · rw [passed.log, List.countP_append, answers_countP distinct, if_pos (List.mem_map_of_mem entry)]
  · have never : d ∉ (s.scan env c [] (loops.flatMap (s.tasks i))).refused.map Prod.fst := by
      intro member
      obtain ⟨⟨x, refusal⟩, entry, same⟩ := List.mem_map.mp member
      simp only at same
      subst same
      obtain ⟨message, inside, client⟩ := Scan.mem_refused.mp entry
      obtain ⟨front, back, -, isFate, -⟩ := Server.scan_member inside
      obtain ⟨-, -, -, -, alive, -⟩ := Server.fate_refused isFate.symm
      rw [dead message (Scan.mem_gone.mpr ⟨_, inside, rfl⟩) client] at alive
      cases alive
    exact ⟨passed.kept d never, by rw [passed.log, List.countP_append, answers_countP distinct, if_neg never,
      Nat.add_zero]⟩
  · have parts := (Scan.gone_left (s.scan env c [] (loops.flatMap (s.tasks i)))).append_right
      ((loops.flatMap (s.tasks i)).drop (s.scan env c [] (loops.flatMap (s.tasks i))).length)
    rw [List.append_assoc, ← scanned.left, Server.scan_tasks] at parts
    exact parts
  · refine ⟨_, release_returned.mpr ⟨?_, rfl⟩, rfl, fun d => ?_⟩
    · rw [passed.gc]
      exact (Server.unlinkable_congr links).mpr serviceable.held
    · change ((u.unlinkAll _).conns d).link = _
      rw [Server.unlinkAll_conns, passed.gc]
      simp only [links]
  · cases place with
    | none => exact stands.2
    | some place =>
        obtain ⟨j, p⟩ := place
        obtain ⟨message, before, after, front, back, isGiven, loopsEq, spent, tasks, position, others⟩ := stands
        have found : u.messageAt i j p = some message := by
          rw [Server.messageAt_tasks, tasks, position]
          simp
        obtain ⟨eligible, fits⟩ := given_asTask passed isGiven
        refine ⟨message, before, after, front, back, loopsEq, spent, tasks, position, others, eligible,
          fun last => ?_⟩
        refine (give_returned_iff last found fits).mpr ?_
        rw [(passed.worker c).2.2.2.1]
        exact serviceable.given message isGiven

end Ends

/-- The clients a worker's scan refuses are left as they should be, and the scan
goes on, exactly when this can be told of the tasks in the deques before it. -/
theorem refused_properly_iff (env : Env) (s : Server) (c : ConnId) (i : Nat)
    (deques : ∀ j ∈ loopOrder (s.conns c).nloop s.threads, (s.queue i j).isSome = true) :
    let loops := loopOrder (s.conns c).nloop s.threads
    (∃ t found dropped, (findMessageIn env c i loops).outcome Action.apply s = .returned t found ∧
      RefusedProperly env s c i loops dropped found t) ↔
      Serviceable env s c (s.scan env c [] (loops.flatMap (s.tasks i))) := by
  intro loops
  have scans := findMessageIn_scans env c loops (nodup_loopOrder _ _) deques [] (Server.Passed.refl s i)
    fun _ _ => rfl
  rcases scans with ⟨kept, u, place, ran, scanned⟩ | ⟨deleted, ran⟩
  · constructor
    · rintro ⟨t, found, dropped, returned, proper⟩
      rw [ran] at returned
      cases returned
      exact proper.serviceable scanned kept
    · exact fun serviceable => ⟨u, place, _, ran, serviceable.refusedProperly scanned⟩
  · refine iff_of_false ?_ fun serviceable => deleted serviceable.kept
    rintro ⟨t, found, dropped, returned, -⟩
    rw [ran] at returned
    cases returned

/-- Connection 0 of the first loop was handed the task of connection 1, whose id
7 is pending.  Connections 2 and 3 wait there too, 2 under the same id, and 3 has
hung up; connection 4 waits in the second loop. -/
def mixedCalls : List Input :=
  [.accept 0 ⟨false, false, false⟩, .accept 0 ⟨false, false, false⟩, .accept 0 ⟨false, false, false⟩,
    .accept 0 ⟨false, false, false⟩, .accept 1 ⟨false, false, false⟩,
    .recv 0 (ascii "GET /a HTTP/1.1\r\nType: get\r\n\r\n") atRest,
    .recv 1 (ascii "GET /a HTTP/1.1\r\nId: 7\r\n\r\n") atRest,
    .recv 2 (ascii "GET /a HTTP/1.1\r\nId: 7\r\n\r\n") atRest,
    .recv 3 (ascii "GET /a HTTP/1.1\r\nId: 9\r\n\r\n") atRest,
    .recv 4 (ascii "GET /a HTTP/1.1\r\nId: 8\r\n\r\n") atRest, .hangup 3]

/-- The tasks that connection 0 comes to when it asks again. -/
abbrev askedAgain (s : Server) : Scan :=
  s.scan atRest 0 [] ((loopOrder (s.conns 0).nloop s.threads).flatMap (s.tasks 0))

def refusesOne (s : Server) : Bool :=
  decide ((askedAgain s).map Prod.snd = [.refused (.collision false), .lost, .given]) &&
    decide (s.Kept (askedAgain s).clients) &&
    decide (s.Unlinkable ((s.gc ++ (askedAgain s).gone).filterMap Message.conn)) &&
    (!(s.conns 0).closed && (askedAgain s).given.all fun message => message.conn.isSome) &&
    decide (∀ j ∈ loopOrder (s.conns 0).nloop s.threads, (s.queue 0 j).isSome = true)

theorem refused_properly_iff_mixed : ∃ s t found dropped,
    (askedAgain s).map Prod.snd = [.refused (.collision false), .lost, .given] ∧
      (findMessageIn atRest 0 0 (loopOrder (s.conns 0).nloop s.threads)).outcome Action.apply s =
        .returned t found ∧
      RefusedProperly atRest s 0 0 (loopOrder (s.conns 0).nloop s.threads) dropped found t := by
  have ran : (afterAll mixedCalls (Server.new 2 false [] 0)).map refusesOne = some true := by
    decide +kernel
  obtain ⟨s, -, test⟩ := Option.map_eq_some_iff.mp ran
  simp only [refusesOne, Bool.and_eq_true, decide_eq_true_eq, Bool.not_eq_true'] at test
  obtain ⟨⟨⟨⟨fates, kept⟩, held⟩, opened, synchronous⟩, deques⟩ := test
  obtain ⟨t, found, dropped, returned, proper⟩ := (refused_properly_iff atRest s 0 0 deques).mpr
    { kept := kept
      named := fun one member isNoId => by
        have fate := List.mem_map_of_mem (f := Prod.snd) member
        rw [fates, isNoId] at fate
        simp at fate
      held := held
      given := fun message given => by
        refine ⟨opened, fun absent => ?_⟩
        rw [given, Option.all_some, absent] at synchronous
        cases synchronous }
  exact ⟨s, t, found, dropped, fates, returned, proper⟩

/-- A client calls the queue `a` with a body that is no JSON. -/
def wordCall : List Input :=
  [.accept 0 ⟨false, false, false⟩, .accept 0 ⟨false, false, false⟩,
    .recv 0 (ascii "GET /a HTTP/1.1\r\nType: create\r\n\r\n") atRest,
    .recv 1 (ascii "POST /a HTTP/1.1\r\nContent-Length: 1\r\n\r\nx") atRest]

/-- The client is refused with `400 No Id` when connection 0 asks for a task. -/
def refusesWord (s : Server) : Bool :=
  (askedAgain s).any (fun one => one.2 = .refused .noId) &&
    decide (∀ j ∈ loopOrder (s.conns 0).nloop s.threads, (s.queue 0 j).isSome = true)

/-- A client that is refused with `400 No Id` is left busy. -/
theorem refused_client_busy : ¬ ∀ env s c i, Reachable anything s →
    (∀ j ∈ loopOrder (s.conns c).nloop s.threads, (s.queue i j).isSome = true) →
    ∃ t found dropped,
      (findMessageIn env c i (loopOrder (s.conns c).nloop s.threads)).outcome Action.apply s = .returned t found ∧
        RefusedProperly env s c i (loopOrder (s.conns c).nloop s.threads) dropped found t := by
  intro always
  have ran : (afterAll wordCall (Server.new 1 false [] 0)).map refusesWord = some true := by
    decide +kernel
  obtain ⟨s, afterEq, test⟩ := Option.map_eq_some_iff.mp ran
  rw [refusesWord, Bool.and_eq_true, decide_eq_true_eq] at test
  obtain ⟨one, member, isNoId⟩ := List.any_eq_true.mp test.1
  obtain ⟨t, found, dropped, returned, proper⟩ := always atRest s 0 0 (reachable_afterAll (.new 1 false [] 0) afterEq)
    test.2
  rcases findMessageIn_scans atRest 0 _ (nodup_loopOrder _ _) test.2 [] (Server.Passed.refl s 0) fun _ _ => rfl with
    ⟨kept, u, place, ran, scanned⟩ | ⟨-, ran⟩
  · rw [ran] at returned
    cases returned
    exact (proper.serviceable scanned kept).named one member (of_decide_eq_true isNoId)
  · rw [ran] at returned
    cases returned

end Routine

end Ijson
