/-
The first task in the order of the deques is given to the worker that asks, when
no task on the way there has lost its client to a delete.
-/

import Ijson.Deques
import Ijson.Refusals

namespace Ijson

open Program

namespace Server

variable {s : Server} {env : Env} {c : ConnId}

/-- The fate of tasks of which none is for the worker. -/
def passedOver (s : Server) (c : ConnId) (tasks : List Message) : Scan :=
  tasks.map fun other => (other, if s.addressed c other then .lost else .other)

theorem passedOver_refused (s : Server) (c : ConnId) (tasks : List Message) : (s.passedOver c tasks).refused = [] := by
  refine List.filterMap_eq_nil_iff.mpr fun one member => ?_
  obtain ⟨other, -, rfl⟩ := List.mem_map.mp member
  cases s.addressed c other <;> rfl

theorem passedOver_made (s : Server) (c : ConnId) (tasks : List Message) : (s.passedOver c tasks).made = 0 := by
  refine List.countP_eq_zero.mpr fun one member => ?_
  obtain ⟨other, -, rfl⟩ := List.mem_map.mp member
  cases s.addressed c other <;> simp

theorem passedOver_clients (s : Server) (c : ConnId) (tasks : List Message) :
    (s.passedOver c tasks).clients = (tasks.filter (s.addressed c)).filterMap Message.conn := by
  induction tasks with
  | nil => rfl
  | cons other tasks ih =>
      have rest : Scan.clients (s.passedOver c tasks) = _ := ih
      rw [List.filter_cons]
      cases mine : s.addressed c other with
      | true =>
          rw [if_pos rfl, List.filterMap_cons, ← rest]
          simp only [passedOver, Scan.clients, List.map_cons, List.filterMap_cons, mine, if_true, reduceCtorEq,
            if_false]
      | false =>
          rw [if_neg Bool.false_ne_true, ← rest]
          simp [passedOver, Scan.clients, mine]

theorem fate_passed {other : Message} (before : Scan) (ineligible : s.eligible c other = false) :
    fate env s c before other = if s.addressed c other then .lost else .other := by
  unfold fate
  cases mine : s.addressed c other with
  | false => rfl
  | true =>
      have dead : s.alive other = false := by simpa [eligible, mine] using ineligible
      cases client : other.conn with
      | none =>
          rw [alive, client] at dead
          cases dead
      | some d => simp [dead]

theorem fate_first {before : Scan} {message : Message} (quiet : before.refused = []) (unmade : before.made = 0)
    (mine : s.eligible c message = true) {task : Task} (taskEq : asTask env s c message = some task) :
    fate env s c before message = .given := by
  rw [eligible, Bool.and_eq_true] at mine
  unfold fate
  rw [if_pos mine.1]
  cases client : message.conn with
  | none => rfl
  | some d =>
      simp only [quiet, mine.2, List.map_nil, List.not_mem_nil, decide_false, Bool.not_true, Bool.or_false,
        Bool.false_eq_true, if_false]
      cases mode : (s.conns c).noid with
      | true => rfl
      | false =>
          obtain ⟨http, made, named, free, -⟩ := asTask_id taskEq client mode
          simp only [unmade, Nat.add_zero, named, free, Option.isSome_none, Bool.false_eq_true, if_false]

theorem scan_first {tasks : List Message} (rest : List Message) {message : Message} (before : Scan) (quiet : before.refused = [])
    (unmade : before.made = 0) (passed : ∀ other ∈ tasks, s.eligible c other = false)
    (mine : s.eligible c message = true) {task : Task} (taskEq : asTask env s c message = some task) :
    s.scan env c before (tasks ++ message :: rest) = s.passedOver c tasks ++ [(message, .given)] := by
  induction tasks generalizing before with
  | nil =>
      rw [List.nil_append, scan, fate_first quiet unmade mine taskEq]
      simp [passedOver]
  | cons other tasks ih =>
      have isFate : fate env s c before other = _ := fate_passed before (passed other List.mem_cons_self)
      have stays : fate env s c before other ≠ .given := by
        rw [isFate]
        split <;> simp
      have one : s.passedOver c [other] = [(other, fate env s c before other)] := by
        rw [isFate]
        rfl
      rw [List.cons_append, scan]
      simp only [if_neg stays]
      rw [ih _ ?_ ?_ fun later member => passed later (List.mem_cons_of_mem other member), isFate]
      · rfl
      · rw [Scan.refused_append, quiet, ← one, passedOver_refused]
        rfl
      · rw [Scan.made_append, unmade, ← one, passedOver_made]

end Server

namespace Routine

variable {env : Env} {c : ConnId} {i j : Nat} {s t : Server}

/-- The clients the scan looks at on the way to the first task for the worker. -/
def looked (s : Server) (c : ConnId) (i : Nat) (before : List Nat) (front : List Message) (message : Message) :
    List ConnId :=
  ((before.flatMap (s.tasks i) ++ front ++ [message]).filter (s.addressed c)).filterMap Message.conn

variable {before after : List Nat} {front back : List Message} {message : Message} {task : Task}

/-- The scan that comes to the first task for the worker. -/
theorem First.scan (first : First s c i before j after front message back)
    (taskEq : Server.asTask env s c message = some task) :
    let scan := s.scan env c [] ((loopOrder (s.conns c).nloop s.threads).flatMap (s.tasks i))
    scan.given = some message ∧ scan.clients = looked s c i before front message := by
  have mine := first.eligible
  rw [Server.eligible, Bool.and_eq_true] at mine
  have passed : ∀ other ∈ before.flatMap (s.tasks i) ++ front, s.eligible c other = false := by
    intro other member
    rcases List.mem_append.mp member with earlier | here
    · obtain ⟨j', inBefore, inDeque⟩ := List.mem_flatMap.mp earlier
      exact first.earlier j' inBefore other inDeque
    · exact first.passed other here
  have split : (loopOrder (s.conns c).nloop s.threads).flatMap (s.tasks i) =
      before.flatMap (s.tasks i) ++ front ++ message :: (back ++ after.flatMap (s.tasks i)) := by
    rw [first.loops, List.flatMap_append, List.flatMap_cons, first.tasks]
    simp only [List.append_assoc, List.cons_append]
  have scanned := Server.scan_first (back ++ after.flatMap (s.tasks i)) [] rfl rfl passed
    first.eligible taskEq
  rw [← split] at scanned
  constructor
  · rw [scanned, Scan.given_append]
    · exact Scan.given_self message []
    · rw [Scan.given, Option.map_eq_none_iff, List.find?_eq_none]
      intro one member
      obtain ⟨other, -, rfl⟩ := List.mem_map.mp member
      cases s.addressed c other <;> simp
  · rw [scanned, Scan.clients_append, Server.passedOver_clients, looked,
      List.filter_append (_ ++ _), List.filterMap_append]
    congr 1
    rw [List.filter_cons_of_pos mine.1, List.filter_nil]
    rfl

/-- A worker of a live queue can be put into its list. -/
theorem subscribe_returns (name : Bytes) (live : (t.queue i j).isSome = true) :
    ∃ u, (Action.subscribe c i name).apply t = .returned u () ∧
      ∀ x, (u.conns x).sendBuffer = (t.conns x).sendBuffer := by
  rw [Server.queue] at live
  cases line : t.line i with
  | none =>
      rw [line] at live
      cases live
  | some line =>
      simp only [Action.apply, Server.subscribe, line]
      refine ⟨_, rfl, fun x => ?_⟩
      rw [Server.modify_conns, Server.link_conns, Server.link_conns]
      split
      · rename_i same
        rw [same]
        rfl
      · rfl

section Served

variable {u : Server} {p : Nat} {name : Bytes} {last : Bool}
  (ran : (findMessageIn env c i (loopOrder (s.conns c).nloop s.threads)).outcome Action.apply s =
    .returned u (some (j, p)))

include ran

theorem serve_outcome : (serve env name c i last).outcome Action.apply s = Outcome.bind
    ((give env c i j p last).outcome Action.apply u) fun v result => (get >>= fun now =>
      if (now.conns c).workerItem.isNone &&
          ((now.conns c).workerMode || (now.conns c).noid || (now.conns c).status = .workerWaitJob) then do
        perform (.subscribe c i name)
        return result
      else return result : Routine Int).outcome Action.apply v := by
  rw [serve, get_outcome, outcome_bind, ran]
  exact outcome_bind _ _

/-- A worker returns with the task at which its scan stands. -/
theorem serve_gives (live : (u.queue i j).isSome = true) (here : u.messageAt i j p = some message)
    (taken : Server.asTask env u c message = some task) {v : Server} {result : Int}
    (gave : (give env c i j p last).outcome Action.apply u = .returned v result) :
    ∃ t, (serve env name c i last).outcome Action.apply s = .returned t result ∧ Wrote u c task t := by
  have given := outcome_ends (give_first last here taken)
  rw [gave] at given
  have kept : (v.queue i j).isSome = true := by
    rw [← Server.eraseMessage_deques u i j p, Server.queue_eq] at live
    rw [Server.queue_eq, given.2]
    exact live
  obtain ⟨w, subscribed, sends⟩ := subscribe_returns (c := c) name kept
  rw [serve_outcome ran, gave, Outcome.bind, get_outcome]
  split
  · refine ⟨w, act_returned.mpr ⟨w, subscribed, rfl⟩, ?_⟩
    rw [Wrote, sends]
    exact given.1
  · exact ⟨v, rfl, given.1⟩

end Served

/-- Connection 1 of the first loop calls the queue `a` and hangs up; of the second
loop connection 2 calls it, for the worker `w` only and with the highest priority,
and connections 3 and 4. -/
def twoLoops : List Input :=
  [.accept 0 ⟨false, false, false⟩, .accept 0 ⟨false, false, false⟩, .accept 1 ⟨false, false, false⟩,
    .accept 1 ⟨false, false, false⟩, .accept 1 ⟨false, false, false⟩,
    .recv 0 (ascii "GET /a HTTP/1.1\r\nType: create\r\n\r\n") atRest,
    .recv 1 (ascii "GET /a HTTP/1.1\r\nId: 6\r\n\r\n") atRest,
    .recv 3 (ascii "GET /a HTTP/1.1\r\nId: 8\r\n\r\n") atRest,
    .recv 2 (ascii "GET /a HTTP/1.1\r\nId: 7\r\nPriority: 2\r\nWorker-ID: w\r\n\r\n") atRest,
    .recv 4 (ascii "GET /a HTTP/1.1\r\nId: 9\r\nPriority: 1\r\n\r\n") atRest, .hangup 1]

end Routine

end Ijson
