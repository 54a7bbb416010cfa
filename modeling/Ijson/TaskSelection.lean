/-
Which task a worker is given.

The scan of `_add_worker` passes over the tasks of other workers, takes out
those whose client is gone and stops at the first one left.
-/

import Ijson.TaskOrder
import Ijson.TaskDispatch
import Ijson.Disconnects

namespace Ijson

open Program

namespace Server

variable {s t u : Server}

/-- The task is for any worker, or for this one. -/
def addressed (s : Server) (c : ConnId) (message : Message) : Bool :=
  message.requiredWorker.isEmpty ||
    decide (message.requiredWorker = (s.conns c).http.connectionId)

/-- It is asynchronous, or its client is open and waiting. -/
def alive (s : Server) (message : Message) : Bool :=
  match message.conn with
  | none => true
  | some d => !(s.conns d).closed && decide ((s.conns d).status = .clientWaitResult)

/-- The worker may be given this task. -/
def eligible (s : Server) (c : ConnId) (message : Message) : Bool :=
  s.addressed c message && s.alive message

/-- The scan takes this task out. -/
def gone (s : Server) (c : ConnId) (message : Message) : Bool :=
  s.addressed c message && !s.alive message

/-- What the worker is sent for the task; nothing when it needs an id and the
client's JSON cannot be read or the id is in use. -/
def asTask (env : Env) (s : Server) (c : ConnId) (message : Message) : Option Task :=
  match message.conn with
  | none => message.buf.map fun body => ⟨none, message.name, true, body⟩
  | some d =>
      let client := (s.conns d).http
      if (s.conns c).noid then some ⟨none, client.name, false, client.body⟩
      else
        match client.requestId s.generated (env.random s.generated) with
        | .error _ => none
        | .ok (http, _) =>
            if (s.waiting http.id).isSome then none
            else some ⟨some http.id, client.name, false, client.body⟩

/-- Only deques were written. -/
structure Unmoved (s t : Server) : Prop where
  conns : t.conns = s.conns
  generated : t.generated = s.generated
  waitResponse : t.waitResponse = s.waitResponse
  threads : t.threads = s.threads
  jsonrpc2 : t.jsonrpc2 = s.jsonrpc2

theorem Unmoved.refl (s : Server) : Unmoved s s := ⟨rfl, rfl, rfl, rfl, rfl⟩

theorem Unmoved.trans (first : Unmoved s t) (second : Unmoved t u) : Unmoved s u :=
  { conns := second.conns.trans first.conns
    generated := second.generated.trans first.generated
    waitResponse := second.waitResponse.trans first.waitResponse
    threads := second.threads.trans first.threads
    jsonrpc2 := second.jsonrpc2.trans first.jsonrpc2 }

theorem Unmoved.asTask (unmoved : Unmoved s t) (env : Env) (c : ConnId) (message : Message) :
    asTask env t c message = asTask env s c message := by
  unfold Server.asTask Server.waiting
  rw [unmoved.conns, unmoved.generated, unmoved.waitResponse]

/-- A task with an id has one that can be taken and is free. -/
theorem asTask_id {env : Env} {c d : ConnId} {message : Message} {task : Task}
    (taskEq : asTask env s c message = some task) (client : message.conn = some d)
    (mode : (s.conns c).noid = false) :
    ∃ http generated, (s.conns d).http.requestId s.generated (env.random s.generated) =
      .ok (http, generated) ∧ s.waiting http.id = none ∧
        task = ⟨some http.id, (s.conns d).http.name, false, (s.conns d).http.body⟩ := by
  unfold asTask at taskEq
  simp only [client, mode, Bool.false_eq_true, ↓reduceIte] at taskEq
  cases found : (s.conns d).http.requestId s.generated (env.random s.generated) with
  | error error =>
      rw [found] at taskEq
      cases taskEq
  | ok result =>
      obtain ⟨http, generated⟩ := result
      simp only [found] at taskEq
      cases free : s.waiting http.id with
      | some other =>
          rw [free] at taskEq
          cases taskEq
      | none =>
          rw [free] at taskEq
          exact ⟨http, generated, rfl, free, (Option.some.inj taskEq).symm⟩

theorem eraseMessage_eq (s : Server) (i j p : Nat) :
    s.eraseMessage i j p = { s with registry := (s.eraseMessage i j p).registry } := by
  unfold eraseMessage
  cases s.queue i j with
  | none => rfl
  | some queue =>
      simp only
      unfold setQueue
      cases s.line i <;> rfl

theorem unmoved_takeMessage (s : Server) (i j p : Nat) (message : Message) :
    Unmoved s (s.takeMessage i j p message) := by
  rw [takeMessage, eraseMessage_eq]
  exact ⟨rfl, rfl, rfl, rfl, rfl⟩

theorem messageAt_tasks (s : Server) (i j p : Nat) : s.messageAt i j p = (s.tasks i j)[p]? := by
  unfold messageAt
  cases found : s.queue i j with
  | none =>
      rw [tasks, Registry.tasks, ← queue_eq, found]
      rfl
  | some queue =>
      rw [tasks_of_queue found]
      rfl

end Server

namespace Routine

variable {env : Env} {c : ConnId} {i j : Nat} {s t : Server}

/-- The deques but one are as they were. -/
def Elsewhere (i j : Nat) (s t : Server) : Prop :=
  ∀ i' j', ¬(i' = i ∧ j' = j) → t.tasks i' j' = s.tasks i' j'

/-- The tasks after a scan of slot `i` that went through the loops of `before`
and stopped in loop `j`, where the passed tasks are `front`. -/
def scanned (s : Server) (c : ConnId) (i : Nat) (before : List Nat) (j : Nat)
    (front rest : List Message) (i' j' : Nat) : List Message :=
  if i' = i ∧ j' = j then front.filter (fun other => !s.gone c other) ++ rest
  else if i' = i ∧ j' ∈ before then (s.tasks i j').filter fun other => !s.gone c other
  else s.tasks i' j'

/-- The first task for the worker in the order of the loops, and what was passed
on the way there. -/
structure First (s : Server) (c : ConnId) (i : Nat) (before : List Nat) (j : Nat) (after : List Nat)
    (front : List Message) (message : Message) (back : List Message) : Prop where
  loops : loopOrder (s.conns c).nloop s.threads = before ++ j :: after
  earlier : ∀ j' ∈ before, ∀ other ∈ s.tasks i j', s.eligible c other = false
  tasks : s.tasks i j = front ++ message :: back
  passed : ∀ other ∈ front, s.eligible c other = false
  eligible : s.eligible c message = true

theorem nodup_loopOrder (own threads : Nat) : (loopOrder own threads).Nodup := by
  unfold loopOrder
  refine List.nodup_cons.mpr ⟨fun member => ?_, List.nodup_range.filter _⟩
  simpa using (List.mem_filter.mp member).2

/-- The worker is written the task and the task leaves its deque. -/
theorem give_first {message : Message} {p : Nat} {task : Task} (last : Bool)
    (found : s.messageAt i j p = some message) (taskEq : Server.asTask env s c message = some task) :
    (give env c i j p last).wp Action.apply unchecked
      (fun _ t => Wrote s c task t ∧ t.registry = (s.eraseMessage i j p).registry)
      (fun _ t => t.registry = (s.eraseMessage i j p).registry) s := by
  have performed : ∀ action, s.handed action = some (c, task) →
      action.writes s = [(s.eraseMessage i j p).registry] → ∀ result : Int,
      (perform action >>= fun _ => pure result : Routine Int).wp Action.apply unchecked
        (fun _ t => Wrote s c task t ∧ t.registry = (s.eraseMessage i j p).registry)
        (fun _ t => t.registry = (s.eraseMessage i j p).registry) s := by
    intro action handed writes result
    rw [wp_bind, wp_perform]
    refine ⟨trivial, ?_⟩
    have wrote := Server.handed_hands handed
    have wrotes := Server.apply_writes s action
    rw [writes] at wrotes
    cases applied : action.apply s with
    | returned t value =>
        rw [applied] at wrote wrotes
        exact ⟨wrote, List.mem_singleton.mp wrotes⟩
    | thrown t error =>
        rw [applied] at wrotes
        exact List.mem_singleton.mp wrotes
    | fault => trivial
  rw [give, wp_bind, wp_get]
  simp only [found]
  cases client : message.conn with
  | none =>
      rw [if_pos (show (none : Option ConnId).isNone = true from rfl)]
      refine performed _ ?_ rfl _
      unfold Server.asTask at taskEq
      rw [client] at taskEq
      obtain ⟨body, bodyEq, same⟩ := Option.map_eq_some_iff.mp taskEq
      simp only [Server.handed, found, bodyEq, Option.map_some, same]
  | some d =>
      rw [if_neg (by simp)]
      cases mode : (s.conns c).noid with
      | true =>
          rw [if_pos rfl]
          refine performed _ ?_ rfl _
          unfold Server.asTask at taskEq
          simp only [client, mode, ↓reduceIte, Option.some.injEq] at taskEq
          simp only [Server.handed, found, Option.bind_some, client, taskEq]
      | false =>
          rw [if_neg Bool.false_ne_true]
          refine performed _ ?_ rfl _
          obtain ⟨http, generated, idEq, _, same⟩ := Server.asTask_id taskEq client mode
          simp only [Server.handed, found, Option.bind_some, client, idEq, same]

end Routine

end Ijson
