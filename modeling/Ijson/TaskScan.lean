/-
The scan of `_add_worker` through the deques of tasks, one task after the other.

What becomes of a task can be told before the scan begins: it depends on the
state then and on the clients the scan has refused on the way to it.  The scan
does what this tells, or stops at the first client that has been deleted.
-/

import Ijson.References
import Ijson.TaskSelection

namespace Ijson

open Program

/-! ### What becomes of a task -/

/-- The exits `400 No Id` and `400 Collision Id`; `made` tells that the id had
been generated. -/
inductive Refusal where
  | noId
  | collision (made : Bool)
  deriving DecidableEq

def Refusal.response : Refusal → Response
  | .noId => ⟨"400 No Id", [], .code (-1)⟩
  | .collision _ => ⟨"400 Collision Id", [], .code (-1)⟩

/-- The status in which the client is left. -/
def Refusal.status : Refusal → Status
  | .noId => .busy
  | .collision _ => .net

/-- `other`: the task is for another worker.  `lost`: its client is gone. -/
inductive Fate where
  | other
  | lost
  | refused (refusal : Refusal)
  | given
  deriving DecidableEq

def Fate.refusal : Fate → Option Refusal
  | .refused refusal => some refusal
  | _ => none

/-- The task leaves its deque in the scan. -/
def Fate.goes : Fate → Bool
  | .lost => true
  | .refused _ => true
  | _ => false

/-- The tasks a scan has come to. -/
abbrev Scan := List (Message × Fate)

namespace Scan

/-- The clients that were refused. -/
def refused (scan : Scan) : List (ConnId × Refusal) :=
  scan.filterMap fun one => one.2.refusal.bind fun refusal => one.1.conn.map fun d => (d, refusal)

/-- How many ids were generated. -/
def made (scan : Scan) : Nat := scan.countP fun one => one.2 = .refused (.collision true)

/-- The tasks that were taken out. -/
def gone (scan : Scan) : List Message := (scan.filter fun one => one.2.goes).map Prod.fst

/-- The tasks that stay. -/
def left (scan : Scan) : List Message := (scan.filter fun one => !one.2.goes).map Prod.fst

/-- The clients the scan looks at. -/
def clients (scan : Scan) : List ConnId :=
  scan.filterMap fun one => if one.2 = .other then none else one.1.conn

/-- The task the scan stops at. -/
def given (scan : Scan) : Option Message := (scan.find? fun one => one.2 = .given).map Prod.fst

theorem given_self (message : Message) (scan : Scan) :
    Scan.given ((message, .given) :: scan) = some message := by
  simp [given]

theorem given_other {message : Message} {fate : Fate} (other : fate ≠ .given) (scan : Scan) :
    Scan.given ((message, fate) :: scan) = scan.given := by
  simp [given, other]

theorem given_append {scan : Scan} (nothing : scan.given = none) (more : Scan) :
    (scan ++ more : Scan).given = more.given := by
  unfold given at *
  rw [Option.map_eq_none_iff] at nothing
  rw [List.find?_append, nothing, Option.none_or]

theorem mem_refused {scan : Scan} {d : ConnId} {refusal : Refusal} :
    (d, refusal) ∈ scan.refused ↔ ∃ message, (message, .refused refusal) ∈ scan ∧ message.conn = some d := by
  unfold refused
  rw [List.mem_filterMap]
  constructor
  · rintro ⟨⟨message, fate⟩, member, isRefused⟩
    obtain ⟨found, isFound, client⟩ := Option.bind_eq_some_iff.mp isRefused
    obtain ⟨x, isClient, same⟩ := Option.map_eq_some_iff.mp client
    cases same
    cases fate with
    | refused other =>
        cases isFound
        exact ⟨message, member, isClient⟩
    | _ => cases isFound
  · rintro ⟨message, member, client⟩
    exact ⟨_, member, by simp [Fate.refusal, client]⟩

theorem mem_gone {scan : Scan} {message : Message} :
    message ∈ scan.gone ↔ ∃ fate, (message, fate) ∈ scan ∧ fate.goes = true := by
  unfold gone
  rw [List.mem_map]
  constructor
  · rintro ⟨⟨_, fate⟩, member, rfl⟩
    exact ⟨fate, List.mem_filter.mp member⟩
  · rintro ⟨fate, member, goes⟩
    exact ⟨_, List.mem_filter.mpr ⟨member, goes⟩, rfl⟩

theorem gone_left (scan : Scan) : (scan.gone ++ scan.left).Perm (scan.map Prod.fst) := by
  unfold gone left
  rw [← List.map_append]
  exact (List.filter_append_perm _ scan).map Prod.fst

section Append

variable (scan more : Scan)

@[simp] theorem clients_append : (scan ++ more : Scan).clients = scan.clients ++ more.clients :=
  List.filterMap_append

@[simp] theorem refused_append : (scan ++ more : Scan).refused = scan.refused ++ more.refused :=
  List.filterMap_append

@[simp] theorem made_append : (scan ++ more : Scan).made = scan.made + more.made := List.countP_append

theorem refused_cons (one : Message × Fate) : Scan.refused (one :: scan) = Scan.refused [one] ++ scan.refused :=
  refused_append [one] scan

theorem made_cons (one : Message × Fate) : Scan.made (one :: scan) = Scan.made [one] + scan.made :=
  made_append [one] scan

@[simp] theorem gone_append : (scan ++ more : Scan).gone = scan.gone ++ more.gone := by
  simp [gone]

@[simp] theorem left_append : (scan ++ more : Scan).left = scan.left ++ more.left := by
  simp [left]

end Append

end Scan

namespace Server

variable {s t u : Server} {env : Env} {c : ConnId} {i j : Nat}

/-- What becomes of a task behind the tasks of `before`. -/
def fate (env : Env) (s : Server) (c : ConnId) (before : Scan) (message : Message) : Fate :=
  if s.addressed c message then
    match message.conn with
    | none => .given
    | some d =>
        if !s.alive message || decide (d ∈ before.refused.map Prod.fst) then .lost
        else if (s.conns c).noid then .given
        else
          let index := s.generated + before.made
          match (s.conns d).http.requestId index (env.random index) with
          | .error _ => .refused .noId
          | .ok (http, made) => if (s.waiting http.id).isSome then .refused (.collision made) else .given
  else .other

theorem fate_mine {before : Scan} {message : Message} (mine : s.addressed c message = true) :
    fate env s c before message ≠ .other := by
  unfold fate
  rw [if_pos mine]
  cases message.conn with
  | none => simp
  | some d =>
      simp only
      split
      · simp
      · split
        · simp
        · split
          · simp
          · split <;> simp

/-- The tasks the scan comes to: all up to the first one that is given. -/
def scan (env : Env) (s : Server) (c : ConnId) (before : Scan) : List Message → Scan
  | [] => []
  | message :: rest =>
      let here := (message, fate env s c before message)
      here :: if here.2 = .given then [] else scan env s c (before ++ [here]) rest

/-- A scan goes on behind the tasks of which none was given. -/
theorem scan_append (env : Env) (s : Server) (c : ConnId) (before : Scan) (first second : List Message) :
    s.scan env c before (first ++ second) = s.scan env c before first ++
      if (s.scan env c before first).given = none then
        s.scan env c (before ++ s.scan env c before first) second
      else [] := by
  induction first generalizing before with
  | nil => simp [scan, Scan.given]
  | cons message first ih =>
      rw [List.cons_append, scan, scan]
      by_cases isGiven : fate env s c before message = .given
      · simp only [isGiven, if_true, Scan.given_self, reduceCtorEq, if_false, List.append_nil]
      · simp only [if_neg isGiven, ih, Scan.given_other isGiven, List.append_assoc,
          List.cons_append, List.nil_append]

/-- A scan that gives nothing has come to all tasks. -/
theorem scan_all {before : Scan} {tasks : List Message} (nothing : (s.scan env c before tasks).given = none) :
    (s.scan env c before tasks).map Prod.fst = tasks := by
  induction tasks generalizing before with
  | nil => rfl
  | cons message tasks ih =>
      rw [scan] at nothing ⊢
      by_cases isGiven : fate env s c before message = .given
      · simp only [isGiven, Scan.given_self, reduceCtorEq] at nothing
      · simp only [if_neg isGiven, List.map_cons, List.cons.injEq, true_and]
        refine ih ?_
        simpa only [if_neg isGiven, Scan.given_other isGiven] using nothing

/-- The tasks that stay are those of other workers and the one that is given. -/
theorem scan_left (env : Env) (s : Server) (c : ConnId) (before : Scan) (tasks : List Message) :
    ∃ front, (s.scan env c before tasks).left = front ++ (s.scan env c before tasks).given.toList ∧
      ∀ other ∈ front, s.addressed c other = false := by
  induction tasks generalizing before with
  | nil => exact ⟨[], rfl, List.forall_mem_nil _⟩
  | cons message tasks ih =>
      rw [scan]
      cases isFate : fate env s c before message with
      | given =>
          refine ⟨[], ?_, List.forall_mem_nil _⟩
          simp [Scan.left, Scan.given, Fate.goes]
      | other =>
          obtain ⟨front, left, others⟩ := ih (before ++ [(message, .other)])
          refine ⟨message :: front, ?_, List.forall_mem_cons.mpr ⟨?_, others⟩⟩
          · simp only [reduceCtorEq, if_false, Scan.given_other (show Fate.other ≠ .given by simp)]
            rw [List.cons_append, ← left]
            simp [Scan.left, Fate.goes]
          · by_contra mine
            exact fate_mine (by simpa using mine) isFate
      | lost =>
          obtain ⟨front, left, others⟩ := ih (before ++ [(message, .lost)])
          refine ⟨front, ?_, others⟩
          simp only [reduceCtorEq, if_false, Scan.given_other (show Fate.lost ≠ .given by simp)]
          rw [← left]
          simp [Scan.left, Fate.goes]
      | refused refusal =>
          obtain ⟨front, left, others⟩ := ih (before ++ [(message, .refused refusal)])
          refine ⟨front, ?_, others⟩
          simp only [reduceCtorEq, if_false, Scan.given_other (show Fate.refused refusal ≠ .given by simp)]
          rw [← left]
          simp [Scan.left, Fate.goes]

/-- Each task of a scan has the fate that those in front of it leave it. -/
theorem scan_member {before : Scan} {tasks : List Message} {one : Message × Fate}
    (member : one ∈ s.scan env c before tasks) : ∃ front back, s.scan env c before tasks = front ++ one :: back ∧
      one.2 = fate env s c (before ++ front) one.1 ∧ (one.2 = .given → back = []) := by
  induction tasks generalizing before with
  | nil => cases member
  | cons message tasks ih =>
      rw [scan] at member ⊢
      rcases List.mem_cons.mp member with rfl | later
      · refine ⟨[], _, rfl, by rw [List.append_nil], fun isGiven => if_pos isGiven⟩
      · by_cases isGiven : fate env s c before message = .given
        · rw [if_pos isGiven] at later
          cases later
        · simp only [if_neg isGiven] at later ⊢
          obtain ⟨front, back, split, isFate, last⟩ := ih later
          refine ⟨(message, fate env s c before message) :: front, back, ?_, ?_, last⟩
          · rw [split]
            rfl
          · simpa using isFate

/-- What a refusal says of the id of the client. -/
def Unusable (env : Env) (s : Server) (d : ConnId) : Refusal → Prop
  | .noId => ∃ index random error, (s.conns d).http.requestId index random = .error error
  | .collision made => ∃ index http, (s.conns d).http.requestId index (env.random index) = .ok (http, made) ∧
      (s.waiting http.id).isSome = true

theorem fate_lost {before : Scan} {message : Message} (isLost : fate env s c before message = .lost) :
    s.addressed c message = true ∧ ∃ d, message.conn = some d ∧
      (s.alive message = true → d ∈ before.refused.map Prod.fst) := by
  unfold fate at isLost
  split at isLost
  · rename_i mine
    cases client : message.conn with
    | none =>
        rw [client] at isLost
        cases isLost
    | some d =>
        simp only [client] at isLost
        split at isLost
        · rename_i dead
          refine ⟨mine, d, rfl, fun alive => ?_⟩
          simpa [alive] using dead
        · split at isLost
          · cases isLost
          · split at isLost
            · cases isLost
            · split at isLost <;> cases isLost
  · cases isLost

theorem fate_refused {before : Scan} {message : Message} {refusal : Refusal}
    (isRefused : fate env s c before message = .refused refusal) :
    s.addressed c message = true ∧ ∃ d, message.conn = some d ∧ d ∉ before.refused.map Prod.fst ∧
      s.alive message = true ∧ Unusable env s d refusal := by
  unfold fate at isRefused
  split at isRefused
  · rename_i mine
    cases client : message.conn with
    | none =>
        rw [client] at isRefused
        cases isRefused
    | some d =>
        simp only [client] at isRefused
        split at isRefused
        · cases isRefused
        · rename_i dead
          rw [Bool.or_eq_true, not_or, Bool.not_eq_true, Bool.not_eq_false', decide_eq_true_eq] at dead
          split at isRefused
          · cases isRefused
          · split at isRefused
            · rename_i error failed
              cases isRefused
              exact ⟨mine, d, rfl, dead.2, dead.1, _, _, error, failed⟩
            · rename_i http made named
              split at isRefused
              · rename_i used
                cases isRefused
                exact ⟨mine, d, rfl, dead.2, dead.1, _, http, named, used⟩
              · cases isRefused
  · cases isRefused

theorem fate_given {before : Scan} {message : Message} (isGiven : fate env s c before message = .given) :
    s.eligible c message = true ∧ ∀ d, message.conn = some d → d ∉ before.refused.map Prod.fst ∧
      ((s.conns c).noid = false → ∃ http made, (s.conns d).http.requestId (s.generated + before.made)
        (env.random (s.generated + before.made)) = .ok (http, made) ∧ s.waiting http.id = none) := by
  unfold fate at isGiven
  split at isGiven
  · rename_i mine
    cases client : message.conn with
    | none => exact ⟨by rw [eligible, mine, alive, client]; rfl, fun d isClient => by cases isClient⟩
    | some d =>
        simp only [client] at isGiven
        split at isGiven
        · cases isGiven
        · rename_i dead
          rw [Bool.or_eq_true, not_or, Bool.not_eq_true, Bool.not_eq_false', decide_eq_true_eq] at dead
          refine ⟨by rw [eligible, mine, dead.1]; rfl, fun x isClient => ?_⟩
          cases isClient
          refine ⟨dead.2, fun mode => ?_⟩
          rw [mode, if_neg Bool.false_ne_true] at isGiven
          split at isGiven
          · cases isGiven
          · rename_i http made named
            split at isGiven
            · cases isGiven
            · rename_i free
              exact ⟨http, made, named, by simpa using free⟩
  · cases isGiven

theorem scan_refused_nodup (env : Env) (s : Server) (c : ConnId) (before : Scan) (tasks : List Message)
    (distinct : (before.refused.map Prod.fst).Nodup) :
    ((before ++ s.scan env c before tasks : Scan).refused.map Prod.fst).Nodup := by
  induction tasks generalizing before with
  | nil => simpa [scan] using distinct
  | cons message tasks ih =>
      have one : ((before ++ [(message, fate env s c before message)] : Scan).refused.map Prod.fst).Nodup := by
        rw [Scan.refused_append, List.map_append]
        cases isFate : fate env s c before message with
        | refused refusal =>
            obtain ⟨-, d, client, never, -⟩ := fate_refused isFate
            refine List.Nodup.append distinct (by simp [Scan.refused, Fate.refusal, client]) ?_
            intro x old new
            have same : x = d := by simpa [Scan.refused, Fate.refusal, client] using new
            exact never (same ▸ old)
        | _ => simpa [Scan.refused, Fate.refusal] using distinct
      rw [scan]
      by_cases isGiven : fate env s c before message = .given
      · simpa only [if_pos isGiven] using one
      · simpa only [if_neg isGiven, List.append_assoc, List.cons_append, List.nil_append] using ih _ one

/-- The tasks a scan has come to stand in front of those it has not. -/
theorem scan_tasks (env : Env) (s : Server) (c : ConnId) (before : Scan) (tasks : List Message) :
    (s.scan env c before tasks).map Prod.fst ++ tasks.drop (s.scan env c before tasks).length = tasks := by
  induction tasks generalizing before with
  | nil => rfl
  | cons message tasks ih =>
      rw [scan]
      by_cases isGiven : fate env s c before message = .given
      · simp only [if_pos isGiven, List.map_cons, List.map_nil, List.length_singleton, List.drop_succ_cons,
          List.drop_zero, List.cons_append, List.nil_append]
      · simp only [if_neg isGiven, List.map_cons, List.length_cons, List.drop_succ_cons, List.cons_append, ih]

/-- A task that goes although its client waits has it refused. -/
theorem scan_gone_alive {tasks : List Message} {message : Message} (gone : message ∈ (s.scan env c [] tasks).gone)
    (alive : s.alive message = true) : ∃ d refusal, message.conn = some d ∧
      (d, refusal) ∈ (s.scan env c [] tasks).refused := by
  obtain ⟨fate, member, goes⟩ := Scan.mem_gone.mp gone
  obtain ⟨front, back, split, isFate, -⟩ := scan_member member
  cases fate with
  | lost =>
      obtain ⟨-, d, client, refused⟩ := fate_lost isFate.symm
      obtain ⟨⟨x, refusal⟩, entry, same⟩ := List.mem_map.mp (refused alive)
      simp only at same
      subst same
      refine ⟨x, refusal, client, ?_⟩
      rw [split, Scan.refused_append]
      exact List.mem_append_left _ entry
  | refused refusal =>
      obtain ⟨-, d, client, -⟩ := fate_refused isFate.symm
      exact ⟨d, refusal, client, Scan.mem_refused.mpr ⟨message, member, client⟩⟩
  | _ => cases goes

theorem scan_gone_addressed {tasks : List Message} {message : Message}
    (gone : message ∈ (s.scan env c [] tasks).gone) : s.addressed c message = true := by
  obtain ⟨fate, member, goes⟩ := Scan.mem_gone.mp gone
  obtain ⟨front, back, split, isFate, -⟩ := scan_member member
  cases fate with
  | lost => exact (fate_lost isFate.symm).1
  | refused refusal => exact (fate_refused isFate.symm).1
  | _ => cases goes

theorem scan_given {tasks : List Message} {message : Message} (given : (s.scan env c [] tasks).given = some message) :
    ∃ front, s.scan env c [] tasks = front ++ [(message, .given)] ∧ fate env s c front message = .given := by
  obtain ⟨⟨_, fate⟩, found, rfl⟩ := Option.map_eq_some_iff.mp given
  have isGiven : fate = .given := by simpa using List.find?_some found
  subst isGiven
  obtain ⟨front, back, split, isFate, last⟩ := scan_member (List.mem_of_find?_eq_some found)
  rw [last rfl] at split
  exact ⟨front, split, isFate.symm⟩

theorem scan_length_le (env : Env) (s : Server) (c : ConnId) (before : Scan) (tasks : List Message) :
    (s.scan env c before tasks).length ≤ tasks.length := by
  induction tasks generalizing before with
  | nil => exact Nat.le_refl 0
  | cons message tasks ih =>
      rw [scan, List.length_cons, List.length_cons]
      split
      · exact Nat.succ_le_succ (Nat.zero_le _)
      · exact Nat.succ_le_succ (ih _)

/-- The client after its refusal. -/
def refusedConn (s : Server) (d : ConnId) (refusal : Refusal) (id : Bytes) (json : Json) : Conn :=
  let conn := s.conns d
  { conn with
    http := { conn.http with id := id, json := json }
    status := refusal.status
    sendBuffer := conn.sendBuffer ++ refusal.response.head conn.keepAlive ++
      Response.tail s.jsonrpc2 refusal.response.payload
    writing := true }

/-- The answers to the refused clients. -/
def answers (s : Server) (refused : List (ConnId × Refusal)) : List Event :=
  refused.map fun one => .response one.1 (s.conns one.1).keepAlive one.2.response

/-- The scan of slot `i` is behind the tasks of `scan`. -/
structure Passed (s : Server) (i : Nat) (scan : Scan) (t : Server) : Prop where
  generated : t.generated = s.generated + scan.made
  log : t.log = s.log ++ s.answers scan.refused
  gc : t.gc = s.gc ++ scan.gone
  kept : ∀ d, d ∉ scan.refused.map Prod.fst → t.conns d = s.conns d
  refused : ∀ d refusal, (d, refusal) ∈ scan.refused →
    ∃ id json, t.conns d = s.refusedConn d refusal id json
  elsewhere : ∀ i' j', i' ≠ i → t.tasks i' j' = s.tasks i' j'
  fewer : ∀ i' j', (t.tasks i' j').Sublist (s.tasks i' j')
  deques : ∀ i' j', (t.queue i' j').isSome = (s.queue i' j').isSome
  rest : t = { s with
    conns := t.conns
    registry := t.registry
    generated := t.generated
    gc := t.gc
    log := t.log }

namespace Passed

theorem refl (s : Server) (i : Nat) : Passed s i [] s :=
  { generated := rfl
    log := (List.append_nil _).symm
    gc := (List.append_nil _).symm
    kept := fun _ _ => rfl
    refused := fun _ _ member => by cases member
    elsewhere := fun _ _ _ => rfl
    fewer := fun _ _ => List.Sublist.refl _
    deques := fun _ _ => rfl
    rest := rfl }

theorem stay {scan : Scan} (passed : Passed s i scan t) {one : Message × Fate} (quiet : one.2.refusal = none)
    (stays : one.2.goes = false) : Passed s i (scan ++ [one]) t := by
  have silent : Scan.refused [one] = [] := by simp [Scan.refused, quiet]
  have unmade : Scan.made [one] = 0 := by
    rw [Scan.made, List.countP_singleton, if_neg]
    intro isMade
    rw [decide_eq_true_eq] at isMade
    rw [isMade] at quiet
    cases quiet
  have same : (scan ++ [one] : Scan).refused = scan.refused := by
    rw [Scan.refused_append, silent, List.append_nil]
  refine { passed with generated := ?_, log := ?_, gc := ?_, kept := ?_, refused := ?_ }
  · rw [Scan.made_append, unmade, Nat.add_zero]
    exact passed.generated
  · rw [same]
    exact passed.log
  · rw [Scan.gone_append]
    simpa [Scan.gone, stays] using passed.gc
  · rw [same]
    exact passed.kept
  · rw [same]
    exact passed.refused

theorem conn {scan : Scan} (passed : Passed s i scan t) (x : ConnId) :
    ∃ id json status sendBuffer writing, t.conns x = { s.conns x with
      http := { (s.conns x).http with id := id, json := json }
      status := status
      sendBuffer := sendBuffer
      writing := writing } := by
  by_cases member : x ∈ scan.refused.map Prod.fst
  · obtain ⟨⟨d, refusal⟩, entry, rfl⟩ := List.mem_map.mp member
    obtain ⟨id, json, conn⟩ := passed.refused d refusal entry
    exact ⟨id, json, _, _, _, conn⟩
  · rw [passed.kept x member]
    exact ⟨_, _, _, _, _, rfl⟩

theorem worker {scan : Scan} (passed : Passed s i scan t) (x : ConnId) :
    (t.conns x).http.connectionId = (s.conns x).http.connectionId ∧ (t.conns x).noid = (s.conns x).noid ∧
      (t.conns x).nloop = (s.conns x).nloop ∧ (t.conns x).closed = (s.conns x).closed ∧
      (t.conns x).freed = (s.conns x).freed ∧ (t.conns x).link = (s.conns x).link := by
  obtain ⟨id, json, status, sendBuffer, writing, conn⟩ := passed.conn x
  rw [conn]
  exact ⟨rfl, rfl, rfl, rfl, rfl, rfl⟩

theorem waitResponse {scan : Scan} (passed : Passed s i scan t) : t.waitResponse = s.waitResponse := by
  rw [passed.rest]

theorem jsonrpc2 {scan : Scan} (passed : Passed s i scan t) : t.jsonrpc2 = s.jsonrpc2 := by
  rw [passed.rest]

theorem addressed {scan : Scan} (passed : Passed s i scan t) (message : Message) :
    t.addressed c message = s.addressed c message := by
  rw [Server.addressed, Server.addressed, (passed.worker c).1]

/-- A task is alive when it was, and its client has not been refused. -/
theorem alive {scan : Scan} (passed : Passed s i scan t) {message : Message} {d : ConnId}
    (client : message.conn = some d) :
    t.alive message = (s.alive message && !decide (d ∈ scan.refused.map Prod.fst)) := by
  unfold Server.alive
  simp only [client]
  by_cases member : d ∈ scan.refused.map Prod.fst
  · obtain ⟨⟨x, refusal⟩, entry, same⟩ := List.mem_map.mp member
    simp only at same
    subst same
    obtain ⟨id, json, conn⟩ := passed.refused x refusal entry
    have waits : ¬ (t.conns x).status = .clientWaitResult := by
      rw [conn]
      cases refusal <;> exact fun same => by cases same
    simp [waits, member]
  · rw [passed.kept d member]
    simp [member]

theorem trans {first second : Scan} (one : Passed s i first t) (two : Passed t i second u)
    (apart : ∀ d ∈ second.refused.map Prod.fst, d ∉ first.refused.map Prod.fst) :
    Passed s i (first ++ second) u := by
  have same : t.answers second.refused = s.answers second.refused := by
    refine List.map_congr_left fun pair member => ?_
    rw [one.kept pair.1 (apart _ (List.mem_map_of_mem member))]
  refine
    { generated := ?_
      log := ?_
      gc := ?_
      kept := fun d never => ?_
      refused := fun d refusal member => ?_
      elsewhere := fun i' j' other => (two.elsewhere i' j' other).trans (one.elsewhere i' j' other)
      fewer := fun i' j' => (two.fewer i' j').trans (one.fewer i' j')
      deques := fun i' j' => (two.deques i' j').trans (one.deques i' j')
      rest := ?_ }
  · rw [two.generated, one.generated, Scan.made_append, Nat.add_assoc]
  · rw [two.log, one.log, same, List.append_assoc, Scan.refused_append, answers, answers, answers, List.map_append]
  · rw [two.gc, one.gc, Scan.gone_append, List.append_assoc]
  · rw [Scan.refused_append, List.map_append, List.mem_append, not_or] at never
    rw [two.kept d never.2, one.kept d never.1]
  · rw [Scan.refused_append, List.mem_append] at member
    rcases member with old | new
    · have silent : d ∉ second.refused.map Prod.fst := fun again =>
        apart d again (List.mem_map_of_mem old)
      rw [two.kept d silent]
      exact one.refused d refusal old
    · have silent := apart d (List.mem_map_of_mem new)
      obtain ⟨id, json, conn⟩ := two.refused d refusal new
      refine ⟨id, json, ?_⟩
      rw [conn, refusedConn, refusedConn, one.kept d silent, one.jsonrpc2]
  · rw [two.rest, one.rest]

end Passed

/-! ### One task -/

section Exits

@[simp] theorem modify_jsonrpc2 (s : Server) (c : ConnId) (change : Conn → Conn) :
    (s.modify c change).jsonrpc2 = s.jsonrpc2 := rfl

/-- Taking the id of a request changes its id and the place in its JSON. -/
theorem requestId_keeps {http after : Http} {index random : Nat} {generated : Bool}
    (found : http.requestId index random = .ok (after, generated)) :
    after = { http with id := after.id, json := after.json } := by
  unfold Http.requestId at found
  split at found
  · cases found
    rfl
  · split at found
    · cases found
    · split at found <;> cases found <;> rfl

variable {p : Nat} {message : Message} {d : ConnId}

theorem eraseMessage_deques (t : Server) (i j p i' j' : Nat) :
    ((t.eraseMessage i j p).queue i' j').isSome = (t.queue i' j').isSome := by
  unfold eraseMessage
  cases live : t.queue i j with
  | none => rfl
  | some queue =>
      simp only
      rw [queue_eq, setQueue_queueAt live]
      by_cases same : i' = i ∧ j' = j
      · rw [if_pos same, same.1, same.2, live]
        rfl
      · rw [if_neg same]
        rfl

/-- The deques when one task has been taken out. -/
theorem erased_passes (t : Server) (i j p : Nat) {u : Server} (registry : u.registry = (t.eraseMessage i j p).registry) :
    (∀ i' j', i' ≠ i → u.tasks i' j' = t.tasks i' j') ∧ (∀ i' j', (u.tasks i' j').Sublist (t.tasks i' j')) ∧
      ∀ i' j', (u.queue i' j').isSome = (t.queue i' j').isSome := by
  have tasks : ∀ i' j', u.tasks i' j' = if i' = i ∧ j' = j then (t.tasks i j).eraseIdx p else t.tasks i' j' := by
    intro i' j'
    rw [Server.tasks, registry, eraseMessage_tasks]
  refine ⟨fun i' j' other => ?_, fun i' j' => ?_, fun i' j' => ?_⟩
  · rw [tasks, if_neg fun both => other both.1]
  · rw [tasks]
    by_cases same : i' = i ∧ j' = j
    · rw [if_pos same, same.1, same.2]
      exact List.eraseIdx_sublist _ _
    · rw [if_neg same]
  · have here := eraseMessage_deques t i j p i' j'
    rw [queue_eq] at here ⊢
    rw [registry]
    exact here

theorem lost_passes (t : Server) (i j p : Nat) (message : Message) :
    Passed t i [(message, .lost)] (t.takeMessage i j p message) := by
  obtain ⟨elsewhere, fewer, deques⟩ := erased_passes t i j p (u := t.takeMessage i j p message) rfl
  refine
    { generated := ?_
      log := ?_
      gc := rfl
      kept := fun d _ => by rw [takeMessage_conns]
      refused := fun _ _ member => by cases member
      elsewhere := elsewhere
      fewer := fewer
      deques := deques
      rest := ?_ }
  · rw [takeMessage, eraseMessage_eq]
    rfl
  · rw [takeMessage, eraseMessage_eq]
    exact (List.append_nil _).symm
  · rw [takeMessage, eraseMessage_eq]

/-- A client is refused: its task is taken out, its request read and the answer sent. -/
theorem refused_passes {refusal : Refusal} (http : Http) (client : message.conn = some d)
    (registry : u.registry = (t.eraseMessage i j p).registry) (gc : u.gc = t.gc ++ [message])
    (generated : u.generated = t.generated + if refusal = .collision true then 1 else 0)
    (log : u.log = t.log ++ [.response d (t.conns d).keepAlive refusal.response])
    (others : ∀ x, x ≠ d → u.conns x = t.conns x)
    (here : u.conns d = t.refusedConn d refusal http.id http.json)
    (rest : u = { t with
      conns := u.conns
      registry := u.registry
      generated := u.generated
      gc := u.gc
      log := u.log }) : Passed t i [(message, .refused refusal)] u := by
  obtain ⟨elsewhere, fewer, deques⟩ := erased_passes t i j p registry
  have turned : Scan.refused [(message, .refused refusal)] = [(d, refusal)] := by
    simp [Scan.refused, Fate.refusal, client]
  refine
    { generated := ?_
      log := ?_
      gc := gc
      kept := fun x never => ?_
      refused := fun x other member => ?_
      elsewhere := elsewhere
      fewer := fewer
      deques := deques
      rest := rest }
  · rw [generated, Scan.made, List.countP_singleton]
    simp
  · rw [log, turned]
    rfl
  · refine others x fun same => never ?_
    rw [turned, same]
    exact List.mem_cons_self
  · rw [turned, List.mem_singleton, Prod.mk.injEq] at member
    rw [member.1, member.2]
    exact ⟨http.id, http.json, here⟩

theorem refuseNoId_passes (found : t.messageAt i j p = some message) (client : message.conn = some d)
    (opened : (t.conns d).closed = false) :
    ∃ u, (Action.refuseNoId i j p).apply t = .returned u () ∧ Passed t i [(message, .refused .noId)] u ∧
      u.registry = (t.eraseMessage i j p).registry := by
  have same := takeMessage_conns t i j p message
  have unmoved := unmoved_takeMessage t i j p message
  have log : (t.takeMessage i j p message).log = t.log := by rw [takeMessage, eraseMessage_eq]
  simp only [Action.apply, refuseNoId, found, client]
  rw [send_open (by rw [modify_self, same, opened])]
  refine ⟨_, rfl, refused_passes (t.conns d).http client rfl rfl unmoved.generated ?_ (fun x other => ?_)
    ?_ ?_, rfl⟩
  · rw [sent, note_log, modify_log, modify_log, log, modify_self, same]
    rfl
  · rw [sent, note_conns, modify_conns, if_neg other, modify_conns, if_neg other, same]
  · rw [sent, note_conns, modify_self, modify_self, same, modify_jsonrpc2, unmoved.jsonrpc2]
    rfl
  · rw [takeMessage, eraseMessage_eq]
    rfl

theorem refuseCollision_passes {random : Nat} {http : Http} {made : Bool}
    (found : t.messageAt i j p = some message) (client : message.conn = some d)
    (opened : (t.conns d).closed = false)
    (named : (t.conns d).http.requestId t.generated random = .ok (http, made)) :
    ∃ u, (Action.refuseCollision i j p random).apply t = .returned u () ∧
      Passed t i [(message, .refused (.collision made))] u ∧ u.registry = (t.eraseMessage i j p).registry := by
  have same := takeMessage_conns t i j p message
  have unmoved := unmoved_takeMessage t i j p message
  have log : (t.takeMessage i j p message).log = t.log := by rw [takeMessage, eraseMessage_eq]
  have client' : http = { (t.conns d).http with id := http.id, json := http.json } := requestId_keeps named
  obtain ⟨v, taken, vEq⟩ := takeId_named (s := t.takeMessage i j p message) (d := d)
    (by rw [same, unmoved.generated, named])
  have vConns : ∀ x, v.conns x = if x = d then { t.conns d with http := http } else t.conns x := by
    intro x
    rw [vEq, modify_conns]
    simp only [same]
  simp only [Action.apply, refuseCollision, found, client, taken]
  rw [send_open (by rw [vConns, if_pos rfl]; exact opened)]
  have registry : v.registry = (t.eraseMessage i j p).registry := by
    rw [vEq]
    rfl
  have gc : v.gc = t.gc ++ [message] := by
    rw [vEq]
    rfl
  have protocol : v.jsonrpc2 = t.jsonrpc2 := by
    rw [vEq]
    exact unmoved.jsonrpc2
  have vLog : v.log = t.log := by
    rw [vEq]
    exact log
  refine ⟨_, rfl, refused_passes http client registry gc ?_ ?_ (fun x other => ?_) ?_ ?_, registry⟩
  · change v.generated = _
    rw [vEq]
    cases made with
    | true => exact congrArg (· + 1) unmoved.generated
    | false => exact unmoved.generated
  · rw [modify_log, sent, note_log, modify_log, vConns, if_pos rfl]
    rw [vLog]
    rfl
  · rw [modify_conns, if_neg other, sent, note_conns, modify_conns, if_neg other, vConns, if_neg other]
  · rw [modify_self, sent, note_conns, modify_self, vConns, if_pos rfl, refusedConn, ← client']
    rw [protocol]
    rfl
  · rw [vEq, takeMessage, eraseMessage_eq]
    rfl

end Exits

end Server

/-! ### One deque -/

namespace Routine

variable {env : Env} {c : ConnId} {i j : Nat} {s t u : Server}

/-- How a scan of the tasks `rest` of loop `j` ends: behind those of `scan`, at
the position of the one that is given. -/
structure Scanned (s : Server) (i j : Nat) (before scan : Scan) (kept rest : List Message) (t u : Server)
    (found : Option Nat) : Prop where
  passed : Server.Passed s i (before ++ scan) u
  elsewhere : Elsewhere i j t u
  left : u.tasks i j = kept ++ (scan.left ++ rest.drop scan.length)
  stands : found = scan.given.map fun _ => kept.length + scan.left.length - 1

/-- The scan does what can be told before, or meets a deleted client. -/
def Scans (s : Server) (i j : Nat) (before scan : Scan) (kept rest : List Message) (t : Server)
    (outcome : Outcome Server Exc (Option Nat)) : Prop :=
  (s.Kept scan.clients ∧ ∃ u found, outcome = .returned u found ∧ Scanned s i j before scan kept rest t u found) ∨
    ¬ s.Kept scan.clients ∧ outcome = .fault

/-- A task is taken out in front of the rest of the scan. -/
theorem Scans.goes {before scan : Scan} {kept rest : List Message} {one : Message × Fate}
    {outcome : Outcome Server Exc (Option Nat)} (goes : one.2.goes = true)
    (registry : u.registry = (t.eraseMessage i j kept.length).registry)
    (client : ∀ d, one.1.conn = some d → (s.conns d).freed = false)
    (later : Scans s i j (before ++ [one]) scan kept rest u outcome) :
    Scans s i j before (one :: scan) kept (one.1 :: rest) t outcome := by
  have mine : one.2 ≠ .other := by
    intro same
    rw [same] at goes
    cases goes
  have notGiven : one.2 ≠ .given := by
    intro same
    rw [same] at goes
    cases goes
  have looks : s.Kept (Scan.clients (one :: scan)) ↔ s.Kept scan.clients := by
    simp only [Scan.clients, List.filterMap_cons, if_neg mine]
    cases conn : one.1.conn with
    | none => rfl
    | some d =>
        rw [Server.Kept, List.forall_mem_cons]
        exact and_iff_right (client d conn)
  have taken : ∀ i' j', u.tasks i' j' =
      if i' = i ∧ j' = j then (t.tasks i j).eraseIdx kept.length else t.tasks i' j' := by
    intro i' j'
    rw [Server.tasks, registry, Server.eraseMessage_tasks]
  rcases later with ⟨kept', v, found, outcomeEq, scanned⟩ | ⟨notKept, outcomeEq⟩
  · refine .inl ⟨looks.mpr kept', v, found, outcomeEq, ?_⟩
    constructor
    · have passed := scanned.passed
      rw [List.append_assoc] at passed
      exact passed
    · intro i' j' other
      rw [scanned.elsewhere i' j' other, taken, if_neg other]
    · have left : Scan.left (one :: scan) = scan.left := by simp [Scan.left, goes]
      rw [scanned.left, left]
      rfl
    · have left : Scan.left (one :: scan) = scan.left := by simp [Scan.left, goes]
      rw [Scan.given_other notGiven, left]
      exact scanned.stands
  · exact .inr ⟨fun whole => notKept (looks.mp whole), outcomeEq⟩

/-- A task of another worker stays in front of the rest of the scan. -/
theorem Scans.stays {before scan : Scan} {kept rest : List Message} {message : Message}
    {outcome : Outcome Server Exc (Option Nat)}
    (later : Scans s i j (before ++ [(message, .other)]) scan (kept ++ [message]) rest t outcome) :
    Scans s i j before ((message, .other) :: scan) kept (message :: rest) t outcome := by
  have looks : Scan.clients ((message, .other) :: scan) = scan.clients := by simp [Scan.clients]
  rcases later with ⟨kept', v, found, outcomeEq, scanned⟩ | ⟨notKept, outcomeEq⟩
  · refine .inl ⟨by rw [looks]; exact kept', v, found, outcomeEq, ?_⟩
    constructor
    · have passed := scanned.passed
      rw [List.append_assoc] at passed
      exact passed
    · exact scanned.elsewhere
    · have left : Scan.left ((message, .other) :: scan) = message :: scan.left := by simp [Scan.left, Fate.goes]
      rw [scanned.left, left, List.append_assoc]
      rfl
    · have left : Scan.left ((message, .other) :: scan) = message :: scan.left := by simp [Scan.left, Fate.goes]
      have position := scanned.stands
      rw [List.length_append, List.length_singleton, Nat.add_assoc] at position
      rw [Scan.given_other (by simp), left, List.length_cons, Nat.add_comm scan.left.length]
      exact position
  · exact .inr ⟨by rw [looks]; exact notKept, outcomeEq⟩

theorem Scans.ended {before : Scan} {kept rest : List Message} (passed : Server.Passed s i before t)
    (empty : rest = []) (tasks : t.tasks i j = kept ++ rest) :
    Scans s i j before (s.scan env c before rest) kept rest t (.returned t none) := by
  subst empty
  refine .inl ⟨List.forall_mem_nil _, t, none, rfl, ?_, fun _ _ _ => rfl, ?_, rfl⟩
  · rw [Server.scan, List.append_nil]
    exact passed
  · rw [tasks]
    rfl

theorem Scans.stops {before : Scan} {kept rest : List Message} {message : Message}
    (passed : Server.Passed s i before t) (tasks : t.tasks i j = kept ++ message :: rest)
    (isGiven : s.fate env c before message = .given)
    (client : ∀ d, message.conn = some d → (s.conns d).freed = false) :
    Scans s i j before (s.scan env c before (message :: rest)) kept (message :: rest) t
      (.returned t (some kept.length)) := by
  have only : s.scan env c before (message :: rest) = [(message, .given)] := by
    rw [Server.scan]
    simp [isGiven]
  rw [only]
  refine .inl ⟨?_, t, some kept.length, rfl, passed.stay rfl rfl, fun _ _ _ => rfl, ?_, ?_⟩
  · intro x member
    have isClient : message.conn = some x := by simpa [Scan.clients] using member
    exact client x isClient
  · rw [tasks]
    simp [Scan.left, Fate.goes]
  · simp [Scan.given, Scan.left, Fate.goes]

theorem findMessage_scans (env : Env) (c : ConnId) (fuel : Nat) (kept rest : List Message) (before : Scan)
    {t : Server} (passed : Server.Passed s i before t) (tasks : t.tasks i j = kept ++ rest)
    (enough : rest.length ≤ fuel) :
    Scans s i j before (s.scan env c before rest) kept rest t
      ((findMessage env c i j fuel kept.length).outcome Action.apply t) := by
  induction fuel generalizing kept rest before t with
  | zero => exact Scans.ended passed (by simpa using enough) tasks
  | succ fuel ih =>
      rw [findMessage, get_outcome]
      have here : t.messageAt i j kept.length = rest.head? := by
        rw [Server.messageAt_tasks, tasks]
        cases rest <;> simp
      cases rest with
      | nil =>
          rw [here]
          exact Scans.ended passed rfl tasks
      | cons message rest =>
          have found : t.messageAt i j kept.length = some message := here
          have fewer : rest.length ≤ fuel := by
            rw [List.length_cons] at enough
            omega
          have fateEq : ∀ fate : Fate, s.fate env c before message = fate → fate ≠ .given →
              s.scan env c before (message :: rest) =
                (message, fate) :: s.scan env c (before ++ [(message, fate)]) rest := by
            rintro _ rfl other
            rw [Server.scan]
            simp only [if_neg other]
          rw [found]
          simp only
          cases mine : s.addressed c message with
          | false =>
              have test : (!message.requiredWorker.isEmpty &&
                  decide (message.requiredWorker ≠ (t.conns c).http.connectionId)) = true := by
                rw [(passed.worker c).1]
                simpa [Server.addressed] using mine
              have isOther : s.fate env c before message = .other := by simp [Server.fate, mine]
              rw [if_pos test, fateEq _ isOther (by simp)]
              have next := ih (kept ++ [message]) rest (before ++ [(message, .other)]) (passed.stay rfl rfl)
                (by simpa using tasks) fewer
              rw [List.length_append, List.length_singleton] at next
              exact Scans.stays next
          | true =>
              have test : ¬ (!message.requiredWorker.isEmpty &&
                  decide (message.requiredWorker ≠ (t.conns c).http.connectionId)) = true := by
                rw [(passed.worker c).1]
                simpa [Server.addressed, or_iff_not_imp_left] using mine
              have stops : s.fate env c before message = .given →
                  (∀ d, message.conn = some d → (s.conns d).freed = false) →
                  Scans s i j before (s.scan env c before (message :: rest)) kept (message :: rest) t
                    (.returned t (some kept.length)) := fun isGiven live => Scans.stops passed tasks isGiven live
              rw [if_neg test]
              cases client : message.conn with
              | none =>
                  refine stops (by simp [Server.fate, mine, client]) fun d isClient => ?_
                  rw [client] at isClient
                  cases isClient
              | some d =>
                  have goesOn : ∀ {fate : Fate} {action : Action} {u : Server}, s.fate env c before message = fate →
                      fate.goes = true → action.apply t = .returned u () → (s.conns d).freed = false →
                      Server.Passed t i [(message, fate)] u →
                      u.registry = (t.eraseMessage i j kept.length).registry →
                      (∀ x ∈ Scan.refused [(message, fate)] |>.map Prod.fst, x ∉ before.refused.map Prod.fst) →
                      Scans s i j before (s.scan env c before (message :: rest)) kept (message :: rest) t
                        ((perform action >>= fun _ => findMessage env c i j fuel kept.length).outcome Action.apply t) := by
                    intro fate action u isFate goes applied live passes registry apart
                    have other : fate ≠ .given := by
                      intro same
                      rw [same] at goes
                      cases goes
                    have left : u.tasks i j = kept ++ rest := by
                      rw [Server.tasks, registry, Server.eraseMessage_tasks, if_pos ⟨rfl, rfl⟩, tasks]
                      simp [List.eraseIdx_append_of_length_le]
                    rw [fateEq fate isFate other, perform_outcome applied]
                    refine Scans.goes goes registry (fun x isClient => ?_)
                      (ih kept rest _ (passed.trans passes apart) left fewer)
                    rw [client, Option.some.injEq] at isClient
                    rw [← isClient]
                    exact live
                  simp only
                  rw [use_outcome, (passed.worker d).2.2.2.2.1]
                  cases freed : (s.conns d).freed with
                  | true =>
                      refine .inr ⟨fun whole => ?_, rfl⟩
                      have looks : d ∈ (s.scan env c before (message :: rest)).clients := by
                        rw [Server.scan, Scan.clients, List.filterMap_cons, if_neg (Server.fate_mine mine), client]
                        exact List.mem_cons_self
                      rw [whole d looks] at freed
                      cases freed
                  | false =>
                      rw [if_neg Bool.false_ne_true]
                      have lives := passed.alive client
                      cases alive : t.alive message with
                      | false =>
                          have lost : ((t.conns d).closed || decide ((t.conns d).status ≠ .clientWaitResult)) =
                              true := by
                            rw [Server.alive, client] at alive
                            cases closed : (t.conns d).closed with
                            | true => rfl
                            | false => simpa [closed] using alive
                          have isLost : s.fate env c before message = .lost := by
                            have dead : (!s.alive message || decide (d ∈ before.refused.map Prod.fst)) = true := by
                              rw [alive] at lives
                              cases was : s.alive message with
                              | false => rfl
                              | true => simpa [was] using lives
                            simp only [Server.fate, mine, client, dead, if_true]
                          rw [if_pos lost]
                          have applied : (Action.dropMessage i j kept.length).apply t =
                              .returned (t.takeMessage i j kept.length message) () := by
                            simp only [Action.apply, found]
                          exact goesOn isLost rfl applied freed (Server.lost_passes t i j kept.length message) rfl
                            (List.forall_mem_nil _)
                      | true =>
                          obtain ⟨was, never⟩ : s.alive message = true ∧ d ∉ before.refused.map Prod.fst := by
                            simpa [alive] using lives.symm
                          have same := passed.kept d never
                          have open_waiting : (t.conns d).closed = false ∧
                              (t.conns d).status = .clientWaitResult := by
                            simpa [Server.alive, client] using alive
                          have waits : ¬ ((t.conns d).closed || decide ((t.conns d).status ≠ .clientWaitResult)) =
                              true := by simp [open_waiting]
                          have dead : ¬ (!s.alive message || decide (d ∈ before.refused.map Prod.fst)) = true := by
                            simp [was, never]
                          have apart : ∀ refusal, ∀ x ∈ (Scan.refused [(message, .refused refusal)]).map Prod.fst,
                              x ∉ before.refused.map Prod.fst := by
                            intro refusal x member
                            have isClient : x = d := by simpa [Scan.refused, Fate.refusal, client] using member
                            rw [isClient]
                            exact never
                          rw [if_neg waits, (passed.worker c).2.1]
                          cases mode : (s.conns c).noid with
                          | true =>
                              refine stops ?_ fun x isClient => ?_
                              · simp only [Server.fate, mine, client, mode, if_true, if_neg dead]
                              · rw [client, Option.some.injEq] at isClient
                                rw [← isClient]
                                exact freed
                          | false =>
                              rw [if_neg Bool.false_ne_true]
                              cases named : (t.conns d).http.requestId t.generated (env.random t.generated) with
                              | error error =>
                                  have untaken : t.takeId d (env.random t.generated) = none := by
                                    unfold Server.takeId
                                    rw [named]
                                  have isNoId : s.fate env c before message = .refused .noId := by
                                    rw [same, passed.generated] at named
                                    simp only [Server.fate, mine, client, mode, if_true, if_neg dead, named,
                                      Bool.false_eq_true, if_false]
                                  obtain ⟨u, applied, passes, registry⟩ :=
                                    Server.refuseNoId_passes found client open_waiting.1
                                  simp only [untaken]
                                  exact goesOn isNoId rfl applied freed passes registry (apart _)
                              | ok result =>
                                  obtain ⟨http, made⟩ := result
                                  obtain ⟨v, taken, -⟩ := Server.takeId_named named
                                  have waiting : t.waiting http.id = s.waiting http.id := by
                                    rw [Server.waiting, Server.waiting, passed.waitResponse]
                                  have namedBefore := named
                                  rw [same, passed.generated] at namedBefore
                                  simp only [taken, waiting]
                                  cases used : (s.waiting http.id).isSome with
                                  | true =>
                                      have isCollision : s.fate env c before message =
                                          .refused (.collision made) := by
                                        simp only [Server.fate, mine, client, mode, if_true, if_neg dead,
                                          namedBefore, used, Bool.false_eq_true, if_false]
                                      obtain ⟨u, applied, passes, registry⟩ :=
                                        Server.refuseCollision_passes found client open_waiting.1 named
                                      simp only [if_true]
                                      exact goesOn isCollision rfl applied freed passes registry (apart _)
                                  | false =>
                                      refine stops ?_ fun x isClient => ?_
                                      · simp only [Server.fate, mine, client, mode, if_true, if_neg dead,
                                          namedBefore, used, Bool.false_eq_true, if_false]
                                      · rw [client, Option.some.injEq] at isClient
                                        rw [← isClient]
                                        exact freed

/-! ### The deques of a slot -/

/-- All tasks left in the deque are for other workers. -/
def Spent (t : Server) (c : ConnId) (i j : Nat) : Prop := ∀ other ∈ t.tasks i j, t.addressed c other = false

/-- The scan went through the loops in order and stopped at the first task left
that is for the worker, or at none when there is no more. -/
def StandsAt (t : Server) (c : ConnId) (i : Nat) (loops : List Nat) (given : Option Message) :
    Option (Nat × Nat) → Prop
  | none => given = none ∧ ∀ j ∈ loops, Spent t c i j
  | some (j, p) => ∃ message before after front back, given = some message ∧ loops = before ++ j :: after ∧
      (∀ j' ∈ before, Spent t c i j') ∧ t.tasks i j = front ++ message :: back ∧ p = front.length ∧
      ∀ other ∈ front, t.addressed c other = false

/-- The first loop in whose deque a task is given. -/
def stop (env : Env) (s : Server) (c : ConnId) (i : Nat) (before : Scan) : List Nat → Option Nat
  | [] => none
  | j :: loops =>
      let here := s.scan env c before (s.tasks i j)
      if here.given.isSome then some j else stop env s c i (before ++ here) loops

/-- How the scan of slot `i` ends that began at `s`, behind the tasks of `scan`. -/
structure SlotScanned (s : Server) (c : ConnId) (i : Nat) (loops : List Nat) (before scan : Scan) (last : Option Nat)
    (t u : Server) (found : Option (Nat × Nat)) : Prop where
  passed : Server.Passed s i (before ++ scan) u
  elsewhere : ∀ i' j', j' ∉ loops → u.tasks i' j' = t.tasks i' j'
  left : loops.flatMap (u.tasks i) = scan.left ++ (loops.flatMap (s.tasks i)).drop scan.length
  stands : StandsAt u c i loops scan.given found
  stops : found.map Prod.fst = last

/-- The scan does what can be told before, or meets a deleted client. -/
def SlotScans (s : Server) (c : ConnId) (i : Nat) (loops : List Nat) (before scan : Scan) (last : Option Nat)
    (t : Server) (outcome : Outcome Server Exc (Option (Nat × Nat))) : Prop :=
  (s.Kept scan.clients ∧ ∃ u found, outcome = .returned u found ∧
    SlotScanned s c i loops before scan last t u found) ∨
    ¬ s.Kept scan.clients ∧ outcome = .fault

/-- What is left of a deque that was gone through. -/
theorem Scanned.spent {before : Scan} {u : Server} {found : Option Nat}
    (scanned : Scanned s i j before (s.scan env c before (s.tasks i j)) [] (s.tasks i j) t u found)
    (nothing : (s.scan env c before (s.tasks i j)).given = none) : Spent u c i j := by
  obtain ⟨front, left, others⟩ := Server.scan_left env s c before (s.tasks i j)
  have whole : (s.scan env c before (s.tasks i j)).length = (s.tasks i j).length := by
    rw [← congrArg List.length (Server.scan_all nothing), List.length_map]
  intro other member
  rw [scanned.left, left, nothing, whole, List.drop_length] at member
  rw [scanned.passed.addressed]
  exact others other (by simpa using member)

theorem findMessageIn_scans (env : Env) (c : ConnId) (loops : List Nat) (distinct : loops.Nodup)
    (deques : ∀ j ∈ loops, (s.queue i j).isSome = true) (before : Scan) {t : Server}
    (passed : Server.Passed s i before t) (tasks : ∀ j ∈ loops, t.tasks i j = s.tasks i j) :
    SlotScans s c i loops before (s.scan env c before (loops.flatMap (s.tasks i))) (stop env s c i before loops) t
      ((findMessageIn env c i loops).outcome Action.apply t) := by
  induction loops generalizing before t with
  | nil =>
      refine .inl ⟨List.forall_mem_nil _, t, none, rfl, ?_, fun _ _ _ => rfl, rfl, ⟨rfl, List.forall_mem_nil _⟩, rfl⟩
      rw [List.flatMap_nil, Server.scan, List.append_nil]
      exact passed
  | cons j loops ih =>
      rw [List.nodup_cons] at distinct
      obtain ⟨queue, live⟩ : ∃ queue, t.queue i j = some queue := by
        rw [← Option.isSome_iff_exists, passed.deques]
        exact deques j List.mem_cons_self
      have enough : (s.tasks i j).length ≤ queue.clients.length := by
        rw [← tasks j List.mem_cons_self, Server.tasks_of_queue live]
      have one := findMessage_scans env c queue.clients.length [] (s.tasks i j) before passed
        (tasks j List.mem_cons_self) enough
      rw [findMessageIn, get_outcome]
      simp only [live]
      rw [outcome_bind, List.flatMap_cons, Server.scan_append]
      rcases one with ⟨kept, u, found, ran, scanned⟩ | ⟨deleted, ran⟩
      · change (findMessage env c i j queue.clients.length 0).outcome Action.apply t = _ at ran
        rw [ran]
        have others : ∀ j' ∈ loops, u.tasks i j' = s.tasks i j' := by
          intro j' member
          have apart : ¬(i = i ∧ j' = j) := by
            rintro ⟨-, rfl⟩
            exact distinct.1 member
          rw [scanned.elsewhere i j' apart, tasks j' (List.mem_cons_of_mem j member)]
        have outside : ∀ i' j', j' ≠ j → u.tasks i' j' = t.tasks i' j' :=
          fun i' j' other => scanned.elsewhere i' j' fun both => other both.2
        have here : u.tasks i j = _ := scanned.left
        cases isGiven : (s.scan env c before (s.tasks i j)).given with
        | some message =>
            obtain ⟨front, left, passedOver⟩ := Server.scan_left env s c before (s.tasks i j)
            have position := scanned.stands
            rw [isGiven, Option.toList_some] at left
            rw [isGiven, left] at position
            have short := Server.scan_length_le env s c before (s.tasks i j)
            rw [if_neg (by simp), List.append_nil, position]
            refine .inl ⟨kept, u, _, rfl, scanned.passed, fun i' j' notIn => ?_, ?_, ?_, ?_⟩
            · rw [List.mem_cons, not_or] at notIn
              exact outside i' j' notIn.1
            · rw [List.flatMap_cons, List.flatMap_cons, here, List.flatMap_congr others, List.nil_append,
                List.append_assoc, List.drop_append_of_le_length short]
            · refine ⟨message, [], loops, front, (s.tasks i j).drop (s.scan env c before (s.tasks i j)).length, isGiven,
                rfl, List.forall_mem_nil _, ?_, ?_, fun other member => ?_⟩
              · rw [here, left, List.nil_append, List.append_assoc]
                rfl
              · simp
              · rw [scanned.passed.addressed]
                exact passedOver other member
            · simp only [stop, isGiven, Option.isSome_some, if_true, Option.map_some]
        | none =>
            have whole := Server.scan_all isGiven
            have whole : (s.scan env c before (s.tasks i j)).length = (s.tasks i j).length := by
              have length := congrArg List.length whole
              rwa [List.length_map] at length
            have nothing : found = none := by
              rw [scanned.stands, isGiven]
              rfl
            have spent := Scanned.spent scanned isGiven
            have onward : stop env s c i before (j :: loops) =
                stop env s c i (before ++ s.scan env c before (s.tasks i j)) loops := by
              simp only [stop, isGiven, Option.isSome_none, Bool.false_eq_true, if_false]
            rw [if_pos rfl, nothing, onward]
            have later := ih distinct.2 (fun j' member => deques j' (List.mem_cons_of_mem j member))
              (before ++ s.scan env c before (s.tasks i j)) scanned.passed others
            generalize s.scan env c before (s.tasks i j) = first at *
            generalize s.scan env c (before ++ first) (loops.flatMap (s.tasks i)) = second at later
            have looks : s.Kept (first ++ second : Scan).clients ↔ s.Kept second.clients := by
              rw [Scan.clients_append, Server.Kept, List.forall_mem_append]
              exact and_iff_right kept
            rcases later with ⟨kept', v, place, ran', passed', elsewhere, left, stands, stops⟩ | ⟨deleted, ran'⟩
            · have same : v.tasks i j = u.tasks i j := elsewhere i j distinct.1
              have spentNow : Spent v c i j := by
                intro other member
                rw [same] at member
                have before := spent other member
                rw [scanned.passed.addressed] at before
                rw [passed'.addressed]
                exact before
              refine .inl ⟨looks.mpr kept', v, place, ran', ?_, fun i' j' notIn => ?_, ?_, ?_, stops⟩
              · rw [← List.append_assoc]
                exact passed'
              · rw [List.mem_cons, not_or] at notIn
                rw [elsewhere i' j' notIn.2, outside i' j' notIn.1]
              · rw [List.flatMap_cons, List.flatMap_cons, same, here, left, whole, List.drop_length, List.append_nil,
                  List.nil_append, Scan.left_append, List.append_assoc, List.length_append, whole, List.drop_length_add_append]
              · rw [Scan.given_append isGiven]
                cases place with
                | none => exact ⟨stands.1, List.forall_mem_cons.mpr ⟨spentNow, stands.2⟩⟩
                | some place =>
                    obtain ⟨message, earlier, after, front, back, given, loopsEq, spents, rest⟩ := stands
                    exact ⟨message, j :: earlier, after, front, back, given, by rw [loopsEq]; rfl,
                      List.forall_mem_cons.mpr ⟨spentNow, spents⟩, rest⟩
            · exact .inr ⟨fun whole => deleted (looks.mp whole), ran'⟩
      · change (findMessage env c i j queue.clients.length 0).outcome Action.apply t = _ at ran
        rw [ran]
        refine .inr ⟨fun whole => deleted fun x member => whole x ?_, rfl⟩
        rw [Scan.clients_append]
        exact List.mem_append_left _ member

end Routine

end Ijson
