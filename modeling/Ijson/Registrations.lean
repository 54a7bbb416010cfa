/-
Where workers are registered.

Only `_add_worker` appends to a deque of workers.  The walk through the code
shows that there is no other place; `free` is what is known of all other
actions.
-/

import Ijson.Homes
import Ijson.Disconnects
import Ijson.Machine
import Ijson.Recording

namespace Ijson

open Program

/-- A new entry in a deque, and a new connection. -/
def Action.places : Action → Bool
  | .accept _ _ => true
  | .register _ _ => true
  | _ => false

/-- All others. -/
def Action.serves (action : Action) : Bool := !action.places && !action.parses

/-- The queue a client's request goes to, where an action of it changes that queue. -/
def Action.claims : Action → Option Nat
  | .dropEntry i _ _ => some i
  | .handAsync _ i _ _ _ => some i
  | .handNoid _ i _ _ _ => some i
  | .handId _ i _ _ _ _ => some i
  | .undoNoId _ i _ _ => some i
  | .undoCollision _ i _ _ _ => some i
  | .enqueueSync _ i _ => some i
  | .enqueueAsync _ i _ => some i
  | _ => none

/-- The queue a message is published to, where an action of `pub` names it. -/
def Action.publishes : Action → Option Nat
  | .newDirect i _ _ => some i
  | .publishClaim i _ _ => some i
  | .publishPush i _ _ => some i
  | _ => none

/-- A task is taken out of a deque without being handed to the worker. -/
def Action.passes : Action → Bool
  | .dropMessage _ _ _ => true
  | .refuseNoId _ _ _ => true
  | .refuseCollision _ _ _ _ => true
  | _ => false

theorem Action.claims_serves {action : Action} {i : Nat} (claims : action.claims = some i) :
    action.serves = true := by
  cases action with
  | dropEntry | handAsync | handNoid | handId | undoNoId | undoCollision | enqueueSync | enqueueAsync => rfl
  | _ => cases claims

theorem Action.publishes_serves {action : Action} {i : Nat} (publishes : action.publishes = some i) :
    action.serves = true := by
  cases action with
  | newDirect | publishClaim | publishPush => rfl
  | _ => cases publishes

theorem Action.passes_serves {action : Action} (passes : action.passes = true) : action.serves = true := by
  cases action with
  | dropMessage | refuseNoId | refuseCollision => rfl
  | _ => cases passes

/-- The header an edit that takes these bytes reads, if it reads one. -/
def Http.headerIn (http : Http) (taken : Bytes) : Option Header :=
  if http.step = .header then
    match Header.read (rstrip taken) with
    | .ok header => some header
    | .error _ => none
  else none

theorem Http.headerIn_nil (http : Http) (value : Int) : http.headerIn [] ≠ some (.timeout value) := by
  unfold Http.headerIn
  split
  · exact fun same => by cases same
  · exact fun same => by cases same

/-- A worker that waits beyond its deadline, as `_check_timeout` tells it. -/
def Conn.overdue (conn : Conn) (now : Nat) : Bool :=
  conn.http.ping ≠ 0 && conn.http.pingTimeout ≤ now && !conn.closed && conn.status = .workerWaitJob

/-- An assignment of a handler: not one to the name of the connection, and to the id
only the member `id` that was just read. -/
def Http.Assigns (http after : Http) : Prop :=
  after.connectionId = http.connectionId ∧
    (after.id = http.id ∨ http.json.key = ascii "id" ∧ after.id = http.json.value)

/-- What serving a request may do anywhere: an assignment to a field of the request
is not one to its input or its deadline. -/
structure Routine.Frees (guard : Action → Server → Prop) : Prop where
  plain : ∀ action : Action, action.serves = true → ∀ s, guard action s
  edit : ∀ c change, (∀ http : Http, (change http).intake = http.intake) →
    (∀ http : Http, (change http).deadline = http.deadline) →
    ∀ s, (s.conns c).http.Assigns (change (s.conns c).http) → guard (.edit c [] change) s

/-- The connection an action takes or drops a reference for without finding it in a
table. -/
def Action.bearer : Action → Option ConnId
  | .begin c _ _ => some c
  | .retire c => some c
  | .postNoid c => some c
  | .giveNoid c _ _ _ => some c
  | .giveId c _ _ _ _ => some c
  | .register c _ => some c
  | .subscribe c _ _ => some c
  | .handNoid c _ _ _ _ => some c
  | .handId c _ _ _ _ _ => some c
  | .enqueueSync c _ _ => some c
  | .failNoid c => some c
  | .releaseClient c => some c
  | _ => none

/-- The same, `c` where there is none, and nothing where a connection is let go. -/
def Action.holder (c : ConnId) : Action → Option ConnId
  | .retire _ => none
  | action => some (action.bearer.getD c)

/-- What serving a request of `c` may do: it holds references for no other connection,
and does not let `c` go. -/
structure Routine.Attends (c : ConnId) (guard : Action → Server → Prop) : Prop where
  plain : ∀ action : Action, action.serves = true → action.holder c = some c → ∀ s, guard action s
  edit : ∀ change, (∀ http : Http, (change http).intake = http.intake) →
    (∀ http : Http, (change http).deadline = http.deadline) →
    ∀ s, (s.conns c).http.Assigns (change (s.conns c).http) → guard (.edit c [] change) s

theorem Routine.Frees.attends {guard : Action → Server → Prop} (free : Frees guard) (c : ConnId) : Attends c guard where
  plain := fun action serves _ => free.plain action serves
  edit := free.edit c

theorem Action.publishes_holder {action : Action} {i : Nat} {c : ConnId} (publishes : action.publishes = some i) :
    action.holder c = some c := by
  cases action with
  | newDirect | publishClaim | publishPush => rfl
  | _ => cases publishes

theorem Action.passes_holder {action : Action} {c : ConnId} (passes : action.passes = true) :
    action.holder c = some c := by
  cases action with
  | dropMessage | refuseNoId | refuseCollision => rfl
  | _ => cases passes

/-- What the parser may do to its connection: only a header sets the deadline. -/
structure Routine.Parses (guard : Action → Server → Prop) (env : Env) (c : ConnId) : Prop where
  plain : ∀ action : Action, action.reader = some c → (∀ taken change, action ≠ .edit c taken change) →
    ∀ s, guard action s
  edit : ∀ taken change s, (∀ http : Http, ((change http).deadline, (change http).labels) =
      (http.deadline, http.labels)) →
    (∀ value, (s.conns c).http.headerIn taken ≠ some (.timeout value)) → guard (.edit c taken change) s
  header : ∀ taken header place start s, (s.conns c).http.headerIn taken = some header →
    guard (.edit c taken fun _ => (s.conns c).http.store (env.now s.tick) place start header) s

/-- The deadline is moved when bytes arrive. -/
def Action.ping (env : Env) (c : ConnId) (s : Server) : Action :=
  .edit c [] fun http => { http with pingTimeout := u32 (env.now s.tick + (s.conns c).http.ping) }

namespace Routine

variable {guard : Action → Server → Prop} {env : Env} {c : ConnId}

/-- The actions of the routine meet the guard wherever it is started. -/
abbrev Heeds {α : Type} (guard : Action → Server → Prop) (routine : Routine α) : Prop :=
  Program.Heeds Action.apply guard routine

theorem use_heeds (d : ConnId) : Heeds guard (use d) := by
  refine heeds_look fun s => ?_
  split
  · exact heeds_fault
  · exact heeds_pure _

theorem useAll_heeds (workers : List ConnId) : Heeds guard (useAll workers) := by
  induction workers with
  | nil => exact heeds_pure _
  | cons w rest ih => exact (use_heeds w).bind fun _ => ih

theorem guardLine_heeds (i : Nat) : Heeds guard (guardLine i) := by
  refine heeds_look fun s => ?_
  cases s.line i with
  | none => exact heeds_fault
  | some line =>
      simp only
      split
      · exact heeds_fault
      · exact heeds_pure _

theorem option_heeds (c : ConnId) : Heeds guard (option c) := by
  refine heeds_look fun s => ?_
  simp only
  cases (s.conns c).http.headerOption with
  | none => exact heeds_pure _
  | some view =>
      simp only
      cases view.place with
      | array => exact heeds_pure _
      | block number =>
          simp only
          split
          · exact heeds_pure _
          · exact heeds_fault

theorem eachDeque_heeds {visit : Nat → Nat → Queue → Routine Unit}
    (visited : ∀ i j queue, Heeds guard (visit i j queue)) (deques : List (Nat × Nat)) :
    Heeds guard (eachDeque visit deques) := by
  induction deques with
  | nil => exact heeds_pure _
  | cons deque deques ih =>
      obtain ⟨i, j⟩ := deque
      rw [eachDeque]
      refine heeds_look fun s => ?_
      extract_lets next
      have later : ∀ u, Heeds guard (next u) := fun _ => ih
      cases s.queue i j with
      | none => exact later ()
      | some queue => exact (visited i j queue).bind later

theorem Parses.free {guard : Action → Server → Prop} {c : ConnId}
    (parsed : ∀ action : Action, action.reader = some c → ∀ s, guard action s) : Parses guard env c where
  plain := fun action reads _ => parsed action reads
  edit := fun taken change s _ _ => parsed (.edit c taken change) rfl s
  header := fun taken _ _ _ s _ => parsed (.edit c taken _) rfl s

theorem keepRest_heeds (parses : Parses guard env c) (cursor : Cursor) : Heeds guard (keepRest c cursor) := by
  have stores : ∀ buffer : Http → Buffer, Heeds guard (perform (.edit c [] fun http =>
      { http with buffer := buffer http })) := fun buffer =>
    heeds_perform fun s => parses.edit _ _ s (fun _ => by rfl) (Http.headerIn_nil _)
  refine heeds_look fun s => ?_
  cases cursor.place with
  | array => exact stores _
  | block number =>
      cases (s.conns c).http.buffer.addOwn cursor.data with
      | none => exact heeds_fault
      | some buffer => exact stores _

section Claims

variable {i : Nat} (claimed : ∀ action : Action, action.claims = some i → action.holder c = some c →
  ∀ s, guard action s)

include claimed

theorem findWorker_claims (j : Nat) (required : Bytes) (fuel p : Nat) :
    Heeds guard (findWorker i j required fuel p) := by
  induction fuel generalizing p with
  | zero => exact heeds_pure _
  | succ fuel ih =>
      rw [findWorker]
      refine heeds_look fun s => ?_
      cases s.workerAt i j p with
      | none => exact heeds_pure _
      | some w =>
          refine (use_heeds w).bind fun worker => ?_
          split
          · exact ih (p + 1)
          · split
            · exact (heeds_perform (claimed _ rfl rfl)).bind fun _ => ih p
            · exact heeds_pure _

theorem findWorkerIn_claims (required : Bytes) (loops : List Nat) :
    Heeds guard (findWorkerIn i required loops) := by
  induction loops with
  | nil => exact heeds_pure _
  | cons j loops ih =>
      rw [findWorkerIn]
      refine heeds_look fun s => ?_
      cases s.queue i j with
      | none => exact heeds_fault
      | some queue =>
          refine (findWorker_claims claimed j required _ 0).bind fun found => ?_
          cases found with
          | none => exact ih
          | some p => exact heeds_pure _

theorem handSync_claims (j p : Nat) (name : Bytes) :
    Heeds guard (handSync env c i j p name) := by
  refine heeds_look fun s => ?_
  cases s.workerAt i j p with
  | none => exact heeds_fault
  | some w =>
      simp only
      split
      · exact heeds_perform (claimed _ rfl rfl)
      · cases s.takeId c (env.random s.generated) with
        | none => exact heeds_perform (claimed _ rfl rfl)
        | some taken =>
            simp only
            split
            · exact heeds_perform (claimed _ rfl rfl)
            · exact heeds_perform (claimed _ rfl rfl)

theorem requested_heeds (answered : ∀ response : Response,
      response.status = "200 OK" ∨ response.status = "204 No Content" → ∀ s, guard (.respond c response) s)
    (name : Bytes) (client : Conn) (threads : Nat) : Heeds guard (do
      guardLine i
      match ← findWorkerIn i client.http.requiredWorker (loopOrder client.nloop threads) with
      | some (j, p) =>
          if client.http.noResponse then
            perform (.handAsync c i j p name)
            perform (.respond c ⟨"200 OK", [], .code 1⟩)
          else handSync env c i j p name
      | none =>
          let option ← option c
          let s ← get
          match s.line i with
          | none => fault
          | some line =>
              if option = ascii "if present" && line.workers.isEmpty then
                perform (.respond c ⟨"204 No Content", [], .code 1⟩)
              else if client.http.noResponse then
                perform (.enqueueAsync c i name)
                perform (.respond c ⟨"200 OK", [], .code 1⟩)
              else perform (.enqueueSync c i name)) := by
  have accepted : Heeds guard (perform (.respond c ⟨"200 OK", [], .code 1⟩)) :=
    heeds_perform (answered _ (Or.inl rfl))
  refine (guardLine_heeds i).bind fun _ => (findWorkerIn_claims claimed _ _).bind fun found => ?_
  cases found with
  | some place =>
      simp only
      split
      · exact (heeds_perform (claimed _ rfl rfl)).bind fun _ => accepted
      · exact handSync_claims claimed _ _ name
  | none =>
      refine (option_heeds c).bind fun option => heeds_look fun t => ?_
      cases t.line i with
      | none => exact heeds_fault
      | some line =>
          simp only
          split
          · exact heeds_perform (answered _ (Or.inr rfl))
          · split
            · exact (heeds_perform (claimed _ rfl rfl)).bind fun _ => accepted
            · exact heeds_perform (claimed _ rfl rfl)

end Claims

section Publishes

variable {i : Nat} (published : ∀ action : Action, action.publishes = some i → ∀ s, guard action s)

include published

theorem publishAll_heeds (d : Nat) (list : List ConnId) : Heeds guard (publishAll i d list) := by
  induction list with
  | nil => exact heeds_pure _
  | cons w list ih =>
      rw [publishAll]
      refine (use_heeds w).bind fun worker => ?_
      extract_lets rest
      have goesOn : ∀ u, Heeds guard (rest u) := fun _ => ih
      split
      · exact (heeds_perform (published _ rfl)).bind goesOn
      · split
        · exact (heeds_perform (published _ rfl)).bind goesOn
        · exact goesOn ()

theorem published_heeds {c : ConnId} (answered : ∀ s, guard (.respond c ⟨"200 OK", [], .code 1⟩) s)
    (dropped : ∀ d s, guard (.releaseDirect d) s) (name body : Bytes) (directs : Nat) (line : Option QueueLine) :
    Heeds guard (match line with
      | none => fault
      | some line => do
          perform (.newDirect i (Routine.published name body) line.name)
          publishAll i directs line.workers
          perform (.respond c ⟨"200 OK", [], .code 1⟩)
          perform (.releaseDirect directs)) := by
  cases line with
  | none => exact heeds_fault
  | some line =>
      refine (heeds_perform (published _ rfl)).bind fun _ => (publishAll_heeds published _ _).bind fun _ => ?_
      exact (heeds_perform answered).bind fun _ => heeds_perform (dropped _)

end Publishes

section Passes

variable (passed : ∀ action : Action, action.passes = true → ∀ s, guard action s)

include passed

theorem findMessage_passes (c : ConnId) (i j fuel p : Nat) :
    Heeds guard (findMessage env c i j fuel p) := by
  induction fuel generalizing p with
  | zero => exact heeds_pure _
  | succ fuel ih =>
      rw [findMessage]
      refine heeds_look fun s => ?_
      cases s.messageAt i j p with
      | none => exact heeds_pure _
      | some message =>
          simp only
          split
          · exact ih (p + 1)
          · cases message.conn with
            | none => exact heeds_pure _
            | some d =>
                refine (use_heeds d).bind fun client => ?_
                split
                · exact (heeds_perform (passed _ rfl)).bind fun _ => ih p
                · split
                  · exact heeds_pure _
                  · cases s.takeId d (env.random s.generated) with
                    | none => exact (heeds_perform (passed _ rfl)).bind fun _ => ih p
                    | some taken =>
                        simp only
                        split
                        · exact (heeds_perform (passed _ rfl)).bind fun _ => ih p
                        · exact heeds_pure _

theorem findMessageIn_passes (c : ConnId) (i : Nat) (loops : List Nat) :
    Heeds guard (findMessageIn env c i loops) := by
  induction loops with
  | nil => exact heeds_pure _
  | cons j loops ih =>
      rw [findMessageIn]
      refine heeds_look fun s => ?_
      cases s.queue i j with
      | none => exact heeds_fault
      | some queue =>
          refine (findMessage_passes passed c i j _ 0).bind fun found => ?_
          cases found with
          | none => exact ih
          | some p => exact heeds_pure _

end Passes

theorem release_collects (collected : ∀ s, guard .collect s) : Heeds guard release := by
  have whole : ∀ fuel, Heeds guard (collectAll fuel) := by
    intro fuel
    induction fuel with
    | zero => exact heeds_pure _
    | succ fuel ih => exact (heeds_perform collected).bind fun _ => ih
  exact heeds_look fun s => whole _

theorem cleanDeque_drops {i j : Nat} (dropped : ∀ p s, guard (.dropEntry i j p) s) (fuel p : Nat) :
    Heeds guard (cleanDeque c i j fuel p) := by
  induction fuel generalizing p with
  | zero => exact heeds_pure _
  | succ fuel ih =>
      rw [cleanDeque]
      refine heeds_look fun s => ?_
      cases s.workerAt i j p with
      | none => exact heeds_pure _
      | some w =>
          refine (use_heeds w).bind fun worker => ?_
          split
          · exact (heeds_perform (dropped p)).bind fun _ => ih p
          · exact ih (p + 1)

/-- Only a worker that waits beyond its deadline is told so. -/
theorem checkTimeout_expires {now : Nat} (expired : ∀ i j p s, (∃ w, s.workerAt i j p = some w ∧
      (s.conns w).overdue now = true) → guard (.expire i j p now) s) : Heeds guard (checkTimeout now) := by
  refine heeds_look fun s => eachDeque_heeds (fun i j queue => ?_) _
  refine (guardLine_heeds i).bind fun _ => ?_
  have deque : ∀ fuel p, Heeds guard (expireDeque i j now fuel p) := by
    intro fuel
    induction fuel with
    | zero => exact fun _ => heeds_pure _
    | succ fuel ih =>
        intro p t
        rw [expireDeque, wp_bind, wp_get]
        cases found : t.workerAt i j p with
        | none => trivial
        | some w =>
            simp only [wp_bind]
            apply use_wp
            split
            · rename_i late
              exact wp_perform_heeds (expired i j p t ⟨w, found, late⟩) fun _ => ih (p + 1)
            · exact ih (p + 1) t
  exact deque _ 0

section Free

variable (free : Attends c guard)

include free

theorem free_heeds {action : Action} (other : action.serves = true) (own : action.holder c = some c) :
    Heeds guard (perform action) :=
  heeds_perform (free.plain action other own)

theorem edit_free {change : Http → Http} (other : ∀ http : Http,
      ((change http).intake, (change http).deadline, (change http).labels) =
        (http.intake, http.deadline, http.labels)) (s : Server) : guard (.edit c [] change) s := by
  have same : (change (s.conns c).http).labels = (s.conns c).http.labels := congrArg (·.2.2) (other _)
  exact free.edit change (fun http => congrArg Prod.fst (other http)) (fun http => congrArg (·.2.1) (other http))
    s ⟨congrArg Prod.snd same, Or.inl (congrArg Prod.fst same)⟩

theorem edit_heeds {change : Http → Http} (other : ∀ http : Http,
      ((change http).intake, (change http).deadline, (change http).labels) =
        (http.intake, http.deadline, http.labels)) : Heeds guard (perform (.edit c [] change)) :=
  heeds_perform (edit_free free other)

/-! ### A client's request -/

theorem clientRequest_heeds (name : Bytes) : Heeds guard (clientRequest env name c) := by
  rw [clientRequest]
  refine (free_heeds free rfl rfl).bind fun _ => heeds_look fun s => ?_
  split
  · exact heeds_fault
  · exact heeds_throw _
  · exact free_heeds free rfl rfl
  · rename_i i _
    have claimed : ∀ action : Action, action.claims = some i → action.holder c = some c →
        ∀ t, guard action t := fun action claims => free.plain action (Action.claims_serves claims)
    exact requested_heeds claimed (fun _ _ => free.plain _ rfl rfl) name (s.conns c) s.threads

/-! ### A worker's request -/

theorem findMessageIn_heeds (i : Nat) (loops : List Nat) :
    Heeds guard (findMessageIn env c i loops) :=
  findMessageIn_passes (fun action passes => free.plain action (Action.passes_serves passes)
    (Action.passes_holder passes)) c i loops

theorem release_heeds : Heeds guard release := release_collects (free.plain .collect rfl rfl)

theorem give_heeds (i j p : Nat) (last : Bool) : Heeds guard (give env c i j p last) := by
  refine heeds_look fun s => ?_
  cases s.messageAt i j p with
  | none => exact heeds_fault
  | some message =>
      simp only
      split
      · exact (free_heeds free rfl rfl).bind fun _ => heeds_pure _
      · split
        · exact (free_heeds free rfl rfl).bind fun _ => heeds_pure _
        · exact (free_heeds free rfl rfl).bind fun _ => heeds_pure _

theorem workerResult_heeds (id : Bytes) (worker : Option ConnId) :
    Heeds guard (workerResult id worker) := by
  refine heeds_look fun s => ?_
  cases s.waiting id with
  | none => exact heeds_pure _
  | some d =>
      refine (use_heeds d).bind fun client => ?_
      exact (free_heeds free rfl rfl).bind fun _ => heeds_pure _

theorem workerResultNoid_heeds : Heeds guard (workerResultNoid c) := by
  refine heeds_look fun s => ?_
  cases (s.conns c).client with
  | none => exact (free_heeds free rfl rfl).bind fun _ => heeds_pure _
  | some d =>
      refine (use_heeds d).bind fun client => ?_
      exact (free_heeds free rfl rfl).bind fun _ => heeds_pure _

theorem rpcAddLoop_heeds (fuel : Nat) : Heeds guard (rpcAddLoop c fuel) := by
  induction fuel with
  | zero => exact heeds_pure _
  | succ fuel ih =>
      rw [rpcAddLoop]
      refine heeds_look fun s => ?_
      cases (s.conns c).http.json.scan with
      | error error => exact heeds_throw _
      | ok found =>
          obtain ⟨json, more⟩ := found
          refine (edit_heeds free fun _ => by rfl).bind fun _ => ?_
          extract_lets rest name
          have goesOn : ∀ u, Heeds guard (rest u) := fun _ => ih
          split
          · exact heeds_pure _
          · split
            · refine (edit_heeds free fun _ => by rfl).bind fun _ => ?_
              cases name.2 with
              | some error => exact (heeds_throw error).bind goesOn
              | none => exact goesOn ()
            · split
              · exact (edit_heeds free fun _ => by rfl).bind goesOn
              · split
                · split
                  · exact (free_heeds free rfl rfl).bind goesOn
                  · split
                    · exact (free_heeds free rfl rfl).bind goesOn
                    · exact goesOn ()
                · exact goesOn ()

theorem rpcCallLoop_heeds (fuel : Nat) (method id params : Bytes) :
    Heeds guard (rpcCallLoop c fuel method id params) := by
  induction fuel generalizing method id params with
  | zero => exact heeds_pure _
  | succ fuel ih =>
      intro s
      rw [rpcCallLoop, wp_bind, wp_get]
      cases (s.conns c).http.json.scan with
      | error error => exact heeds_throw error s
      | ok found =>
          obtain ⟨json, more⟩ := found
          refine wp_perform_bind (edit_free free (fun _ => by rfl) s) ?_
          rw [Action.apply, Ends_returned]
          obtain ⟨t, tEq⟩ : ∃ t, (s.note (.taken c [])).modify c (fun conn =>
            { conn with http := { conn.http with json := json } }) = t := ⟨_, rfl⟩
          have read : (t.conns c).http.json = json := by rw [← tEq, Server.modify_self]
          rw [tEq]
          split
          · exact heeds_pure _ t
          · split
            · exact ih _ _ _ t
            · split
              · rename_i isId
                rw [Bool.and_eq_true, decide_eq_true_eq] at isId
                refine wp_perform_heeds (free.edit _ (fun _ => by rfl) (fun _ => by rfl) t ⟨rfl, Or.inr ?_⟩)
                  fun _ => ih _ _ _
                rw [read]
                exact ⟨isId.1, rfl⟩
              · split
                · exact ih _ _ _ t
                · exact ih _ _ _ t

theorem rpcResult_heeds (id : Bytes) : Heeds guard (rpcResult c id) := by
  refine heeds_look fun s => ?_
  extract_lets json found
  cases found with
  | error error => exact heeds_throw _
  | ok pair =>
      obtain ⟨json, value⟩ := pair
      refine (edit_heeds free fun _ => by rfl).bind fun _ => ?_
      extract_lets id
      split
      · exact free_heeds free rfl rfl
      · refine (free_heeds free rfl rfl).bind fun _ => ?_
        refine (workerResult_heeds free id (some c)).bind fun result => ?_
        split
        · exact free_heeds free rfl rfl
        · split
          · exact free_heeds free rfl rfl
          · exact free_heeds free rfl rfl

/-! ### Queues, passes and disconnects -/

theorem deleteQueue_heeds (key : Bytes) : Heeds guard (deleteQueue key) := by
  have messages : ∀ j fuel, Heeds guard (closeMessages j fuel) := by
    intro j fuel
    induction fuel with
    | zero => exact heeds_pure _
    | succ fuel ih =>
        rw [closeMessages]
        refine heeds_look fun s => ?_
        split
        · exact heeds_pure _
        · extract_lets next
          have later : ∀ u, Heeds guard (next u) := fun _ => (free_heeds free rfl rfl).bind fun _ => ih
          split
          · exact later ()
          · rename_i d _
            exact (use_heeds d).bind fun _ => later ()
  have workers : ∀ j fuel, Heeds guard (closeWorkers j fuel) := by
    intro j fuel
    induction fuel with
    | zero => exact heeds_pure _
    | succ fuel ih =>
        rw [closeWorkers]
        refine heeds_look fun s => ?_
        split
        · exact heeds_pure _
        · rename_i w _
          exact (use_heeds w).bind fun _ => (free_heeds free rfl rfl).bind fun _ => ih
  have loops : ∀ line loops, Heeds guard (closeLoops line loops) := by
    intro line loops
    induction loops with
    | nil => exact heeds_pure _
    | cons j loops ih =>
        rw [closeLoops]
        cases line.queue[j]? with
        | none => exact heeds_fault
        | some queue =>
            exact (messages j _).bind fun _ => (workers j _).bind fun _ => ih
  have items : ∀ fuel, Heeds guard (popItems fuel) := by
    intro fuel
    induction fuel with
    | zero => exact heeds_pure _
    | succ fuel ih => exact (free_heeds free rfl rfl).bind fun _ => ih
  refine (free_heeds free rfl rfl).bind fun _ => heeds_look fun s => ?_
  cases s.dying with
  | none => exact heeds_pure _
  | some line =>
      refine ((loops line _).catching fun error => ?_).bind fun _ => ?_
      · exact (release_heeds free).bind fun _ => heeds_throw error
      · exact (items _).bind fun _ => (free_heeds free rfl rfl).bind fun _ => release_heeds free

theorem withQueueName_heeds (path : Bytes) {change : Bytes → Routine Unit}
    (changed : ∀ name, Heeds guard (change name)) : Heeds guard (withQueueName c path change) := by
  unfold withQueueName
  split
  · exact free_heeds free rfl rfl
  · exact (changed _).bind fun _ => free_heeds free rfl rfl

theorem pub_heeds (name : Bytes) : Heeds guard (pub name c) := by
  rw [pub]
  refine heeds_look fun s => ?_
  split
  · exact heeds_fault
  · exact heeds_throw _
  · exact free_heeds free rfl rfl
  · rename_i i _
    have published : ∀ action : Action, action.publishes = some i → ∀ t, guard action t :=
      fun action publishes => free.plain action (Action.publishes_serves publishes) (Action.publishes_holder publishes)
    exact published_heeds published (free.plain _ rfl rfl) (fun _ => free.plain _ rfl rfl) name
      (s.conns c).http.body s.directs (s.line i)

theorem onDisconnect_heeds : Heeds guard (onDisconnect c) := by
  refine heeds_look fun s => ?_
  extract_lets conn ending erasing dropping
  have ended : ∀ u, Heeds guard (ending u) := by
    intro u
    unfold ending
    split
    · exact heeds_pure _
    · split
      · split
        · cases conn.client with
          | none => exact free_heeds free rfl rfl
          | some d => exact (use_heeds d).bind fun _ => free_heeds free rfl rfl
        · split
          · exact heeds_throw _
          · exact heeds_pure _
      · cases conn.client with
        | none => exact heeds_pure _
        | some d =>
            refine (use_heeds d).bind fun client => ?_
            exact (workerResult_heeds free _ none).bind fun _ => free_heeds free rfl rfl
  have erased : ∀ u, Heeds guard (erasing u) := by
    intro u
    unfold erasing
    split
    · exact (free_heeds free rfl rfl).bind ended
    · exact ended ()
  have dropped : ∀ u, Heeds guard (dropping u) := by
    intro u
    unfold dropping
    split
    · exact (free_heeds free rfl rfl).bind erased
    · exact erased ()
  split
  · exact (free_heeds free rfl rfl).bind dropped
  · exact dropped ()

theorem close_heeds (retired : ∀ s, guard (.retire c) s) : Heeds guard (close c) :=
  (free_heeds free rfl rfl).bind fun _ => (onDisconnect_heeds free).bind fun _ => heeds_perform retired

theorem guarded_heeds (retired : ∀ s, guard (.retire c) s) {routine : Routine Unit} (heeds : Heeds guard routine) :
    Heeds guard (guarded routine c) := by
  refine (heeds.catching fun error => ?_).bind fun _ => heeds_look fun s => ?_
  · exact (free_heeds free rfl rfl).bind fun _ => free_heeds free rfl rfl
  · split
    · exact close_heeds free retired
    · exact heeds_pure _

theorem inLoop_heeds {loop : Nat} {routine : Routine Unit} (heeds : Heeds guard routine) :
    Heeds guard (Input.inLoop loop routine) :=
  ((free_heeds free rfl rfl).bind fun _ => heeds).catching fun _ => free_heeds free rfl rfl

theorem checkTimeout_heeds (now : Nat) : Heeds guard (checkTimeout now) :=
  checkTimeout_expires fun _ _ _ s _ => free.plain _ rfl rfl s

theorem cleanDeadTasks_heeds : Heeds guard cleanDeadTasks := by
  have workers : ∀ i j fuel p, Heeds guard (cleanWorkers i j fuel p) := by
    intro i j fuel
    induction fuel with
    | zero => exact fun _ => heeds_pure _
    | succ fuel ih =>
        intro p
        rw [cleanWorkers]
        refine heeds_look fun t => ?_
        cases t.workerAt i j p with
        | none => exact heeds_pure _
        | some w =>
            refine (use_heeds w).bind fun worker => ?_
            split
            · exact (free_heeds free rfl rfl).bind fun _ => ih p
            · exact ih (p + 1)
  have clients : ∀ i j fuel p, Heeds guard (cleanClients i j fuel p) := by
    intro i j fuel
    induction fuel with
    | zero => exact fun _ => heeds_pure _
    | succ fuel ih =>
        intro p
        rw [cleanClients]
        refine heeds_look fun t => ?_
        cases t.messageAt i j p with
        | none => exact heeds_pure _
        | some message =>
            simp only
            cases message.conn with
            | none => exact ih (p + 1)
            | some d =>
                refine (use_heeds d).bind fun client => ?_
                split
                · exact (free_heeds free rfl rfl).bind fun _ => ih p
                · exact ih (p + 1)
  refine heeds_look fun s => (eachDeque_heeds (fun i j queue => ?_) _).catching fun _ => heeds_fault
  refine heeds_look fun t => ?_
  cases t.line i with
  | none => exact heeds_fault
  | some line =>
      simp only
      split
      · exact heeds_pure _
      · exact (workers i j _ 0).bind fun _ => clients i j _ 0

/-! ### A worker is added -/

theorem anyRegister_heeds (placed : ∀ i s, guard (.register c i) s) (i : Nat) :
    Heeds guard (registerIn c i) := by
  refine heeds_look fun s => ?_
  simp only
  cases s.queue i (s.conns c).nloop with
  | none => exact heeds_fault
  | some queue =>
      refine (cleanDeque_drops (fun _ => free.plain _ rfl rfl) _ 0).bind fun _ => ?_
      exact (heeds_perform (placed i)).bind fun _ => heeds_pure _

section Registers

variable (registered : ∀ i, Heeds guard (registerIn c i))

include registered

theorem serve_heeds (name : Bytes) (i : Nat) (last : Bool) : Heeds guard (serve env name c i last) := by
  unfold serve
  refine heeds_look fun s => (findMessageIn_heeds free i _).bind fun place => ?_
  extract_lets subscribed
  have goesOn : ∀ result, Heeds guard (subscribed result) := by
    intro result
    refine heeds_look fun t => ?_
    extract_lets worker rest
    have ends : ∀ u, Heeds guard (rest u) := fun _ => heeds_pure _
    split
    · exact (free_heeds free rfl rfl).bind ends
    · exact ends ()
  cases place with
  | some place => exact (give_heeds free i _ _ last).bind goesOn
  | none => exact (registered i).bind goesOn

theorem addWorkerTo_heeds (piece : Bytes) (last : Bool) : Heeds guard (addWorkerTo env piece c last) := by
  unfold addWorkerTo
  extract_lets name
  refine heeds_look fun s => ?_
  extract_lets found worker
  refine (free_heeds free rfl rfl).bind fun _ => ?_
  cases found with
  | thrown registry error => exact heeds_fault
  | fault => exact heeds_fault
  | returned registry slot =>
      cases slot with
      | none => exact heeds_fault
      | some i =>
          simp -zeta only
          extract_lets serving leaving naming
          have served : ∀ u, Heeds guard (serving u) := by
            intro u
            refine heeds_look fun t => ?_
            split
            · exact (free_heeds free rfl rfl).bind fun _ => heeds_pure _
            · refine (free_heeds free rfl rfl).bind fun _ => (guardLine_heeds i).bind fun _ => ?_
              refine (free_heeds free rfl rfl).bind fun _ => ?_
              refine ((serve_heeds free registered name i last).catching fun error => ?_).bind fun _ => ?_
              · exact (release_heeds free).bind fun _ => heeds_throw error
              · refine (free_heeds free rfl rfl).bind fun _ => ?_
                exact (release_heeds free).bind fun _ => heeds_pure _
          have left : ∀ u, Heeds guard (leaving u) := by
            intro u
            unfold leaving
            split
            · refine (free_heeds free rfl rfl).bind fun _ => ?_
              exact (free_heeds free rfl rfl).bind served
            · exact served ()
          have named : ∀ u, Heeds guard (naming u) := by
            intro u
            unfold naming
            split
            · exact (free_heeds free rfl rfl).bind left
            · exact left ()
          split
          · exact (free_heeds free rfl rfl).bind named
          · exact named ()

theorem addWorker_heeds (name : Bytes) : Heeds guard (addWorker env name c) := by
  have loop : ∀ names, Heeds guard (addWorkerLoop env c names) := by
    intro names
    induction names with
    | nil => exact free_heeds free rfl rfl
    | cons piece rest ih =>
        refine (addWorkerTo_heeds free registered piece _).bind fun result => ?_
        split
        · exact free_heeds free rfl rfl
        · exact ih
  exact (free_heeds free rfl rfl).bind fun _ => loop _

theorem rpcAdd_heeds : Heeds guard (rpcAdd env c) := by
  refine heeds_look fun s => (rpcAddLoop_heeds free _).bind fun _ => heeds_look fun t => ?_
  extract_lets conn adding
  have added : ∀ u, Heeds guard (adding u) := fun _ => addWorker_heeds free registered _
  split
  · exact (free_heeds free rfl rfl).bind fun _ => free_heeds free rfl rfl
  · split
    · exact (free_heeds free rfl rfl).bind added
    · exact added ()

theorem callMethod_heeds (method id : Bytes) : Heeds guard (callMethod env c method id) := by
  unfold callMethod
  split
  · exact (free_heeds free rfl rfl).bind fun _ => rpcAdd_heeds free registered
  · split
    · exact rpcAdd_heeds free registered
    · split
      · exact rpcResult_heeds free id
      · split
        · exact heeds_look fun s => (useAll_heeds _).bind fun _ => free_heeds free rfl rfl
        · split
          · exact heeds_look fun s => free_heeds free rfl rfl
          · refine (option_heeds c).bind fun option => (edit_heeds free fun _ => by rfl).bind fun _ => ?_
            exact clientRequest_heeds free method

theorem untyped_heeds : Heeds guard (untyped env c) := by
  refine heeds_look fun s => ?_
  extract_lets http
  split
  · refine (rpcCallLoop_heeds free _ _ _ _).bind fun found => ?_
    obtain ⟨method, id, params⟩ := found
    simp -zeta only
    extract_lets method called
    have answered : ∀ u, Heeds guard (called u) := by
      intro u
      unfold called
      split
      · exact free_heeds free rfl rfl
      · exact callMethod_heeds free registered method id
    split
    · exact (edit_heeds free fun _ => by rfl).bind answered
    · exact answered ()
  · exact callMethod_heeds free registered _ _

theorem typed_heeds (http : Http) : Heeds guard (typed env c http) := by
  refine (edit_heeds free fun _ => by rfl).bind fun _ => ?_
  extract_lets name
  cases http.type with
  | none => exact free_heeds free rfl rfl
  | get => exact rpcAdd_heeds free registered
  | getPlus => exact (free_heeds free rfl rfl).bind fun _ => rpcAdd_heeds free registered
  | worker => exact (free_heeds free rfl rfl).bind fun _ => rpcAdd_heeds free registered
  | async => exact (edit_heeds free fun _ => by rfl).bind fun _ => clientRequest_heeds free name
  | pub => exact pub_heeds free name
  | result => exact rpcResult_heeds free _
  | create => exact withQueueName_heeds free _ fun name => free_heeds free rfl rfl
  | del => exact withQueueName_heeds free _ (deleteQueue_heeds free)

theorem headerCompleted_heeds : Heeds guard (headerCompleted env c) := by
  unfold headerCompleted
  refine (free_heeds free rfl rfl).bind fun _ => heeds_look fun s => ?_
  extract_lets conn stopped asked
  split
  · exact free_heeds free rfl rfl
  · split
    · have stops : ∀ u, Heeds guard (stopped u) := fun _ =>
        (free_heeds free rfl rfl).bind fun _ => free_heeds free rfl rfl
      have asks : ∀ u, Heeds guard (asked u) := by
        intro u
        unfold asked
        refine (option_heeds c).bind fun option => ?_
        split
        · split
          · exact (free_heeds free rfl rfl).bind stops
          · exact stops ()
        · exact rpcAdd_heeds free registered
      split
      · exact (workerResultNoid_heeds free).bind fun _ => asks ()
      · exact asks ()
    · split
      · split
        · exact free_heeds free rfl rfl
        · refine (workerResultNoid_heeds free).bind fun result => ?_
          split
          · exact free_heeds free rfl rfl
          · exact free_heeds free rfl rfl
      · refine (edit_heeds free fun _ => by rfl).bind fun _ => ?_
        split
        · exact typed_heeds free registered _
        · exact untyped_heeds free registered

end Registers

/-! ### What a connection sends -/

section Receives

variable {completed : Routine Unit} (heeds : Heeds guard completed)

include heeds

theorem answering_heeds : Heeds guard (answering completed c) := by
  refine heeds.catching fun error => ?_
  split
  · exact free_heeds free rfl rfl
  · exact heeds_throw error

variable (parses : Parses guard env c)

include parses

theorem readLines_heeds (fuel : Nat) (cursor : Cursor) :
    Heeds guard (readLines env completed c fuel cursor) := by
  induction fuel generalizing cursor with
  | zero => exact heeds_fault
  | succ fuel ih =>
      rw [readLines]
      cases popLine cursor.data with
      | none =>
          refine heeds_look fun s => ?_
          split
          · exact keepRest_heeds parses cursor
          · exact heeds_pure _
      | some popped =>
          obtain ⟨raw, left⟩ := popped
          simp -zeta only
          extract_lets line after
          intro s
          rw [wp_bind, wp_get]
          extract_lets http length behind body checked
          have rewound : Heeds guard (perform (.rewind c)) := heeds_perform (parses.plain _ rfl fun _ _ => Action.noConfusion)
          have taken : ∀ u, Heeds guard (body u) := by
            intro u
            refine (heeds_perform (parses.plain _ rfl fun _ _ => Action.noConfusion)).bind fun _ => heeds_look fun t => ?_
            split
            · refine (answering_heeds free heeds).bind fun _ => ?_
              split
              · refine heeds_look fun t => ?_
                split
                · exact rewound.bind fun _ => ih _
                · exact heeds_throw _
              · exact rewound
            · exact heeds_pure _
          have checkedOk : ∀ u, Heeds guard (checked u) := by
            intro u
            unfold checked
            split
            · exact heeds_fault.bind taken
            · exact taken ()
          split
          · split
            · exact (heeds_throw _).bind checkedOk s
            · exact checkedOk () s
          · split
            · refine wp_perform_heeds (parses.plain _ rfl (fun _ _ => Action.noConfusion) s) fun _ => heeds_look fun t => ?_
              extract_lets
              split
              · exact heeds_pure _
              · exact ih _
            · split
              · rename_i inHeader
                have reads : http.headerIn raw = match Http.Header.read line with
                    | .ok header => some header
                    | .error _ => none := if_pos inHeader
                unfold Http.readHeader
                cases read : Http.Header.read line with
                | ok header =>
                    rw [read] at reads
                    exact wp_perform_heeds (parses.header raw header _ _ s reads) fun _ => ih _
                | error error =>
                    rw [read] at reads
                    have unread : ∀ value, http.headerIn raw ≠ some (.timeout value) := by
                      intro value
                      rw [reads]
                      exact fun same => by cases same
                    refine wp_perform_heeds (parses.edit raw id s (fun _ => rfl) unread) fun _ => ?_
                    extract_lets
                    split
                    · exact (free_heeds free rfl rfl).bind fun _ => ih _
                    · exact (heeds_throw _).bind fun _ => ih _
              · rename_i elsewhere
                have unread : ∀ value, http.headerIn raw ≠ some (.timeout value) := by
                  intro value
                  rw [Http.headerIn, if_neg elsewhere]
                  exact fun same => by cases same
                exact wp_perform_heeds (parses.edit raw id s (fun _ => rfl) unread) fun _ => ih _

theorem parse_heeds (cursor : Cursor) : Heeds guard (parse env completed c cursor) := by
  intro s
  rw [parse, wp_bind, wp_get]
  extract_lets http missing count left body
  split
  · rename_i inBody
    have unread : ∀ taken value, http.headerIn taken ≠ some (.timeout value) := by
      intro taken value
      rw [Http.headerIn, if_neg (by rw [inBody]; decide)]
      exact fun same => by cases same
    have read : ∀ u, (body u).wp Action.apply guard (fun _ _ => True) (fun _ _ => True) s := by
      intro u
      unfold body
      split
      · refine ⟨parses.edit _ _ s (fun _ => by rfl) (unread _), ?_⟩
        trivial
      · refine wp_perform_heeds (parses.edit _ _ s (fun _ => by rfl) (unread _)) fun _ => ?_
        refine (answering_heeds free heeds).bind fun _ => ?_
        refine (heeds_perform (parses.plain _ rfl fun _ _ => Action.noConfusion)).bind fun _ => ?_
        split
        · exact readLines_heeds free heeds parses _ _
        · exact heeds_pure _
    split
    · trivial
    · exact read ()
  · exact readLines_heeds free heeds parses _ _ s

theorem storeOrParse_heeds (chunk : Bytes) : Heeds guard (storeOrParse env completed c chunk) := by
  have stores : Heeds guard (perform (.edit c [] fun http => { http with buffer := http.buffer.add chunk })) :=
    heeds_perform fun s => parses.edit _ _ s (fun _ => by rfl) (Http.headerIn_nil _)
  refine heeds_look fun t => ?_
  extract_lets conn
  split
  · exact stores
  · split
    · exact stores.bind fun _ => heeds_look fun u => parse_heeds free heeds parses _
    · exact parse_heeds free heeds parses _

theorem onRecvWith_heeds (pinged : ∀ s, guard (.ping env c s) s) (chunk : Bytes) :
    Heeds guard (onRecvWith env completed c chunk) := by
  intro s
  rw [onRecvWith, wp_bind, wp_get]
  extract_lets ping store
  have stored : ∀ u, Heeds guard (store u) := fun _ => storeOrParse_heeds free heeds parses chunk
  split
  · exact wp_perform_heeds (pinged s) stored
  · exact stored () s

end Receives

end Free

end Routine

/-! ### Serving a request reads nothing -/

/-- An action that leaves all input as it is. -/
abbrev ReadsNothing (action : Action) (s : Server) : Prop :=
  (action.apply s).Ends (fun _ t => Unfed s t) fun _ t => Unfed s t

namespace Routine

theorem readsNothing_frees : Frees ReadsNothing := by
  constructor
  · intro action serves s
    rw [Action.serves, Bool.and_eq_true, Bool.not_eq_true', Bool.not_eq_true'] at serves
    refine Unfed.apply_unfed s serves.2 fun loop garbage same => ?_
    rw [same] at serves
    cases serves.1
  · intro c change keeps _ s _
    have noted : Unfed s (s.note (.taken c [])) := Unfed.note (Unfed.refl s)
    exact noted.shuts (congrArg (Prod.mk (s.conns c).nloop) (keeps _)) fun closed => closed

theorem headerCompleted_readsNothing (env : Env) (c : ConnId) : Heeds ReadsNothing (headerCompleted env c) :=
  headerCompleted_heeds (readsNothing_frees.attends c)
    (anyRegister_heeds (readsNothing_frees.attends c) fun _ s => Unfed.apply_unfed s rfl fun _ _ => Action.noConfusion)

theorem Heeds.unfed_wp {α : Type} {routine : Routine α} (heeds : Heeds ReadsNothing routine) (s : Server) :
    routine.wp Action.apply (fun _ t => Unfed s t) (fun _ t => Unfed s t) (fun _ t => Unfed s t) s :=
  Program.Heeds.relates Unfed.refl Unfed.trans heeds s

theorem Heeds.unfed {routine : Routine Unit} (heeds : Heeds ReadsNothing routine) (s : Server)
    {moment : Action × Server} (member : moment ∈ (routine.run Action.apply s).1) : Unfed s moment.2 :=
  moment_meets (heeds.unfed_wp s) member

end Routine

theorem Input.routine_frees {guard : Action → Server → Prop} {s : Server} {input : Input}
    (serving : Routine.Frees guard) (received : ∀ loop chunk t, guard (.receive loop chunk) t)
    (parses : ∀ env c, Routine.Parses guard env c) (pinged : ∀ env c t, guard (.ping env c t) t)
    (accepted : ∀ loop garbage, input = .accept loop garbage → ∀ s, guard (.accept loop garbage) s)
    (registered : ∀ c chunk env, input = .recv c chunk env →
      ∀ i, Routine.Heeds guard (Routine.registerIn c i)) :
    Routine.Heeds guard (input.routine s) := by
  have retired : ∀ c t, guard (.retire c) t := fun c => serving.plain (.retire c) rfl
  cases input with
  | accept loop garbage => exact heeds_perform (accepted loop garbage rfl)
  | recv c chunk env =>
      have serving := serving.attends c
      refine Routine.inLoop_heeds serving ((heeds_perform (received _ _)).bind fun _ => ?_)
      refine Routine.guarded_heeds serving (retired c) (Routine.onRecvWith_heeds serving ?_ (parses env c)
        (pinged env c) chunk)
      exact Routine.headerCompleted_heeds serving (registered c chunk env rfl)
  | send c sent =>
      have serving := serving.attends c
      refine Routine.inLoop_heeds serving (Routine.guarded_heeds serving (retired c) ?_)
      exact Routine.free_heeds serving rfl rfl
  | hangup c => exact Routine.inLoop_heeds (serving.attends c) (Routine.close_heeds (serving.attends c) (retired c))
  | checkTimeout now =>
      exact Routine.inLoop_heeds (serving.attends 0) (Routine.checkTimeout_heeds (serving.attends 0) now)
  | cleanDeadTasks => exact Routine.cleanDeadTasks_heeds (serving.attends 0)
  | deleteConnections loop =>
      exact Routine.inLoop_heeds (serving.attends 0) (Routine.free_heeds (serving.attends 0) rfl rfl)

/-- The same where all actions but two kinds are free. -/
theorem Input.routine_heeds {guard : Action → Server → Prop} {s : Server} {input : Input}
    (free : ∀ action : Action, action.places = false → ∀ s, guard action s)
    (accepted : ∀ loop garbage, input = .accept loop garbage → ∀ s, guard (.accept loop garbage) s)
    (registered : ∀ c chunk env, input = .recv c chunk env →
      ∀ i, Routine.Heeds guard (Routine.registerIn c i)) :
    Routine.Heeds guard (input.routine s) := by
  have serving : Routine.Frees guard :=
    { plain := fun action serves => free action (Bool.not_eq_true' _ ▸ (Bool.and_eq_true_iff.mp serves).1)
      edit := fun c change _ _ s _ => free (.edit c [] change) rfl s }
  have parsing : ∀ action : Action, action.parses = true → ∀ t, guard action t := by
    intro action parses
    refine free action ?_
    cases action <;> first | rfl | cases parses
  exact Input.routine_frees serving (fun _ _ => parsing _ rfl)
    (fun env c => Routine.Parses.free fun action reads => parsing action (Action.reader_parses reads))
    (fun env c t => parsing (.ping env c t) rfl t) accepted registered

end Ijson
