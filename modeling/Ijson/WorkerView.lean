/-
A worker connection as the sections of the loops see it, and what the actions of
the server do to it.
-/

import Ijson.Loops

namespace Ijson

/-- What the sections read and write of a worker. -/
structure Worker where
  status : Status
  noid : Bool
  workerMode : Bool
  failOnDisconnect : Bool
  client : Option ConnId
  deriving DecidableEq

namespace Worker

/-- The claim of `client_request`. -/
def claim (w : Worker) : Worker := { w with status := .busy }

/-- `client_request` or `_add_worker` with a task that wants no response. -/
def takeAsync (w : Worker) : Worker :=
  { w with status := if w.workerMode then .workerModeAsync else .net }

/-- `client_request` hands a task over that is answered on the connection. -/
def handNoid (w : Worker) (c : ConnId) : Worker :=
  { w with
    client := some c
    status := .workerWaitResult }

/-- `_add_worker` finds such a task. -/
def giveNoid (w : Worker) (d : ConnId) : Worker :=
  { w with
    client := if w.failOnDisconnect then some d else w.client
    status := .workerWaitResult }

/-- Either of them with a task that is answered by id. -/
def takeId (w : Worker) (c : ConnId) : Worker :=
  { w with
    client := if w.failOnDisconnect then some c else w.client
    status := .net }

/-- The error exits of `client_request`, and the end of `_add_worker` without a
task. -/
def wait (w : Worker) : Worker := { w with status := .workerWaitJob }

/-- `worker_result_noid`. -/
def post (w : Worker) : Worker :=
  if w.workerMode then { w with client := none }
  else { w with client := none, noid := false, failOnDisconnect := false }

/-- The block at `HTTP_START`; a worker that owes a result and a connection in
worker mode keep their flags. -/
def begin (w : Worker) : Worker :=
  if w.status = .workerWaitResult ∨ w.workerMode then w
  else { w with failOnDisconnect := false, client := none, noid := false }

/-- `noid` and `fail_on_disconnect` of `get+`, worker mode or `no_id`. -/
def noIdMode (w : Worker) : Worker := { w with noid := true, failOnDisconnect := true }

def failMode (w : Worker) : Worker := { w with failOnDisconnect := true }

end Worker

/-! ### What the actions of the server do to a worker -/

namespace Server

def workerOf (s : Server) (w : ConnId) : Worker :=
  { status := (s.conns w).status
    noid := (s.conns w).noid
    workerMode := (s.conns w).workerMode
    failOnDisconnect := (s.conns w).failOnDisconnect
    client := (s.conns w).client }

/-- An action that returns leaves the worker so. -/
abbrev Leaves (w : ConnId) (worker : Worker) (result : Result) : Prop :=
  result.Ends (fun _ t => t.workerOf w = worker) fun _ _ => True

variable {s t : Server} {w c : ConnId} {worker : Worker}

theorem workerOf_conns (same : t.conns w = s.conns w) : t.workerOf w = s.workerOf w := by
  unfold workerOf
  rw [same]

theorem workerOf_modify (change : Conn → Conn) :
    (s.modify w change).workerOf w =
      { status := (change (s.conns w)).status
        noid := (change (s.conns w)).noid
        workerMode := (change (s.conns w)).workerMode
        failOnDisconnect := (change (s.conns w)).failOnDisconnect
        client := (change (s.conns w)).client } := by
  unfold workerOf
  rw [modify_self]

theorem workerOf_other (differs : w ≠ c) (change : Conn → Conn) :
    (s.modify c change).workerOf w = s.workerOf w :=
  workerOf_conns (by rw [modify_conns, if_neg differs])

theorem workerOf_blind (c : ConnId) (change : Conn → Conn)
    (blind : ∀ conn, (change conn).status = conn.status ∧ (change conn).noid = conn.noid ∧
      (change conn).workerMode = conn.workerMode ∧
      (change conn).failOnDisconnect = conn.failOnDisconnect ∧ (change conn).client = conn.client) :
    (s.modify c change).workerOf w = s.workerOf w := by
  by_cases same : w = c
  · obtain ⟨status, noid, workerMode, failOnDisconnect, client⟩ := blind (s.conns c)
    rw [same, workerOf_modify, status, noid, workerMode, failOnDisconnect, client]
    rfl
  · exact workerOf_other same change

theorem workerOf_link (c : ConnId) : (s.link c).workerOf w = s.workerOf w :=
  workerOf_blind c _ fun _ => ⟨rfl, rfl, rfl, rfl, rfl⟩

theorem workerOf_unlinked (c : ConnId) : (s.unlinked c).workerOf w = s.workerOf w := by
  unfold workerOf
  rw [unlinked_conns]

theorem workerOf_sent (c : ConnId) (response : Response) :
    (s.sent c response).workerOf w = s.workerOf w :=
  workerOf_blind c (fun conn => { conn with
    sendBuffer := conn.sendBuffer ++ response.head conn.keepAlive ++
      Response.tail s.jsonrpc2 response.payload
    writing := true }) fun _ => ⟨rfl, rfl, rfl, rfl, rfl⟩

theorem workerOf_setQueue (i j : Nat) (queue : Queue) :
    (s.setQueue i j queue).workerOf w = s.workerOf w := by
  unfold setQueue
  cases s.line i with
  | none => rfl
  | some line => rfl

theorem workerOf_eraseWorker (i j p : Nat) : (s.eraseWorker i j p).workerOf w = s.workerOf w := by
  unfold eraseWorker
  cases s.queue i j with
  | none => rfl
  | some queue => exact workerOf_setQueue i j _

theorem workerOf_takeMessage (i j p : Nat) (message : Message) :
    (s.takeMessage i j p message).workerOf w = s.workerOf w := by
  unfold takeMessage eraseMessage
  cases s.queue i j with
  | none => rfl
  | some queue => exact workerOf_setQueue i j _

theorem send_leaves (response : Response) {next : Server → Result}
    (later : ∀ u, u.workerOf w = t.workerOf w → Leaves w worker (next u)) :
    Leaves w worker ((t.send c response).andThen next) := by
  rw [Leaves, Ends_andThen]
  apply send_ends
  · intro _
    exact later _ (workerOf_sent c response)
  · intro _
    trivial

theorem dropEntry_leaves {i j p : Nat} {next : Server → Result}
    (later : ∀ u, u.workerOf w = s.workerOf w → Leaves w worker (next u)) :
    Leaves w worker ((s.dropEntry i j p).andThen next) := by
  rw [Leaves, Ends_andThen, dropEntry]
  cases s.workerAt i j p with
  | none => trivial
  | some other =>
      apply unlink_ends
      · intro _
        exact later _ ((workerOf_unlinked other).trans (workerOf_eraseWorker i j p))
      · intro _
        trivial

/-- The worker after a change of itself, from the worker before. -/
theorem workerOf_change (change : Conn → Conn) (effect : Worker → Worker)
    (same : s.workerOf w = worker)
    (agree : ∀ conn : Conn,
      (⟨(change conn).status, (change conn).noid, (change conn).workerMode,
        (change conn).failOnDisconnect, (change conn).client⟩ : Worker) =
      effect ⟨conn.status, conn.noid, conn.workerMode, conn.failOnDisconnect, conn.client⟩) :
    (s.modify w change).workerOf w = effect worker := by
  rw [workerOf_modify, agree, ← same]
  rfl

theorem register_leaves (i : Nat) : Leaves w (s.workerOf w).wait (s.register w i) := by
  unfold register
  simp only
  cases s.queue i (s.conns w).nloop with
  | none => trivial
  | some queue =>
      exact workerOf_change (fun conn => { conn with status := .workerWaitJob }) Worker.wait
        ((workerOf_link w).trans (workerOf_setQueue i _ _)) fun _ => rfl

theorem giveAsync_leaves (i j p : Nat) : Leaves w (s.workerOf w).takeAsync (s.giveAsync w i j p) := by
  unfold giveAsync
  split
  · trivial
  · split
    · refine send_leaves _ fun u same => ?_
      exact same.trans (workerOf_change afterAsync Worker.takeAsync (workerOf_takeMessage i j p _)
        fun _ => rfl)
    · trivial

/-- The client a worker fails with on a disconnect. -/
theorem workerOf_failing (d : ConnId) (same : s.workerOf w = worker) :
    (if (s.conns w).failOnDisconnect then
      (s.modify w fun conn => { conn with client := some d }).link d else s).workerOf w =
      { worker with client := if worker.failOnDisconnect then some d else worker.client } := by
  have flag : (s.conns w).failOnDisconnect = worker.failOnDisconnect := by
    rw [← same]
    rfl
  rw [flag]
  split
  · exact (workerOf_link d).trans (workerOf_change (fun conn => { conn with client := some d })
      (fun worker => { worker with client := some d }) same fun _ => rfl)
  · exact same

theorem giveNoid_leaves {i j p : Nat} {message : Message} {d : ConnId} (differs : w ≠ d)
    (found : s.messageAt i j p = some message) (conn : message.conn = some d) :
    Leaves w ((s.workerOf w).giveNoid d) (s.giveNoid w i j p) := by
  have taken : (((s.takeMessage i j p message).modify d fun conn =>
      { conn with status := .busy }).workerOf w) = s.workerOf w :=
    (workerOf_other differs _).trans (workerOf_takeMessage i j p message)
  unfold giveNoid
  rw [found]
  simp only
  rw [conn]
  refine send_leaves _ fun u same => ?_
  exact same.trans (workerOf_change (fun conn => { conn with status := .workerWaitResult })
    (fun worker => { worker with status := .workerWaitResult }) (workerOf_failing d taken) fun _ => rfl)

theorem takeId_workerOf {random : Nat} {id : Bytes} {d : ConnId} (taken : s.takeId d random = some (t, id)) :
    t.workerOf w = s.workerOf w := by
  unfold takeId at taken
  cases found : (s.conns d).http.requestId s.generated random with
  | error error =>
      rw [found] at taken
      cases taken
  | ok pair =>
      rw [found] at taken
      cases taken
      exact workerOf_blind d (fun conn => { conn with http := pair.1 }) fun _ => ⟨rfl, rfl, rfl, rfl, rfl⟩

theorem giveId_leaves {i j p random : Nat} {message : Message} {d : ConnId} (differs : w ≠ d)
    (found : s.messageAt i j p = some message) (conn : message.conn = some d) :
    Leaves w ((s.workerOf w).takeId d) (s.giveId w i j p random) := by
  rw [giveId_eq found conn]
  cases taken : ((s.takeMessage i j p message).claimed d).takeId d random with
  | none => trivial
  | some pair =>
      obtain ⟨t, id⟩ := pair
      have before : t.workerOf w = s.workerOf w :=
        (takeId_workerOf taken).trans ((workerOf_other differs _).trans (workerOf_takeMessage i j p message))
      simp only
      unfold insertServe
      refine send_leaves _ fun u same => ?_
      have entered : ((u.insertWait id d).link d).workerOf w =
          { s.workerOf w with
            client := if (s.workerOf w).failOnDisconnect then some d else (s.workerOf w).client } :=
        (workerOf_link d).trans (same.trans (workerOf_failing d before))
      exact workerOf_change (fun conn => { conn with status := .net })
        (fun worker => { worker with status := .net }) entered fun _ => rfl

theorem handAsync_leaves {i j p : Nat} (c : ConnId) (name : Bytes) (found : s.workerAt i j p = some w) :
    Leaves w (s.workerOf w).claim.takeAsync (s.handAsync c i j p name) := by
  unfold handAsync
  rw [found]
  refine dropEntry_leaves fun u dropped => ?_
  refine send_leaves _ fun v same => ?_
  exact same.trans (workerOf_change afterAsync (fun worker => worker.claim.takeAsync) dropped
    fun _ => rfl)

theorem handNoid_leaves {i j p : Nat} (differs : w ≠ c) (name : Bytes)
    (found : s.workerAt i j p = some w) :
    Leaves w ((s.workerOf w).claim.handNoid c) (s.handNoid c i j p name) := by
  unfold handNoid
  rw [found]
  refine dropEntry_leaves fun u dropped => ?_
  refine send_leaves _ fun v same => ?_
  have held := workerOf_change (fun conn => { conn with client := some c })
    (fun worker => { worker with client := some c }) dropped fun _ => rfl
  have linked := (workerOf_other differs fun conn => { conn with status := .clientWaitResult }).trans
    ((workerOf_link c).trans held)
  exact same.trans (workerOf_change (fun conn => { conn with status := .workerWaitResult })
    (fun worker => { worker with status := .workerWaitResult }) linked fun _ => rfl)

theorem handId_leaves {i j p random : Nat} (differs : w ≠ c) (name : Bytes)
    (found : s.workerAt i j p = some w) :
    Leaves w ((s.workerOf w).claim.takeId c) (s.handId c i j p name random) := by
  rw [handId_eq found]
  refine dropEntry_leaves fun u dropped => ?_
  cases taken : u.takeId c random with
  | none => trivial
  | some pair =>
      obtain ⟨t, id⟩ := pair
      have before : t.workerOf w = s.workerOf w := (takeId_workerOf taken).trans dropped
      simp only
      unfold insertCall
      refine send_leaves _ fun v same => ?_
      have entered : (((v.insertWait id c).link c).modify c fun conn =>
          { conn with status := .clientWaitResult }).workerOf w =
          { s.workerOf w with
            client := if (s.workerOf w).failOnDisconnect then some c else (s.workerOf w).client } :=
        (workerOf_other differs _).trans ((workerOf_link c).trans (same.trans (workerOf_failing c before)))
      exact workerOf_change (fun conn => { conn with status := .net })
        (fun worker => { worker with status := .net }) entered fun _ => rfl

theorem undo_leaves {i j p : Nat} (refusal : Response) (found : s.workerAt i j p = some w) :
    Leaves w (s.workerOf w).claim.wait (s.undo c i j p refusal) := by
  unfold undo
  rw [found]
  refine dropEntry_leaves fun u dropped => ?_
  have waits := workerOf_change (fun conn => { conn with status := .workerWaitJob }) Worker.wait
    ((workerOf_link w).trans dropped) fun _ => rfl
  simp only
  split
  · trivial
  · refine send_leaves _ fun v same => ?_
    exact same.trans ((workerOf_setQueue _ _ _).trans waits)

theorem postNoid_leaves {d : ConnId} (differs : w ≠ d) (client : (s.conns w).client = some d) :
    Leaves w (s.workerOf w).post (s.postNoid w) := by
  unfold postNoid
  simp only
  rw [client]
  simp only
  have agree : ∀ conn : Conn, ∀ after,
      after = (if conn.workerMode then { conn with client := none }
        else { conn with client := none, noid := false, failOnDisconnect := false }) →
      (⟨after.status, after.noid, after.workerMode, after.failOnDisconnect, after.client⟩ : Worker) =
        Worker.post ⟨conn.status, conn.noid, conn.workerMode, conn.failOnDisconnect, conn.client⟩ := by
    intro conn after afterEq
    rw [afterEq]
    unfold Worker.post
    cases conn.workerMode <;> rfl
  have posted := workerOf_change (fun conn => if conn.workerMode then { conn with client := none }
    else { conn with client := none, noid := false, failOnDisconnect := false }) Worker.post
    (show { s with stats := { s.stats with result := s.stats.result + 1 } }.workerOf w = s.workerOf w
      from rfl) fun conn => agree conn _ rfl
  rw [Leaves, Ends_andThen]
  apply unlink_ends
  · intro _
    have kept := (workerOf_unlinked d).trans posted
    split
    · exact kept
    · refine send_leaves _ fun v same => ?_
      exact same.trans ((workerOf_other differs _).trans kept)
  · intro _
    trivial

theorem begin_leaves (taken line : Bytes) : Leaves w (s.workerOf w).begin (s.begin w taken line) := by
  unfold begin
  simp only
  have cleared : ((s.note (.taken w taken)).modify w fun conn =>
      { conn with http := conn.http.clearRequest conn.workerMode }).workerOf w = s.workerOf w :=
    workerOf_blind w _ fun _ => ⟨rfl, rfl, rfl, rfl, rfl⟩
  generalize (s.note (.taken w taken)).modify w (fun conn =>
    { conn with http := conn.http.clearRequest conn.workerMode }) = t at cleared ⊢
  rw [← cleared, Leaves, Ends_andThen]
  have last : ∀ u : Server, u.workerOf w = (t.workerOf w).begin → ∀ change : Conn → Conn,
      (∀ conn, (change conn).status = conn.status ∧ (change conn).noid = conn.noid ∧
        (change conn).workerMode = conn.workerMode ∧
        (change conn).failOnDisconnect = conn.failOnDisconnect ∧ (change conn).client = conn.client) →
      (u.modify w change).workerOf w = (t.workerOf w).begin :=
    fun u begun change blind => (workerOf_blind w change blind).trans begun
  have keeps : (t.conns w).status = .workerWaitResult ∨ (t.conns w).workerMode = true →
      t.workerOf w = (t.workerOf w).begin := fun cause => (if_pos cause).symm
  by_cases owes : (t.conns w).status = .workerWaitResult
  · rw [if_pos owes]
    by_cases noid : (t.conns w).noid = true
    · rw [if_pos noid]
      exact last t (keeps (Or.inl owes)) _ fun _ => ⟨rfl, rfl, rfl, rfl, rfl⟩
    · rw [if_neg noid]
      trivial
  · rw [if_neg owes]
    by_cases mode : (t.conns w).workerMode = true
    · rw [if_pos mode]
      by_cases async : (t.conns w).status = .workerModeAsync
      · rw [if_pos async]
        exact last t (keeps (Or.inr mode)) _ fun _ => ⟨rfl, rfl, rfl, rfl, rfl⟩
      · rw [if_neg async]
        trivial
    · rw [if_neg mode]
      have resets : (t.workerOf w).begin =
          { t.workerOf w with failOnDisconnect := false, client := none, noid := false } := by
        refine if_neg fun cause => ?_
        rcases cause with owing | inMode
        · exact owes owing
        · exact mode inMode
      have reset : ∀ u : Server, u.workerOf w = { t.workerOf w with failOnDisconnect := false } →
          (u.modify w fun conn => { conn with client := none, noid := false }).workerOf w =
            (t.workerOf w).begin := by
        intro u same
        rw [resets]
        exact workerOf_change (fun conn => { conn with client := none, noid := false })
          (fun worker => { worker with client := none, noid := false }) same fun _ => rfl
      have opened := workerOf_change (fun conn => { conn with failOnDisconnect := false })
        (fun worker => { worker with failOnDisconnect := false }) (rfl : t.workerOf w = t.workerOf w)
        fun _ => rfl
      rw [Ends_andThen]
      cases (t.conns w).client with
      | none => exact last _ (reset _ opened) _ fun _ => ⟨rfl, rfl, rfl, rfl, rfl⟩
      | some d =>
          apply unlink_ends
          · intro _
            exact last _ (reset _ ((workerOf_unlinked d).trans opened)) _
              fun _ => ⟨rfl, rfl, rfl, rfl, rfl⟩
          · intro _
            trivial

theorem noIdMode_leaves : Leaves w (s.workerOf w).noIdMode ((Action.noIdMode w).apply s) :=
  workerOf_change (fun conn => { conn with noid := true, failOnDisconnect := true }) Worker.noIdMode
    rfl fun _ => rfl

theorem failMode_leaves : Leaves w (s.workerOf w).failMode ((Action.failMode w).apply s) :=
  workerOf_change (fun conn => { conn with failOnDisconnect := true }) Worker.failMode rfl fun _ => rfl

end Server

end Ijson
