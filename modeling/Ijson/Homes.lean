/-
The loop of a connection, what it has read, and the ids in use.

A connection belongs to the loop that has accepted it, and only its own parser
changes what has been read of a request.  The other actions bring an id into use
only where a client is asked for one or `generate_id` is called.
-/

import Ijson.Ids
import Ijson.Receive
import Ijson.RegistryWrites

namespace Ijson

/-- How far the parser is, with the bytes it has kept. -/
structure Intake where
  step : HttpStep
  contentLength : Int
  buffer : Buffer
  headerOption : Option View

def Http.intake (http : Http) : Intake :=
  { step := http.step
    contentLength := http.contentLength
    buffer := http.buffer
    headerOption := http.headerOption }

/-- The timeout of a worker and the deadline that goes with it. -/
def Http.deadline (http : Http) : Nat × Nat := (http.ping, http.pingTimeout)

def Conn.bound (conn : Conn) : Nat × Intake := (conn.nloop, conn.http.intake)

/-- The same, and whether the connection is closed. -/
def Conn.held (conn : Conn) : Bool × Nat × Intake := (conn.closed, conn.bound)

/-- The connections belong to the same loops. -/
structure Grounded (s t : Server) : Prop where
  accepted : t.accepted = s.accepted
  threads : t.threads = s.threads
  nloop : ∀ x, (t.conns x).nloop = (s.conns x).nloop

/-- The same, nothing was read, and closed connections are still closed. -/
structure Unfed (s t : Server) : Prop where
  accepted : t.accepted = s.accepted
  threads : t.threads = s.threads
  arrays : t.arrays = s.arrays
  bound : ∀ x, (t.conns x).bound = (s.conns x).bound
  closed : ∀ x, (s.conns x).closed = true → (t.conns x).closed = true

/-- The id of a request and the name of its connection. -/
def Http.labels (http : Http) : Bytes × Bytes := (http.id, http.connectionId)

/-- The id is in use: a connection bears it, or a result is waited for under it. -/
def Server.uses (s : Server) (id : Bytes) : Prop :=
  (∃ x, (s.conns x).http.id = id ∨ (s.conns x).http.connectionId = id) ∨ ∃ d, (id, d) ∈ s.waitResponse

/-- Where ids come from: some are chosen by a client or worker, others are made
with the random number. -/
structure Naming where
  chosen : Bytes → Prop
  random : Nat

/-- A member `id` of its JSON is what the client has chosen. -/
def Naming.reads (naming : Naming) (s : Server) (d : ConnId) : Prop :=
  ∀ json id, Http.scanFor (ascii "id") ((s.conns d).http.json.data.length + 1) (s.conns d).http.json =
    .ok (json, some id) → naming.chosen id

/-- The id was in use before, was chosen, or has been made in between. -/
def Issued (naming : Naming) (s t : Server) (id : Bytes) : Prop :=
  s.uses id ∨ naming.chosen id ∨
    ∃ index, s.generated ≤ index ∧ index < t.generated ∧ id = generateId index naming.random

/-- The same, no deadline was moved, and no id has come into use otherwise. -/
structure Unmoved (naming : Naming) (s t : Server) : Prop extends Unfed s t where
  deadline : ∀ x, (t.conns x).http.deadline = (s.conns x).http.deadline
  counter : s.generated ≤ t.generated
  uses : ∀ id, t.uses id → Issued naming s t id

theorem Server.uses_of_labels {s t : Server} {id : Bytes} (used : t.uses id)
    (labels : ∀ x, (t.conns x).http.labels = (s.conns x).http.labels)
    (pending : t.waitResponse ⊆ s.waitResponse) : s.uses id := by
  rcases used with ⟨x, bears⟩ | ⟨d, waits⟩
  · have same := labels x
    rw [Http.labels, Http.labels, Prod.mk.injEq] at same
    rw [same.1, same.2] at bears
    exact Or.inl ⟨x, bears⟩
  · exact Or.inr ⟨d, pending waits⟩

theorem Issued.later {naming : Naming} {s t u : Server} {id : Bytes} (issued : Issued naming s t id)
    (counter : t.generated ≤ u.generated) : Issued naming s u id := by
  rcases issued with early | chosen | ⟨index, low, high, made⟩
  · exact Or.inl early
  · exact Or.inr (Or.inl chosen)
  · exact Or.inr (Or.inr ⟨index, low, Nat.lt_of_lt_of_le high counter, made⟩)

theorem Unfed.grounded {s t : Server} (unfed : Unfed s t) : Grounded s t :=
  { accepted := unfed.accepted
    threads := unfed.threads
    nloop := fun x => congrArg Prod.fst (unfed.bound x) }

theorem Unfed.intake {s t : Server} (unfed : Unfed s t) (x : ConnId) :
    (t.conns x).http.intake = (s.conns x).http.intake :=
  congrArg Prod.snd (unfed.bound x)

namespace Unfed

variable {s t u : Server}

theorem refl (s : Server) : Unfed s s := ⟨rfl, rfl, rfl, fun _ => rfl, fun _ closed => closed⟩

theorem trans (first : Unfed s t) (second : Unfed t u) : Unfed s u :=
  { accepted := second.accepted.trans first.accepted
    threads := second.threads.trans first.threads
    arrays := second.arrays.trans first.arrays
    bound := fun x => (second.bound x).trans (first.bound x)
    closed := fun x closed => second.closed x (first.closed x closed) }

theorem shuts (unfed : Unfed s t) {c : ConnId} {change : Conn → Conn}
    (bound : (change (t.conns c)).bound = (t.conns c).bound)
    (closed : (t.conns c).closed = true → (change (t.conns c)).closed = true) :
    Unfed s (t.modify c change) := by
  apply unfed.trans
  refine ⟨rfl, rfl, rfl, fun x => ?_, fun x was => ?_⟩
  · rw [Server.modify_conns]
    by_cases same : x = c
    · rw [if_pos same, same, bound]
    · rw [if_neg same]
  · rw [Server.modify_conns]
    by_cases same : x = c
    · rw [if_pos same]
      exact closed (same ▸ was)
    · rw [if_neg same]
      exact was

theorem modify (unfed : Unfed s t) (c : ConnId) (change : Conn → Conn)
    (keeps : ∀ conn, (change conn).held = conn.held) : Unfed s (t.modify c change) := by
  have same := keeps (t.conns c)
  exact unfed.shuts (congrArg Prod.snd same) fun was => (congrArg Prod.fst same).trans was

theorem changed {c : ConnId} {change : Conn → Conn} (unfed : Unfed s t)
    (keeps : ∀ conn, (change conn).held = conn.held) : Unfed s (t.modify c change) :=
  unfed.modify c change keeps

theorem beside (unfed : Unfed s t) (accepted : u.accepted = t.accepted)
    (threads : u.threads = t.threads) (arrays : u.arrays = t.arrays) (conns : u.conns = t.conns) :
    Unfed s u :=
  unfed.trans ⟨accepted, threads, arrays, fun x => by rw [conns], fun x closed => by rw [conns]; exact closed⟩

theorem note {event : Event} (unfed : Unfed s t) : Unfed s (t.note event) :=
  unfed.beside rfl rfl rfl rfl

end Unfed

namespace Unmoved

variable {naming : Naming} {s t u : Server}

theorem refl (s : Server) : Unmoved naming s s := ⟨Unfed.refl s, fun _ => rfl, Nat.le_refl _, fun _ => Or.inl⟩

theorem trans (first : Unmoved naming s t) (second : Unmoved naming t u) : Unmoved naming s u where
  toUnfed := first.toUnfed.trans second.toUnfed
  deadline := fun x => (second.deadline x).trans (first.deadline x)
  counter := Nat.le_trans first.counter second.counter
  uses := by
    intro id used
    rcases second.uses id used with early | chosen | ⟨index, low, high, made⟩
    · exact (first.uses id early).later second.counter
    · exact Or.inr (Or.inl chosen)
    · exact Or.inr (Or.inr ⟨index, Nat.le_trans first.counter low, high, made⟩)

theorem quiet (unmoved : Unmoved naming s t) (unfed : Unfed t u)
    (deadline : ∀ x, (u.conns x).http.deadline = (t.conns x).http.deadline)
    (counter : t.generated ≤ u.generated)
    (labels : ∀ x, (u.conns x).http.labels = (t.conns x).http.labels)
    (pending : u.waitResponse ⊆ t.waitResponse) : Unmoved naming s u :=
  unmoved.trans ⟨unfed, deadline, counter, fun _ used => Or.inl (Server.uses_of_labels used labels pending)⟩

theorem shuts (unmoved : Unmoved naming s t) {c : ConnId} {change : Conn → Conn}
    (bound : (change (t.conns c)).bound = (t.conns c).bound)
    (deadline : (change (t.conns c)).http.deadline = (t.conns c).http.deadline)
    (labels : (change (t.conns c)).http.labels = (t.conns c).http.labels)
    (closed : (t.conns c).closed = true → (change (t.conns c)).closed = true) :
    Unmoved naming s (t.modify c change) := by
  refine unmoved.quiet ((Unfed.refl t).shuts bound closed) (fun x => ?_) (Nat.le_refl _) (fun x => ?_)
    (List.Subset.refl _)
  · rw [Server.modify_conns]
    by_cases same : x = c
    · rw [if_pos same, same, deadline]
    · rw [if_neg same]
  · rw [Server.modify_conns]
    by_cases same : x = c
    · rw [if_pos same, same, labels]
    · rw [if_neg same]

theorem modify (unmoved : Unmoved naming s t) (c : ConnId) (change : Conn → Conn)
    (keeps : ∀ conn, ((change conn).http.deadline, (change conn).http.labels, (change conn).held) =
      (conn.http.deadline, conn.http.labels, conn.held)) : Unmoved naming s (t.modify c change) := by
  have same := keeps (t.conns c)
  have held : (change (t.conns c)).held = (t.conns c).held := congrArg (·.2.2) same
  exact unmoved.shuts (congrArg Prod.snd held) (congrArg Prod.fst same) (congrArg (·.2.1) same) fun was =>
    (congrArg Prod.fst held).trans was

theorem changed {c : ConnId} {change : Conn → Conn} (unmoved : Unmoved naming s t)
    (keeps : ∀ conn, ((change conn).http.deadline, (change conn).http.labels, (change conn).held) =
      (conn.http.deadline, conn.http.labels, conn.held)) : Unmoved naming s (t.modify c change) :=
  unmoved.modify c change keeps

theorem beside (unmoved : Unmoved naming s t) (accepted : u.accepted = t.accepted)
    (threads : u.threads = t.threads) (arrays : u.arrays = t.arrays) (conns : u.conns = t.conns)
    (ids : u.ids = t.ids) : Unmoved naming s u := by
  have waits : u.waitResponse = t.waitResponse := congrArg Ids.waitResponse ids
  exact unmoved.quiet ((Unfed.refl t).beside accepted threads arrays conns) (fun x => by rw [conns])
    (Nat.le_of_eq (congrArg Ids.generated ids).symm) (fun x => by rw [conns]) fun _ => waits ▸ id

theorem forgets {pending : List (Bytes × ConnId)} (unmoved : Unmoved naming s t)
    (fewer : pending ⊆ t.waitResponse) : Unmoved naming s { t with waitResponse := pending } :=
  unmoved.quiet ((Unfed.refl t).beside rfl rfl rfl rfl) (fun _ => rfl) (Nat.le_refl _) (fun _ => rfl) fewer

theorem eraseWait {id : Bytes} (unmoved : Unmoved naming s t) : Unmoved naming s (t.eraseWait id) :=
  unmoved.forgets fun _ => List.mem_of_mem_filter

/-- A result is waited for under an id that is in use. -/
theorem insertWait {id : Bytes} {d : ConnId} (unmoved : Unmoved naming s t) (issued : Issued naming s t id) :
    Unmoved naming s (t.insertWait id d) where
  toUnfed := unmoved.toUnfed.beside rfl rfl rfl rfl
  deadline := unmoved.deadline
  counter := unmoved.counter
  uses := by
    intro other used
    rcases used with bears | ⟨e, waits⟩
    · exact unmoved.uses other (Or.inl bears)
    · rcases List.mem_cons.mp waits with same | before
      · cases same
        exact issued
      · exact unmoved.uses other (Or.inr ⟨e, List.mem_of_mem_filter before⟩)

theorem renamed {c : ConnId} {http : Http} {index : Nat} (unmoved : Unmoved naming s t)
    (keeps : (http.deadline, http.intake) = ((t.conns c).http.deadline, (t.conns c).http.intake))
    (counter : t.generated ≤ index)
    (labels : ∀ id, http.id = id ∨ http.connectionId = id →
      t.uses id ∨ naming.chosen id ∨ t.generated < index ∧ id = generateId t.generated naming.random) :
    Unmoved naming s ({ t with generated := index }.modify c fun conn => { conn with http := http }) := by
  have counted : Unfed t { t with generated := index } := (Unfed.refl t).beside rfl rfl rfl rfl
  refine unmoved.trans ⟨counted.shuts (congrArg (Prod.mk (t.conns c).nloop) (congrArg Prod.snd keeps))
    fun closed => closed, fun x => ?_, counter, fun id used => ?_⟩
  · rw [Server.modify_conns]
    by_cases same : x = c
    · rw [if_pos same, same]
      exact congrArg Prod.fst keeps
    · rw [if_neg same]
  · rcases used with ⟨x, bears⟩ | waits
    · rw [Server.modify_conns] at bears
      by_cases same : x = c
      · rw [if_pos same] at bears
        rcases labels id bears with early | chosen | ⟨more, made⟩
        · exact Or.inl early
        · exact Or.inr (Or.inl chosen)
        · exact Or.inr (Or.inr ⟨t.generated, Nat.le_refl _, more, made⟩)
      · rw [if_neg same] at bears
        exact Or.inl (Or.inl ⟨x, bears⟩)
    · exact Or.inl (Or.inr waits)

theorem link {c : ConnId} (unmoved : Unmoved naming s t) : Unmoved naming s (t.link c) :=
  unmoved.changed fun _ => rfl

theorem unlinked {c : ConnId} (unmoved : Unmoved naming s t) : Unmoved naming s (t.unlinked c) := by
  have counted := unmoved.modify c (fun conn => { conn with link := (t.conns c).link - 1 }) fun _ => rfl
  exact counted.beside rfl rfl rfl rfl rfl

theorem note {event : Event} (unmoved : Unmoved naming s t) : Unmoved naming s (t.note event) :=
  unmoved.beside rfl rfl rfl rfl rfl

theorem enter {stage : Stage} (unmoved : Unmoved naming s t) : Unmoved naming s (t.enter stage) :=
  unmoved.beside rfl rfl rfl rfl rfl

theorem setQueue {i j : Nat} {queue : Queue} (unmoved : Unmoved naming s t) :
    Unmoved naming s (t.setQueue i j queue) := by
  unfold Server.setQueue
  cases t.line i with
  | none => exact unmoved
  | some line => exact unmoved.beside rfl rfl rfl rfl rfl

theorem eraseWorker {i j p : Nat} (unmoved : Unmoved naming s t) : Unmoved naming s (t.eraseWorker i j p) := by
  unfold Server.eraseWorker
  cases t.queue i j with
  | none => exact unmoved
  | some queue => exact unmoved.setQueue

theorem eraseMessage {i j p : Nat} (unmoved : Unmoved naming s t) : Unmoved naming s (t.eraseMessage i j p) := by
  unfold Server.eraseMessage
  cases t.queue i j with
  | none => exact unmoved
  | some queue => exact unmoved.setQueue

theorem takeMessage {i j p : Nat} {message : Message} (unmoved : Unmoved naming s t) :
    Unmoved naming s (t.takeMessage i j p message) :=
  unmoved.eraseMessage.beside rfl rfl rfl rfl rfl

end Unmoved

/-- The steps of the parser from one part of a request to the next, and what it
stores. -/
def Action.parses : Action → Bool
  | .receive _ _ => true
  | .edit _ _ _ => true
  | .begin _ _ _ => true
  | .endHead _ _ _ => true
  | .rewind _ => true
  | _ => false

/-- The connection whose parser takes the step; what arrives is not its own yet. -/
def Action.reader : Action → Option ConnId
  | .edit c _ _ => some c
  | .begin c _ _ => some c
  | .endHead c _ _ => some c
  | .rewind c => some c
  | _ => none

theorem Action.reader_parses {action : Action} {c : ConnId} (reads : action.reader = some c) :
    action.parses = true := by
  cases action <;> first | rfl | cases reads

/-- The value of `std::rand()` an action would use. -/
def Action.random : Action → Nat
  | .nameConn _ random => random
  | .refuseCollision _ _ _ random => random
  | .giveId _ _ _ _ random => random
  | .handId _ _ _ _ _ random => random
  | .undoCollision _ _ _ _ random => random
  | _ => 0

/-- The client whose id the action takes. -/
def Action.asksId (s : Server) : Action → Option ConnId
  | .refuseCollision i j p _ => (s.messageAt i j p).bind (·.conn)
  | .giveId _ i j p _ => (s.messageAt i j p).bind (·.conn)
  | .handId c _ _ _ _ _ => some c
  | .undoCollision c _ _ _ _ => some c
  | _ => none

/-- The action reads nothing and moves no deadline. -/
abbrev Unmoves (naming : Naming) (s : Server) (result : Result) : Prop :=
  result.Ends (fun _ t => Unmoved naming s t) fun _ t => Unmoved naming s t

namespace Unmoved

open Server

section

variable {naming : Naming} {s t : Server} {result : Result} {next : Server → Result}

theorem Unmoves.andThen (grounds : Unmoves naming s result)
    (later : ∀ t, Unmoved naming s t → Unmoves naming s (next t)) : Unmoves naming s (result.andThen next) := by
  rw [Unmoves, Ends_andThen]
  exact Program.Ends.mono grounds (fun _ t after => later t after) fun _ _ after => after

theorem Unmoves.noexcept (grounds : Unmoves naming s result) : Unmoves naming s result.noexcept := by
  cases result with
  | returned after value => exact grounds
  | thrown after error => trivial
  | fault => trivial

theorem unlink_unmoved {c : ConnId} (unmoved : Unmoved naming s t) : Unmoves naming s (t.unlink c) :=
  unlink_ends (fun _ => unmoved.unlinked) fun _ => unmoved.unlinked

theorem send_unmoved {c : ConnId} {response : Response} (unmoved : Unmoved naming s t) :
    Unmoves naming s (t.send c response) :=
  send_ends (fun _ => note (changed unmoved fun _ => rfl)) fun _ => changed unmoved fun _ => rfl

theorem unlinkDirect_unmoved {d : Nat} (unmoved : Unmoved naming s t) : Unmoves naming s (t.unlinkDirect d) := by
  unfold unlinkDirect
  simp only
  split
  · trivial
  · exact beside unmoved rfl rfl rfl rfl rfl

theorem unlinkDirects_unmoved (messages : List Nat) (unmoved : Unmoved naming s t) :
    Unmoves naming s (t.unlinkDirects messages) := by
  induction messages generalizing t with
  | nil => exact unmoved
  | cons d rest ih => exact Unmoves.andThen (unlinkDirect_unmoved unmoved) fun u after => ih after

theorem dropEntry_unmoved {i j p : Nat} (unmoved : Unmoved naming s t) : Unmoves naming s (t.dropEntry i j p) := by
  unfold dropEntry
  cases t.workerAt i j p with
  | none => trivial
  | some w => exact unlink_unmoved unmoved.eraseWorker

theorem deleteMessage_unmoved {message : Message} (unmoved : Unmoved naming s t) :
    Unmoves naming s (t.deleteMessage message) := by
  unfold deleteMessage
  cases message.conn with
  | none => exact unmoved
  | some d => exact Unmoves.noexcept (unlink_unmoved unmoved)

theorem releaseClient_unmoved {c : ConnId} (unmoved : Unmoved naming s t) :
    Unmoves naming s (t.releaseClient c) := by
  unfold releaseClient
  cases (t.conns c).client with
  | none => trivial
  | some d => exact Unmoves.andThen (unlink_unmoved unmoved) fun u after => changed after fun _ => rfl

theorem requestId_kept {http read : Http} {index random : Nat} {generated : Bool}
    (found : http.requestId index random = .ok (read, generated)) :
    (read.deadline, read.intake) = (http.deadline, http.intake) := by
  unfold Http.requestId at found
  split at found
  · cases found
    rfl
  · split at found
    · cases found
    · split at found
      · cases found
        rfl
      · cases found
        rfl

/-- The id a dispatch uses is that of the request, a member of its JSON, or a new one. -/
theorem requestId_labels {http read : Http} {index random : Nat} {generated : Bool}
    (found : http.requestId index random = .ok (read, generated)) :
    read.connectionId = http.connectionId ∧ (read.id = http.id ∨
      (∃ json, Http.scanFor (ascii "id") (http.json.data.length + 1) http.json = .ok (json, some read.id)) ∨
      generated = true ∧ read.id = generateId index random) := by
  unfold Http.requestId at found
  split at found
  · cases found
    exact ⟨rfl, Or.inl rfl⟩
  · split at found
    · cases found
    · rename_i json member scanned
      split at found
      · cases found
        exact ⟨rfl, Or.inr (Or.inl ⟨json, scanned⟩)⟩
      · cases found
        exact ⟨rfl, Or.inr (Or.inr ⟨rfl, rfl⟩)⟩

theorem takeId_unmoved {d : ConnId} {id : Bytes} {u : Server} (unmoved : Unmoved naming s t)
    (reads : naming.reads s d) (http : (t.conns d).http = (s.conns d).http)
    (taken : t.takeId d naming.random = some (u, id)) : Unmoved naming s u ∧ Issued naming s u id := by
  unfold takeId at taken
  cases found : (t.conns d).http.requestId t.generated naming.random with
  | error error =>
      rw [found] at taken
      cases taken
  | ok result =>
      obtain ⟨read, generated⟩ := result
      rw [found] at taken
      cases taken
      obtain ⟨own, labelled⟩ := requestId_labels found
      have after : Unmoved naming s ({ t with
          generated := if generated then t.generated + 1 else t.generated }.modify d
            fun conn => { conn with http := read }) := by
        refine renamed unmoved (requestId_kept found) ?_ fun id bears => ?_
        · split
          · exact Nat.le_succ _
          · exact Nat.le_refl _
        · rcases bears with rfl | rfl
          · rcases labelled with same | ⟨json, scanned⟩ | ⟨rfl, made⟩
            · exact Or.inl (Or.inl ⟨d, Or.inl same.symm⟩)
            · rw [http] at scanned
              exact Or.inr (Or.inl (reads json _ scanned))
            · exact Or.inr (Or.inr ⟨Nat.lt_succ_self _, made⟩)
          · exact Or.inl (Or.inl ⟨d, Or.inr own.symm⟩)
      refine ⟨after, after.uses _ (Or.inl ⟨d, Or.inl ?_⟩)⟩
      rw [Server.modify_self]

theorem dropEntry_http (i j p : Nat) (d : ConnId) :
    (s.dropEntry i j p).Ends (fun _ t => (t.conns d).http = (s.conns d).http)
      fun _ t => (t.conns d).http = (s.conns d).http := by
  unfold dropEntry
  cases s.workerAt i j p with
  | none => trivial
  | some w =>
      have same : (((s.eraseWorker i j p).unlinked w).conns d).http = (s.conns d).http := by
        rw [Server.unlinked_conns, Server.eraseWorker_conns]
      exact unlink_ends (fun _ => same) fun _ => same

theorem reapList_unmoved (list : List ConnId) (unmoved : Unmoved naming s t) : Unmoves naming s (t.reapList list) := by
  induction list generalizing t with
  | nil => exact unmoved
  | cons c rest ih =>
      unfold reapList
      split
      · trivial
      · split
        · exact ih (changed unmoved fun _ => rfl)
        · exact ih unmoved

/-- A worker that fails with its connection holds its client. -/
theorem claimed_unmoved {c d : ConnId} (unmoved : Unmoved naming s t) :
    Unmoved naming s (if (t.conns c).failOnDisconnect then
      (t.modify c fun conn => { conn with client := some d }).link d else t) := by
  split
  · exact link (changed unmoved fun _ => rfl)
  · exact unmoved

end

variable {naming : Naming} (s : Server)

theorem popDirect_unmoved (c : ConnId) (sent : Option Nat) : Unmoves naming s (s.popDirect c sent) := by
  unfold popDirect
  cases (s.conns c).directMessage with
  | nil => exact refl s
  | cons d rest =>
      have popped : Unmoved naming s (s.modify c fun conn => { conn with directMessage := rest }) :=
        (refl s).modify c _ fun _ => rfl
      refine Unmoves.andThen (unlinkDirect_unmoved (note popped)) fun t after => ?_
      cases sent with
      | none => exact enter after
      | some sent => exact note (changed (beside after rfl rfl rfl rfl rfl) fun _ => rfl)

theorem flush_unmoved (c : ConnId) (sent : Option Nat) : Unmoves naming s (s.flush c sent) := by
  unfold flush
  refine Unmoves.andThen ?_ fun t after => shuts after ?_ ?_ ?_ fun closed => ?_
  · split
    · exact popDirect_unmoved s c sent
    · cases sent with
      | none => exact refl s
      | some sent => exact changed (beside (refl s) rfl rfl rfl rfl rfl) fun _ => rfl
  · split
    · split
      · rfl
      · rfl
    · rfl
  · split
    · split
      · rfl
      · rfl
    · rfl
  · split
    · split
      · rfl
      · rfl
    · rfl
  · split
    · split
      · exact closed
      · rfl
    · exact closed

theorem postNoid_unmoved (c : ConnId) : Unmoves naming s (s.postNoid c) := by
  unfold postNoid
  simp only
  have counted : Unmoved naming s { s with stats := { s.stats with result := s.stats.result + 1 } } :=
    (refl s).beside rfl rfl rfl rfl rfl
  cases (s.conns c).client with
  | none => exact counted
  | some d =>
      simp only
      refine Unmoves.andThen (unlink_unmoved (changed counted fun conn => ?_)) fun t after => ?_
      · split
        · rfl
        · rfl
      · split
        · exact enter after
        · refine Unmoves.andThen (send_unmoved (changed after fun _ => rfl)) fun u later => ?_
          exact enter later

theorem settle_unmoved (id : Bytes) (worker : Option ConnId) : Unmoves naming s (s.settle id worker) := by
  unfold settle
  cases s.waiting id with
  | none => trivial
  | some d =>
      refine Unmoves.andThen (unlink_unmoved (eraseWait (refl s))) fun t after => ?_
      split
      · exact after
      · exact Unmoves.andThen (send_unmoved after) fun u later => changed later fun _ => rfl

theorem resolve_unmoved (c : ConnId) (key : Bytes) : Unmoves naming s (s.resolve c key) := by
  have written : ∀ registry : Registry, Unmoved naming s { s with registry := registry } :=
    fun _ => (refl s).beside rfl rfl rfl rfl rfl
  unfold resolve
  split
  · simp only
    split
    · trivial
    · exact changed (written _) fun _ => rfl
  · trivial
  · exact written _
  · trivial

theorem leaveList_unmoved (c : ConnId) : Unmoves naming s (s.leaveList c) := by
  unfold leaveList
  cases (s.conns c).workerItem with
  | none => trivial
  | some i =>
      simp only
      cases s.line i with
      | none => trivial
      | some line =>
          have left : Unmoved naming s (s.setLine i { line with workers := line.workers.erase c }) :=
            (refl s).beside rfl rfl rfl rfl rfl
          exact Unmoves.andThen (Unmoves.noexcept (unlink_unmoved left))
            fun t after => changed after fun _ => rfl

theorem refuseNoId_unmoved (i j p : Nat) : Unmoves naming s (s.refuseNoId i j p) := by
  unfold refuseNoId
  split
  · trivial
  · split
    · trivial
    · exact send_unmoved (changed (takeMessage (refl s)) fun _ => rfl)

theorem refuseCollision_unmoved (i j p : Nat)
    (reads : ∀ d, (s.messageAt i j p).bind (·.conn) = some d → naming.reads s d) :
    Unmoves naming s (s.refuseCollision i j p naming.random) := by
  unfold refuseCollision
  split
  · trivial
  · rename_i message found
    split
    · trivial
    · rename_i d waits
      split
      · trivial
      · rename_i taken
        have asked := reads d (by rw [found]; exact waits)
        have unmoved := takeId_unmoved (takeMessage (refl s)) asked (by rw [takeMessage_conns]) taken
        exact Unmoves.andThen (send_unmoved unmoved.1) fun u later => changed later fun _ => rfl

theorem giveAsync_unmoved (c : ConnId) (i j p : Nat) : Unmoves naming s (s.giveAsync c i j p) := by
  unfold giveAsync
  split
  · trivial
  · split
    · refine Unmoves.andThen (send_unmoved (changed (takeMessage (refl s)) fun _ => rfl))
        fun u later => ?_
      exact enter (note (note later))
    · trivial

theorem giveNoid_unmoved (c : ConnId) (i j p : Nat) : Unmoves naming s (s.giveNoid c i j p) := by
  unfold giveNoid
  split
  · trivial
  · rename_i message _
    split
    · trivial
    · rename_i d _
      have taken : Unmoved naming s (s.takeMessage i j p message) := takeMessage (refl s)
      have claimed := claimed_unmoved (c := c) (d := d)
        (taken.modify d (fun conn => { conn with status := .busy }) fun _ => rfl)
      refine Unmoves.andThen (send_unmoved (changed claimed fun _ => rfl)) fun u later => ?_
      exact enter (note later)

theorem claimed_sends {t : Server} {c d : ConnId} {response : Response} (unmoved : Unmoved naming s t) :
    ((if (t.conns c).failOnDisconnect then (t.modify c fun conn => { conn with client := some d }).link d
      else t).send c response).Ends (fun _ u => Unmoved naming s u ∧ t.generated ≤ u.generated)
      fun _ u => Unmoved naming s u ∧ t.generated ≤ u.generated := by
  have since : Unmoves naming t ((if (t.conns c).failOnDisconnect then
      (t.modify c fun conn => { conn with client := some d }).link d else t).send c response) :=
    send_unmoved (claimed_unmoved (refl t))
  exact Program.Ends.mono since (fun _ u later => ⟨unmoved.trans later, later.counter⟩)
    fun _ u later => ⟨unmoved.trans later, later.counter⟩

theorem giveId_unmoved (c : ConnId) (i j p : Nat)
    (reads : ∀ d, (s.messageAt i j p).bind (·.conn) = some d → naming.reads s d) :
    Unmoves naming s (s.giveId c i j p naming.random) := by
  unfold giveId
  split
  · trivial
  · rename_i message found
    split
    · trivial
    · rename_i d waits
      have taken : Unmoved naming s (s.takeMessage i j p message) := takeMessage (refl s)
      have busy := taken.modify d (fun conn => { conn with status := .busy }) fun _ => rfl
      simp only
      split
      · trivial
      · rename_i named id takenEq
        obtain ⟨unmoved, issued⟩ := takeId_unmoved busy (reads d (by rw [found]; exact waits))
          (by rw [modify_self, takeMessage_conns]) takenEq
        rw [Unmoves, Ends_andThen]
        refine Program.Ends.mono (claimed_sends s unmoved) (fun _ u later => ?_) fun _ _ later => later.1
        have inserted := later.1.insertWait (d := d) (issued.later later.2)
        exact enter (note (changed (link inserted) fun _ => rfl))

theorem register_unmoved (c : ConnId) (i : Nat) : Unmoves naming s (s.register c i) := by
  unfold register
  simp only
  split
  · trivial
  · exact enter (changed (link (setQueue (refl s))) fun _ => rfl)

theorem subscribe_unmoved (c : ConnId) (i : Nat) (name : Bytes) : Unmoves naming s (s.subscribe c i name) := by
  unfold subscribe
  cases s.line i with
  | none => trivial
  | some line =>
      have joined : Unmoved naming s (s.setLine i { line with workers := c :: line.workers }) :=
        (refl s).beside rfl rfl rfl rfl rfl
      exact changed (link joined) fun _ => rfl

theorem handAsync_unmoved (c : ConnId) (i j p : Nat) (name : Bytes) :
    Unmoves naming s (s.handAsync c i j p name) := by
  unfold handAsync
  split
  · trivial
  · refine Unmoves.andThen (dropEntry_unmoved (refl s)) fun t after => ?_
    refine Unmoves.andThen (send_unmoved (changed after fun _ => rfl)) fun u later => ?_
    exact note (note (note (beside later rfl rfl rfl rfl rfl)))

theorem handNoid_unmoved (c : ConnId) (i j p : Nat) (name : Bytes) :
    Unmoves naming s (s.handNoid c i j p name) := by
  unfold handNoid
  split
  · trivial
  · rename_i w _
    refine Unmoves.andThen (dropEntry_unmoved (refl s)) fun t after => ?_
    have held := after.modify w (fun conn => { conn with client := some c }) fun _ => rfl
    have waits := (link (c := c) held).modify c (fun conn => { conn with status := .clientWaitResult })
      fun _ => rfl
    refine Unmoves.andThen (send_unmoved (changed waits fun _ => rfl)) fun u later => ?_
    exact enter (note later)

theorem handId_unmoved (c : ConnId) (i j p : Nat) (name : Bytes) (reads : naming.reads s c) :
    Unmoves naming s (s.handId c i j p name naming.random) := by
  unfold handId
  split
  · trivial
  · rename_i w _
    rw [Unmoves, Ends_andThen]
    refine Program.Ends.mono (Program.Ends.both (dropEntry_unmoved (refl s)) (dropEntry_http i j p c))
      (fun _ t after => ?_) fun _ _ after => after.1
    split
    · trivial
    · rename_i named id takenEq
      obtain ⟨unmoved, issued⟩ := takeId_unmoved after.1 reads after.2 takenEq
      rw [Ends_andThen]
      refine Program.Ends.mono (claimed_sends s unmoved) (fun _ u later => ?_) fun _ _ later => later.1
      have inserted := later.1.insertWait (d := c) (issued.later later.2)
      exact enter (note (changed (changed (link inserted) fun _ => rfl) fun _ => rfl))

theorem undo_unmoved {t : Server} (unmoved : Unmoved naming s t) (c : ConnId) (i j p : Nat)
    (refusal : Response) : Unmoves naming s (t.undo c i j p refusal) := by
  unfold undo
  split
  · trivial
  · rename_i w _
    refine Unmoves.andThen (dropEntry_unmoved unmoved) fun u after => ?_
    have back := (link (c := w) after).modify w (fun conn => { conn with status := .workerWaitJob })
      fun _ => rfl
    simp only
    split
    · trivial
    · exact Unmoves.andThen (send_unmoved (setQueue back)) fun v later => enter later

theorem enqueue_unmoved (c : ConnId) (i : Nat) (message : Message) :
    Unmoves naming s (s.enqueue c i message) := by
  unfold enqueue
  simp only
  split
  · trivial
  · exact changed (setQueue (refl s)) fun _ => rfl

theorem enqueueSync_unmoved (c : ConnId) (i : Nat) (name : Bytes) :
    Unmoves naming s (s.enqueueSync c i name) := by
  unfold enqueueSync
  refine Unmoves.andThen (enqueue_unmoved s c i _) fun t after => ?_
  exact enter (changed (link after) fun _ => rfl)

theorem enqueueAsync_unmoved (c : ConnId) (i : Nat) (name : Bytes) :
    Unmoves naming s (s.enqueueAsync c i name) := by
  unfold enqueueAsync
  refine Unmoves.andThen (enqueue_unmoved s c i _) fun t after => ?_
  exact changed (note (beside after rfl rfl rfl rfl rfl)) fun _ => rfl

theorem unhook_unmoved (key : Bytes) : Unmoves naming s (s.unhook key) := by
  unfold unhook
  split
  · exact (refl s).beside rfl rfl rfl rfl rfl
  · split
    · trivial
    · exact (refl s).beside rfl rfl rfl rfl rfl
  · trivial

theorem closeMessage_unmoved (j : Nat) : Unmoves naming s (s.closeMessage j) := by
  unfold closeMessage
  split
  · trivial
  · split
    · trivial
    · split
      · trivial
      · simp only
        split
        · exact (refl s).beside rfl rfl rfl rfl rfl
        · split
          · exact (refl s).beside rfl rfl rfl rfl rfl
          · exact send_unmoved (beside (refl s) rfl rfl rfl rfl rfl)

theorem closeWorker_unmoved (j : Nat) : Unmoves naming s (s.closeWorker j) := by
  unfold closeWorker
  split
  · trivial
  · split
    · trivial
    · split
      · trivial
      · refine Unmoves.andThen (unlink_unmoved (beside (refl s) rfl rfl rfl rfl rfl)) fun t after => ?_
        split
        · exact after
        · exact send_unmoved after

theorem popItem_unmoved : Unmoves naming s s.popItem := by
  unfold popItem
  split
  · trivial
  · split
    · trivial
    · refine Unmoves.andThen (Unmoves.noexcept (unlink_unmoved (beside (refl s) rfl rfl rfl rfl rfl)))
        fun t after => ?_
      exact changed after fun _ => rfl

theorem failNoid_unmoved (c : ConnId) : Unmoves naming s (s.failNoid c) := by
  unfold failNoid
  split
  · exact refl s
  · refine Unmoves.andThen ?_ fun t after => releaseClient_unmoved (changed after fun _ => rfl)
    split
    · exact refl s
    · exact send_unmoved (refl s)

theorem nameConn_unmoved (c : ConnId) : Unmoves naming s ((Action.nameConn c naming.random).apply s) := by
  refine renamed (refl s) rfl (Nat.le_succ _) fun id bears => ?_
  rcases bears with rfl | rfl
  · exact Or.inl (Or.inl ⟨c, Or.inl rfl⟩)
  · exact Or.inr (Or.inr ⟨Nat.lt_succ_self _, rfl⟩)

/-- Only the parser and `_check_timeout` move a deadline. -/
theorem apply_unmoved {action : Action} (other : action.parses = false)
    (known : ∀ loop garbage, action ≠ .accept loop garbage)
    (early : ∀ i j p now, action ≠ .expire i j p now) (draws : action.random = naming.random)
    (reads : ∀ d, action.asksId s = some d → naming.reads s d) : Unmoves naming s (action.apply s) := by
  have same : Unmoved naming s s := refl s
  cases action with
  | accept loop garbage => exact absurd rfl (known loop garbage)
  | receive | edit | begin | endHead | rewind => cases other
  | count => exact same.beside rfl rfl rfl rfl rfl
  | complete c => exact enter (note (changed (beside same rfl rfl rfl rfl rfl) fun _ => rfl))
  | shut c => exact enter (shuts same rfl rfl rfl fun _ => rfl)
  | retire c =>
      exact Unmoves.andThen (unlink_unmoved same) fun t after => enter (changed after fun _ => rfl)
  | reap loop => exact reapList_unmoved _ (beside same rfl rfl rfl rfl rfl)
  | caught => exact note same
  | died => exact enter (note (beside same rfl rfl rfl rfl rfl))
  | flush c sent => exact flush_unmoved s c sent
  | refuseHeader c => exact send_unmoved same
  | respond c response => exact Unmoves.andThen (send_unmoved same) fun t after => enter after
  | conclude c response =>
      exact Unmoves.andThen (send_unmoved same) fun t after => enter (changed after fun _ => rfl)
  | postNoid c => exact postNoid_unmoved s c
  | settle id worker => exact settle_unmoved s id worker
  | workerMode c on => exact changed same fun _ => rfl
  | noIdMode c => exact changed same fun _ => rfl
  | failMode c => exact changed same fun _ => rfl
  | beginAdd c => exact enter (changed same fun _ => rfl)
  | resolve c key => exact resolve_unmoved s c key
  | describe i info =>
      simp only [Action.apply]
      cases s.line i with
      | none => trivial
      | some line => exact same.beside rfl rfl rfl rfl rfl
  | visit i now =>
      simp only [Action.apply]
      cases s.line i with
      | none => trivial
      | some line => exact same.beside rfl rfl rfl rfl rfl
  | lock i on =>
      simp only [Action.apply]
      cases s.line i with
      | none => trivial
      | some line => exact same.beside rfl rfl rfl rfl rfl
  | nameConn c random =>
      cases draws
      exact nameConn_unmoved s c
  | leaveList c => exact leaveList_unmoved s c
  | dropDirects c => exact unlinkDirects_unmoved _ (changed same fun _ => rfl)
  | wake c => exact enter (changed same fun _ => rfl)
  | dropMessage i j p =>
      simp only [Action.apply]
      cases s.messageAt i j p with
      | none => trivial
      | some message => exact takeMessage same
  | refuseNoId i j p => exact refuseNoId_unmoved s i j p
  | refuseCollision i j p random =>
      cases draws
      exact refuseCollision_unmoved s i j p reads
  | giveAsync c i j p => exact giveAsync_unmoved s c i j p
  | giveNoid c i j p => exact giveNoid_unmoved s c i j p
  | giveId c i j p random =>
      cases draws
      exact giveId_unmoved s c i j p reads
  | register c i => exact register_unmoved s c i
  | subscribe c i name => exact subscribe_unmoved s c i name
  | finish c => exact enter same
  | collect =>
      simp only [Action.apply, collect]
      cases s.gc with
      | nil => trivial
      | cons message rest => exact deleteMessage_unmoved (beside same rfl rfl rfl rfl rfl)
  | dropEntry i j p => exact dropEntry_unmoved same
  | handAsync c i j p name => exact handAsync_unmoved s c i j p name
  | handNoid c i j p name => exact handNoid_unmoved s c i j p name
  | handId c i j p name random =>
      cases draws
      exact handId_unmoved s c i j p name (reads c rfl)
  | undoNoId c i j p => exact undo_unmoved s same c i j p _
  | undoCollision c i j p random =>
      cases draws
      simp only [Action.apply]
      split
      · trivial
      · rename_i taken
        exact undo_unmoved s (takeId_unmoved same (reads c rfl) rfl taken).1 c i j p _
  | enqueueSync c i name => exact enqueueSync_unmoved s c i name
  | enqueueAsync c i name => exact enqueueAsync_unmoved s c i name
  | newDirect => exact same.beside rfl rfl rfl rfl rfl
  | publishClaim i w d => exact changed (beside same rfl rfl rfl rfl rfl) fun _ => rfl
  | publishPush i w d => exact changed (beside same rfl rfl rfl rfl rfl) fun _ => rfl
  | releaseDirect d => exact unlinkDirect_unmoved same
  | create key =>
      simp only [Action.apply]
      cases s.registry.getQueue s.threads key true with
      | returned registry slot => exact same.beside rfl rfl rfl rfl rfl
      | thrown registry error => exact same.beside rfl rfl rfl rfl rfl
      | fault => trivial
  | unhook key => exact unhook_unmoved s key
  | closeMessage j => exact closeMessage_unmoved s j
  | closeWorker j => exact closeWorker_unmoved s j
  | popItem => exact popItem_unmoved s
  | bury => exact same.beside rfl rfl rfl rfl rfl
  | expire i j p now => exact absurd rfl (early i j p now)
  | discard i j p =>
      simp only [Action.apply, Server.discard]
      cases s.messageAt i j p with
      | none => trivial
      | some message => exact deleteMessage_unmoved (eraseMessage same)
  | eraseOwn c => exact unlink_unmoved (eraseWait same)
  | failNoid c => exact failNoid_unmoved s c
  | releaseClient c => exact releaseClient_unmoved same

end Unmoved

/-- The action reads nothing. -/
abbrev Unfeeds (s : Server) (result : Result) : Prop :=
  result.Ends (fun _ t => Unfed s t) fun _ t => Unfed s t

namespace Unfed

open Server

theorem send_unfed {s t : Server} {c : ConnId} {response : Response} (unfed : Unfed s t) :
    Unfeeds s (t.send c response) :=
  send_ends (fun _ => note (changed unfed fun _ => rfl)) fun _ => changed unfed fun _ => rfl

theorem expire_unfed (s : Server) (i j p now : Nat) : Unfeeds s (s.expire i j p now) := by
  unfold expire
  split
  · trivial
  · rw [Unfeeds, Ends_andThen]
    refine Program.Ends.mono (send_unfed (changed (refl s) fun _ => rfl)) (fun _ t after => ?_)
      fun _ _ after => after
    exact changed after fun _ => rfl

theorem apply_unfed (s : Server) {action : Action} (other : action.parses = false)
    (known : ∀ loop garbage, action ≠ .accept loop garbage) : Unfeeds s (action.apply s) := by
  by_cases late : ∃ i j p now, action = .expire i j p now
  · obtain ⟨i, j, p, now, rfl⟩ := late
    exact expire_unfed s i j p now
  · have early : ∀ i j p now, action ≠ .expire i j p now := fun i j p now same => late ⟨i, j, p, now, same⟩
    have moves : Unmoves ⟨fun _ => True, action.random⟩ s (action.apply s) :=
      Unmoved.apply_unmoved s other known early rfl fun _ _ _ _ _ => trivial
    exact Program.Ends.mono moves (fun _ _ unmoved => unmoved.toUnfed) fun _ _ unmoved => unmoved.toUnfed

end Unfed

/-! ### The request line -/

/-- A request line has been read. -/
structure Begun (s : Server) (c : ConnId) (line : Bytes) (t : Server) : Prop where
  grounded : Grounded s t
  arrays : t.arrays = s.arrays
  http : (t.conns c).http = { (s.conns c).http.clearRequest (s.conns c).workerMode with
    path := (Http.readMethod line).1
    httpVersion := (Http.readMethod line).2
    step := if (Http.readMethod line).1.isEmpty then (s.conns c).http.step else .header }
  closed : (t.conns c).closed = ((s.conns c).closed || (Http.readMethod line).1.isEmpty)
  ready : (t.conns c).ready = (s.conns c).ready
  others : ∀ x, x ≠ c → (t.conns x).held = (s.conns x).held
  deadline : ∀ x, x ≠ c → (t.conns x).http.deadline = (s.conns x).http.deadline
  labels : ∀ x, x ≠ c → (t.conns x).http.labels = (s.conns x).http.labels

/-- The request of `c` is cleared; the client it held may have been let go. -/
structure Cleared (s : Server) (c : ConnId) (t : Server) : Prop where
  grounded : Grounded s t
  arrays : t.arrays = s.arrays
  http : (t.conns c).http = (s.conns c).http.clearRequest (s.conns c).workerMode
  closed : (t.conns c).closed = (s.conns c).closed
  ready : (t.conns c).ready = (s.conns c).ready
  others : ∀ x, x ≠ c → (t.conns x).held = (s.conns x).held
  deadline : ∀ x, x ≠ c → (t.conns x).http.deadline = (s.conns x).http.deadline
  labels : ∀ x, x ≠ c → (t.conns x).http.labels = (s.conns x).http.labels

namespace Cleared

variable {s t : Server} {c : ConnId}

theorem clear (s : Server) (c : ConnId) (taken : Bytes) : Cleared s c ((s.note (.taken c taken)).modify c
    fun conn => { conn with http := conn.http.clearRequest conn.workerMode }) := by
  constructor
  · refine ⟨rfl, rfl, fun x => ?_⟩
    rw [Server.modify_conns]
    by_cases own : x = c
    · rw [if_pos own, own]
      rfl
    · rw [if_neg own]
      rfl
  · rfl
  · rw [Server.modify_self]
    rfl
  · rw [Server.modify_self]
    rfl
  · rw [Server.modify_self]
    rfl
  · intro x other
    rw [Server.modify_conns, if_neg other]
    rfl
  · intro x other
    rw [Server.modify_conns, if_neg other]
    rfl
  · intro x other
    rw [Server.modify_conns, if_neg other]
    rfl

theorem modify (cleared : Cleared s c t) {change : Conn → Conn}
    (bound : (change (t.conns c)).nloop = (t.conns c).nloop)
    (http : (change (t.conns c)).http = (t.conns c).http)
    (closed : (change (t.conns c)).closed = (t.conns c).closed)
    (ready : (change (t.conns c)).ready = (t.conns c).ready) : Cleared s c (t.modify c change) := by
  constructor
  · refine ⟨cleared.grounded.accepted, cleared.grounded.threads, fun x => ?_⟩
    rw [Server.modify_conns]
    by_cases own : x = c
    · rw [if_pos own, own, bound, cleared.grounded.nloop]
    · rw [if_neg own, cleared.grounded.nloop]
  · exact cleared.arrays
  · rw [Server.modify_self, http, cleared.http]
  · rw [Server.modify_self, closed, cleared.closed]
  · rw [Server.modify_self, ready, cleared.ready]
  · intro x other
    rw [Server.modify_conns, if_neg other, cleared.others x other]
  · intro x other
    rw [Server.modify_conns, if_neg other, cleared.deadline x other]
  · intro x other
    rw [Server.modify_conns, if_neg other, cleared.labels x other]

theorem unlinked (cleared : Cleared s c t) (d : ConnId) : Cleared s c (t.unlinked d) := by
  constructor
  · refine ⟨cleared.grounded.accepted, cleared.grounded.threads, fun x => ?_⟩
    rw [Server.unlinked_conns]
    exact cleared.grounded.nloop x
  · exact cleared.arrays
  · rw [Server.unlinked_conns]
    exact cleared.http
  · rw [Server.unlinked_conns]
    exact cleared.closed
  · rw [Server.unlinked_conns]
    exact cleared.ready
  · intro x other
    rw [Server.unlinked_conns]
    exact cleared.others x other
  · intro x other
    rw [Server.unlinked_conns]
    exact cleared.deadline x other
  · intro x other
    rw [Server.unlinked_conns]
    exact cleared.labels x other

end Cleared

theorem begin_ends (s : Server) (c : ConnId) (taken line : Bytes) :
    (s.begin c taken line).Ends (fun _ t => Begun s c line t) fun _ t => Cleared s c t := by
  have start := Cleared.clear s c taken
  unfold Server.begin
  simp only [Ends_andThen]
  obtain ⟨cleared, clearedEq⟩ : ∃ cleared, (s.note (.taken c taken)).modify c (fun conn =>
    { conn with http := conn.http.clearRequest conn.workerMode }) = cleared := ⟨_, rfl⟩
  rw [clearedEq] at start ⊢
  refine Program.Ends.mono (Q := fun _ t => Cleared s c t) (E := fun _ t => Cleared s c t) ?_
    (fun _ t after => ?_) fun _ _ after => after
  · split
    · split
      · exact start
      · exact start
    · rename_i status
      split
      · split
        · exact start
        · exact start
      · have reset : Cleared s c (cleared.modify c fun conn => { conn with failOnDisconnect := false }) :=
          start.modify rfl rfl rfl rfl
        have free : ∀ t : Server, Cleared s c t → (t.conns c).status = (cleared.conns c).status →
            Cleared s c (t.modify c fun conn => { conn with client := none, noid := false }) := by
          intro t after same
          refine after.modify rfl rfl rfl ?_
          simp only [Conn.ready, same, status]
          simp
        rw [Ends_andThen]
        split
        · exact free _ reset (by rw [Server.modify_self])
        · rename_i d _
          refine Server.unlink_ends (fun _ => ?_) fun _ => reset.unlinked d
          refine free _ (reset.unlinked d) ?_
          rw [Server.unlinked_conns, Server.modify_self]
  · constructor
    · refine ⟨after.grounded.accepted, after.grounded.threads, fun x => ?_⟩
      rw [Server.modify_conns]
      by_cases own : x = c
      · rw [if_pos own, own, after.grounded.nloop]
      · rw [if_neg own, after.grounded.nloop]
    · exact after.arrays
    · rw [Server.modify_self, after.http]
      rfl
    · rw [Server.modify_self, after.closed]
    · rw [Server.modify_self]
      exact after.ready
    · intro x other
      rw [Server.modify_conns, if_neg other, after.others x other]
    · intro x other
      rw [Server.modify_conns, if_neg other, after.deadline x other]
    · intro x other
      rw [Server.modify_conns, if_neg other, after.labels x other]

/-- Only an accepted connection is given a loop. -/
theorem Grounded.apply_grounds (s : Server) {action : Action}
    (other : ∀ loop garbage, action ≠ .accept loop garbage) :
    (action.apply s).Ends (fun _ t => Grounded s t) fun _ t => Grounded s t := by
  have changed : ∀ {t : Server} {c : ConnId} {change : Conn → Conn}, Grounded s t →
      (∀ conn, (change conn).nloop = conn.nloop) → Grounded s (t.modify c change) := by
    intro t c change grounded keeps
    refine ⟨grounded.accepted, grounded.threads, fun x => ?_⟩
    rw [Server.modify_conns]
    by_cases same : x = c
    · rw [if_pos same, same, keeps, grounded.nloop]
    · rw [if_neg same, grounded.nloop]
  have noted : ∀ event, Grounded s (s.note event) := fun _ => ⟨rfl, rfl, fun _ => rfl⟩
  cases parses : action.parses with
  | false =>
      exact Program.Ends.mono (Unfed.apply_unfed s parses other) (fun _ _ unfed => unfed.grounded)
        fun _ _ unfed => unfed.grounded
  | true =>
      cases action with
      | receive loop chunk => exact ⟨rfl, rfl, fun _ => rfl⟩
      | edit c taken change => exact changed (noted _) fun _ => rfl
      | begin c taken line =>
          exact Program.Ends.mono (begin_ends s c taken line) (fun _ _ begun => begun.grounded)
            fun _ _ cleared => cleared.grounded
      | endHead c taken body => exact changed (noted _) fun _ => rfl
      | rewind c =>
          have rewound : Grounded s (s.modify c fun conn =>
              { conn with http := { conn.http with step := .start } }) :=
            changed ⟨rfl, rfl, fun _ => rfl⟩ fun _ => rfl
          exact ⟨rewound.accepted, rewound.threads, rewound.nloop⟩
      | _ => cases parses

end Ijson
